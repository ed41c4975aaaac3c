import Xv6.Shell.Input
import Xv6.Shell.Progress

/-!
# Who comes back to the main loop

The branches of `runcmd` for `;` and `|` end their children with `exit`. The child of a
line with `&` at its end, and the child of a simple command whose `exec` fails, return
from `runcmd` like the shell itself, into the main loop unless a caller exits.
-/
namespace Xv6.Guarantees.OnlyShellReturns

open Xv6.Library.Pieces
open Xv6.Source Xv6.Source.Proc Xv6.Source.Ysh
open Xv6.Shell

/-- Every `fork` and `pipe` succeeds, and `exec` where it is said to. -/
def outcomes (succeeds : Addr → Bool) : Outcomes Addr := ⟨fun tag b => succeeds tag = b, False⟩

theorem outcomes_total (succeeds : Addr → Bool) (tag : Addr) :
    (outcomes succeeds).exec tag true ∨ (outcomes succeeds).exec tag false := by
  cases h : succeeds tag <;> simp [outcomes, h]

/-- The process is back in the main loop. -/
def Returned (P : Process Addr) : Prop := ∃ v, P.status = .run (.ret v)

/-- The process has come to an end that is none: outside its memory. -/
def Lost (P : Process Addr) : Prop := P.status = .run .fault ∨ P.status = .run .spin

/-- The shell can come back from the line, no other process ever does, and each process
that the line forks has `exit` or a program as its only ends. -/
structure OnlyShell (succeeds : Addr → Bool) (l : Line) : Prop where
  returns : ∃ tr s P, Reach (outcomes succeeds) [l.shell] tr s ∧ s[0]? = some P ∧ Returned P
  alone : ∀ tr s, Reach (outcomes succeeds) [l.shell] tr s →
    ∀ j P, s[j]? = some P → Returned P → j = 0
  ends : ∀ tr s, Reach (outcomes succeeds) [l.shell] tr s → ∀ P ∈ s, ¬ Lost P

/-- What the shell runs itself, the last piece behind a `;`, is not for the background
and, if it is a simple command, its `exec` succeeds. -/
def LastPieceExecs (succeeds : Addr → Bool) : Command → Addr → Prop
  | .back _, _ => False
  | .exec _, addr => succeeds addr = true
  | .list _ b, addr => LastPieceExecs succeeds b (addr ++ [.after])
  | .nop, _ | .exit, _ | .cd _, _ | .pipe _ _, _ | .blank, _ => True

section alone
variable {succeeds : Addr → Bool} {o : Outcomes Addr}

/-- What holds at every call: nobody is lost, only the shell itself is at a `ret`, and all
others are forked for a part of the line. -/
def Tame (scope : Addr) (_ : Files Addr) : Prog Addr → Prop
  | .fault | .spin => False
  | .ret _ => scope = []
  | .fork scope' _ _ => scope' ≠ []
  | _ => True

/-- The process of a pipe whose two sides are tame in every process. -/
theorem tame_pipe {a b : Command} {addr scope : Addr} {f : Files Addr}
    (ha : ∀ scope f, (a.prog (addr ++ [.left]) fun _ => .exit).All o Tame scope f)
    (hb : ∀ scope f, (b.prog (addr ++ [.right]) fun _ => .exit).All o Tame scope f) :
    (Prog.pipe addr fun fd0 fd1 => .fork (addr ++ [.left])
      (.close 1 <| .dup fd1 <| .close fd0 <| .close fd1 <| a.prog (addr ++ [.left]) fun _ => .exit)
      (.close 0 <| .dup fd0 <| .close fd0 <| .close fd1 <|
        b.prog (addr ++ [.right]) fun _ => .exit)).All o Tame scope f := by
  refine ⟨trivial, fun r w f' _ => ?_, fun r w _ => ?_⟩
  · exact ⟨by simp [Tame], ⟨trivial, trivial, trivial, trivial, ha _ _⟩,
      trivial, trivial, trivial, trivial, hb _ _⟩
  · exact ⟨by simp [Tame], ⟨trivial, trivial, trivial, trivial, ha _ _⟩,
      trivial, trivial, trivial, trivial, hb _ _⟩

/-- A command whose callers exit is tame in every process. -/
theorem tame_inner : ∀ (t : Command), t.Fits → ∀ (addr scope : Addr) (f : Files Addr)
    (k : Bool → Prog Addr), (∀ v scope f, (k v).All o Tame scope f) →
    (t.prog addr k).All o Tame scope f := by
  intro t
  induction t with
  | nop => exact fun _ _ scope f k hk => hk true scope f
  | exit => exact fun _ _ scope f k hk => hk false scope f
  | cd path => exact fun _ _ scope f k hk => ⟨trivial, hk true scope f⟩
  | back c ih =>
    exact fun ht addr scope f k hk => ⟨by simp [Tame],
      ih ht _ _ _ _ fun _ => hk true, hk true scope f⟩
  | list a b iha ihb =>
    exact fun ht addr scope f k hk => ⟨by simp [Tame],
      iha ht.1 _ _ _ _ fun _ _ _ => trivial, trivial, ihb ht.2 _ _ _ _ fun _ => hk true⟩
  | pipe a b iha ihb =>
    intro ht addr scope f k hk
    refine ⟨by simp [Tame], tame_pipe ?_ ?_, trivial, hk true scope f⟩
    · exact fun scope f => iha ht.1 _ _ _ _ fun _ _ _ => trivial
    · exact fun scope f => ihb ht.2 _ _ _ _ fun _ _ _ => trivial
  | exec argv =>
    intro ht addr scope f k hk
    have hroom : argv.length < maxArgs := ht
    rw [Command.prog, if_pos hroom]
    exact ⟨by simp [Tame], ⟨trivial, fun _ => ⟨trivial, hk true _ f⟩⟩, trivial, hk true scope f⟩
  | blank => exact fun h => absurd h id

/-- The shell's own command is tame when its last piece does not come back twice. -/
theorem tame_shell : ∀ (t : Command), t.Fits → ∀ (addr : Addr), LastPieceExecs succeeds t addr →
    ∀ (f : Files Addr) (k : Bool → Prog Addr),
      (∀ v f, (k v).All (outcomes succeeds) Tame [] f) →
      (t.prog addr k).All (outcomes succeeds) Tame [] f := by
  intro t
  induction t with
  | nop => exact fun _ _ _ f k hk => hk true f
  | exit => exact fun _ _ _ f k hk => hk false f
  | cd path => exact fun _ _ _ f k hk => ⟨trivial, hk true f⟩
  | back c => exact fun _ _ h => absurd h id
  | list a b _ ihb =>
    exact fun ht addr hlast f k hk => ⟨by simp [Tame],
      tame_inner a ht.1 _ _ _ _ fun _ _ _ => trivial, trivial,
      ihb ht.2 _ hlast _ _ fun _ => hk true⟩
  | pipe a b =>
    intro ht addr _ f k hk
    refine ⟨by simp [Tame], tame_pipe ?_ ?_, trivial, hk true f⟩
    · exact fun scope f => tame_inner a ht.1 _ _ _ _ fun _ _ _ => trivial
    · exact fun scope f => tame_inner b ht.2 _ _ _ _ fun _ _ _ => trivial
  | exec argv =>
    intro ht addr hlast f k hk
    have hroom : argv.length < maxArgs := ht
    have hexec : succeeds addr = true := hlast
    rw [Command.prog, if_pos hroom]
    refine ⟨by simp [Tame], ⟨trivial, fun hfail => ?_⟩, trivial, hk true f⟩
    exact absurd (hexec.symm.trans hfail) (by simp)
  | blank => exact fun h => absurd h id

/-- In every state of such a line a process that is back in the main loop is the shell,
and no process is lost. -/
theorem tame_reach {l : Line} (hfits : (Command.ofLine l.bytes).Fits)
    (hlast : LastPieceExecs succeeds (Command.ofLine l.bytes) []) {tr : List Nat} {s : Table Addr}
    (run : Reach (outcomes succeeds) [l.shell] tr s) {j : Nat} {P : Process Addr}
    (hj : s[j]? = some P) : (Returned P → j = 0) ∧ ¬ Lost P := by
  have hmeets := Reach.meets (Q := Tame) (B := (· ≠ [])) (fun _ _ _ _ _ h => h) ?_ run j P hj
  · obtain ⟨hm, hscope⟩ := hmeets
    rw [Process.Meets] at hm
    constructor
    · rintro ⟨v, hv⟩
      rw [hv] at hm
      exact hscope.resolve_right fun h => h hm
    · rintro (hv | hv)
      · rw [hv] at hm
        exact hm
      · rw [hv] at hm
        exact hm
  · intro j P hj
    have hlt := lt_of_getElem? hj
    rw [List.mem_singleton.mp (List.mem_of_getElem? hj)]
    refine ⟨?_, .inl (by simpa using hlt)⟩
    simp only [Process.Meets, Line.shell, Line.run_eq]
    exact tame_shell _ hfits [] hlast _ _ fun _ _ => rfl

end alone

section back
variable {o : Outcomes Addr} {s : Table Addr} {i : Nat}

/-- Some process is lost in a state that can be reached. -/
def CanBeLost (o : Outcomes Addr) (s : Table Addr) : Prop :=
  ∃ tr s' P, Reach o s tr s' ∧ P ∈ s' ∧ Lost P

theorem CanBeLost.after {b : Nat} {s' : Table Addr} (h : Leads o b i s s') (hl : CanBeLost o s') :
    CanBeLost o s := by
  obtain ⟨tr, hrun⟩ := h.run
  obtain ⟨tr', s'', P, hrun', hmem, hP⟩ := hl
  exact ⟨tr ++ tr', s'', P, hrun.append hrun', hmem, hP⟩

/-- A command that does not fit gets a process lost. The process is found by the way to
the piece at fault: what stands before it in a list is completed first. -/
theorem lost_of_not_fits (hexec : ∀ tag, o.exec tag true ∨ o.exec tag false) :
    ∀ (t : Command), ¬ t.Fits → ∀ (s : Table Addr) (i : Nat) (parent : Option Nat)
      (scope addr : Addr) (f : Files Addr) (k : Bool → Prog Addr), Ordered s →
      s[i]? = some ⟨parent, scope, f, .run (t.prog addr k)⟩ → CanBeLost o s := by
  intro t
  induction t with
  | nop => exact fun h => absurd trivial h
  | exit => exact fun h => absurd trivial h
  | cd path => exact fun h => absurd trivial h
  | back c ih =>
    intro h s i parent scope addr f k ord hi
    obtain ⟨s₁, h₁, _, _, hc₁⟩ := leads_fork (o := o) hi
    exact .after h₁ (ih h s₁ _ _ _ _ _ _ (h₁.ordered ord) hc₁)
  | list a b iha ihb =>
    intro h s i parent scope addr f k ord hi
    by_cases ha : a.Fits
    · obtain ⟨s₁, h₁, hi₁⟩ := leads_list (completes_of_fits hexec a ha) ord hi
      exact .after h₁ (ihb (fun hb => h ⟨ha, hb⟩) s₁ i _ _ _ _ _ (h₁.ordered ord) hi₁)
    · obtain ⟨s₁, h₁, _, _, hc₁⟩ := leads_fork (o := o) hi
      exact .after h₁ (iha ha s₁ _ _ _ _ _ _ (h₁.ordered ord) hc₁)
  | pipe a b iha ihb =>
    intro h s i parent scope addr f k ord hi
    obtain ⟨s₁, f', f'', h₁, _, _, hc₁, hg₁⟩ := leads_pipe (o := o) hi
    by_cases ha : a.Fits
    · exact .after h₁ (ihb (fun hb => h ⟨ha, hb⟩) s₁ _ _ _ _ _ _ (h₁.ordered ord) hc₁)
    · exact .after h₁ (iha ha s₁ _ _ _ _ _ _ (h₁.ordered ord) hg₁)
  | exec argv =>
    intro h s i parent scope addr f k _ hi
    have hroom : ¬ argv.length < maxArgs := h
    rw [Command.prog, if_neg hroom] at hi
    exact ⟨[], s, _, .nil, List.mem_of_getElem? hi, .inl rfl⟩
  | blank =>
    exact fun _ s i _ _ _ _ _ _ hi => ⟨[], s, _, .nil, List.mem_of_getElem? hi, .inl rfl⟩

/-- When the last piece comes back twice, the child that does is a new process. -/
theorem second_return {succeeds : Addr → Bool} : ∀ (t : Command), t.Fits → ∀ (addr : Addr),
    ¬ LastPieceExecs succeeds t addr → ∀ (s : Table Addr) (i : Nat) (parent : Option Nat)
      (scope : Addr) (f : Files Addr) (k : Bool → Prog Addr), Ordered s →
      (Status.run (k true)).ends → s[i]? = some ⟨parent, scope, f, .run (t.prog addr k)⟩ →
      ∃ tr s' P, ∃ j : Nat, Reach (outcomes succeeds) s tr s' ∧ s.length ≤ j ∧ s'[j]? = some P ∧
        P.status = .run (k true) := by
  intro t
  induction t with
  | nop => exact fun _ _ h => absurd trivial h
  | exit => exact fun _ _ h => absurd trivial h
  | cd path => exact fun _ _ h => absurd trivial h
  | back c _ =>
    intro ht addr _ s i parent scope f k ord hk hi
    obtain ⟨s₁, h₁, _, _, hc₁⟩ := leads_fork (o := outcomes succeeds) hi
    obtain ⟨s₂, h₂, hc₂⟩ := completes_of_fits (outcomes_total succeeds) c ht s₁ _ _ _ _ _ (fun _ => k true)
      (h₁.ordered ord) hk hc₁
    obtain ⟨tr₁, run₁⟩ := h₁.run
    obtain ⟨tr₂, run₂⟩ := h₂.run
    exact ⟨_, s₂, _, s.length, run₁.append run₂, Nat.le_refl _, hc₂, rfl⟩
  | list a b _ ihb =>
    intro ht addr hlast s i parent scope f k ord hk hi
    obtain ⟨s₁, h₁, hi₁⟩ := leads_list (completes_of_fits (outcomes_total succeeds) a ht.1) ord hi
    obtain ⟨tr₁, run₁⟩ := h₁.run
    obtain ⟨tr₂, s₂, P, j, run₂, hj, hP, hst⟩ := ihb ht.2 _ hlast s₁ i _ _ _ (fun _ => k true)
      (h₁.ordered ord) hk hi₁
    exact ⟨_, s₂, P, j, run₁.append run₂, Nat.le_trans h₁.grows hj, hP, hst⟩
  | pipe a b => exact fun _ _ h => absurd trivial h
  | exec argv =>
    intro ht addr hlast s i parent scope f k ord hk hi
    have hroom : argv.length < maxArgs := ht
    have hfail : succeeds addr = false := by simpa [LastPieceExecs] using hlast
    rw [Command.prog, if_pos hroom] at hi
    obtain ⟨s₁, h₁, hl₁, _, hc₁⟩ := leads_fork (o := outcomes succeeds) hi
    obtain ⟨s₂, h₂, hc₂⟩ := leads_failedExec (o := outcomes succeeds) (b := 0) (h₁.ordered ord) hl₁ hc₁ hfail
    obtain ⟨tr₁, run₁⟩ := h₁.run
    obtain ⟨tr₂, run₂⟩ := h₂.run
    exact ⟨_, s₂, _, s.length, run₁.append run₂, Nat.le_refl _, hc₂, rfl⟩
  | blank => exact fun h => absurd h id

end back

section line
variable {succeeds : Addr → Bool} {l : Line}

theorem ordered_shell (l : Line) : Ordered [l.shell] := by
  intro j P hj q hq
  rw [List.mem_singleton.mp (List.mem_of_getElem? hj)] at hq
  cases hq

theorem shell_prog (l : Line) : [l.shell][0]? = some ⟨none, [], Line.consoles,
    .run ((Command.ofLine l.bytes).prog [] .ret)⟩ := by
  rw [← l.run_eq]
  rfl

theorem OnlyShell.fits (h : OnlyShell succeeds l) : (Command.ofLine l.bytes).Fits := by
  by_contra hno
  obtain ⟨tr, s, P, run, hmem, hlost⟩ :=
    lost_of_not_fits (outcomes_total succeeds) _ hno _ _ _ _ _ _ _ (ordered_shell l) (shell_prog l)
  exact h.ends tr s run P hmem hlost

theorem OnlyShell.lastPiece (h : OnlyShell succeeds l) :
    LastPieceExecs succeeds (Command.ofLine l.bytes) [] := by
  by_contra hno
  obtain ⟨tr, s, P, j, run, hj, hP, hst⟩ :=
    second_return _ h.fits [] hno _ _ _ _ _ _ (ordered_shell l) rfl (shell_prog l)
  have h0 := h.alone tr s run j P hP ⟨true, hst⟩
  rw [h0] at hj
  exact absurd hj (by simp)

end line

/-- Only the shell comes back from a line, and all other processes end properly, under
exactly these conditions on the line and on the results of `exec` in it. -/
theorem only_shell_returns_iff (succeeds : Addr → Bool) (l : Line) :
    OnlyShell succeeds l ↔
      (¬ Blank space l.bytes ∧ ∀ argv ∈ (Command.ofLine l.bytes).simple, argv.length < maxArgs) ∧
        LastPieceExecs succeeds (Command.ofLine l.bytes) [] := by
  rw [← Command.fits_ofLine]
  constructor
  · exact fun h => ⟨h.fits, h.lastPiece⟩
  · rintro ⟨hfits, hlast⟩
    obtain ⟨s, h, hi⟩ := completes_of_fits (outcomes_total succeeds) _ hfits _ _ _ _ _ _ _
      (ordered_shell l) rfl (shell_prog l)
    obtain ⟨tr, run⟩ := h.run
    refine ⟨⟨tr, s, _, run, hi, _, rfl⟩, ?_, ?_⟩
    · exact fun tr s run j P hj => (tame_reach hfits hlast run hj).1
    · intro tr s run P hP
      obtain ⟨j, hj⟩ := List.mem_iff_getElem?.mp hP
      exact (tame_reach hfits hlast run hj).2

/-- `ls &`, whose child comes back as well, and `ls` where there is no such program. -/
theorem background_and_failed_exec_come_back :
    ¬ OnlyShell (fun _ => true) ⟨Ulib.literal ['l', 's', ' ', '&'], by decide, by decide⟩ ∧
      ¬ OnlyShell (fun _ => false) ⟨Ulib.literal ['l', 's'], by decide, by decide⟩ := by
  constructor
  · exact fun h => h.lastPiece
  · exact fun h => Bool.false_ne_true h.lastPiece

end Xv6.Guarantees.OnlyShellReturns
