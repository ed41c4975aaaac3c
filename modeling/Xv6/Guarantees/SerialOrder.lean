import Xv6.Shell.Input
import Xv6.Shell.Progress
import Xv6.Shell.Schedule

/-!
# The order of serial commands

The shell waits once for the part before a `;`. One `wait` is enough for a simple
command of a shell without other children. It is not enough for a pipeline, whose
processes end one by one, and not with children of earlier lines around, whose ends
`wait` takes as well.
-/
namespace Xv6.Guarantees.SerialOrder

open Xv6.Library.Pieces Xv6.Library.Transition
open Xv6.Source Xv6.Source.Proc Xv6.Source.Ysh
open Xv6.Source.Ulib (Bytes)
open Xv6.Shell

/-- The first place is in the part before a `;` and the second in the part behind it. -/
def Before (γ β : Addr) : Prop := ∃ α, α ++ [.before] <+: γ ∧ α ++ [.after] <+: β

/-- A program of the part behind a `;` is executed while one of the part before runs. -/
def Overlap (s : Table Addr) : Prop :=
  ∃ P ∈ s, ∃ P' ∈ s, ∃ γ β argv n, P.status = .program (some γ) ∧
    P'.status = .run (.exec β argv n) ∧ Before γ β

/-- A child that an earlier line has left: it runs a program or has ended. -/
def Background (P : Process Addr) : Prop :=
  P.parent = some 0 ∧ (P.status = .program none ∨ P.status = .zombie)

/-- For each `;`: the part before it has no program, or the part behind it has none, or
the shell is idle, with no child of an earlier line, and the part before is simple. -/
def Orderly (idle : Prop) : Command → Prop
  | .list a b => b.simple = [] ∨ (a.simple = [] ∨ idle ∧ ∃ argv, a = .exec argv) ∧ Orderly idle b
  | _ => True

section confined
variable {o : Outcomes Addr} {T : Addr → Prop}

/-- All programs that are to be executed are at places of `T`. -/
def Within (T : Addr → Prop) : Prog Addr → Prop
  | .fork _ c n => Within T c ∧ Within T n
  | .exec tag _ n => T tag ∧ Within T n
  | .pipe _ n => ∀ r w, Within T (n r w)
  | .wait n | .chdir _ n | .close _ n | .dup _ n => Within T n
  | .ret _ | .exit | .fault | .spin => True

/-- All programs that the process executes or will execute are at places of `T`. -/
def Confined (T : Addr → Prop) (P : Process Addr) : Prop :=
  match P.status with
  | .run p => Within T p
  | .program (some tag) => T tag
  | .program none | .zombie | .reaped => True

/-- The process executes no program of the line. -/
abbrev Inert (P : Process Addr) : Prop := Confined (fun _ => False) P

theorem Within.mono {T' : Addr → Prop} (hT : ∀ tag, T tag → T' tag) :
    ∀ {p : Prog Addr}, Within T p → Within T' p := by
  intro p
  induction p with
  | fork scope c n ihc ihn => exact fun h => ⟨ihc h.1, ihn h.2⟩
  | exec tag argv n ih => exact fun h => ⟨hT tag h.1, ih h.2⟩
  | pipe tag n ih => exact fun h r w => ih r w (h r w)
  | wait n ih => exact ih
  | chdir path n ih => exact ih
  | close fd n ih => exact ih
  | dup fd n ih => exact ih
  | ret | exit | fault | spin => exact fun h => h

theorem Inert.confined {P : Process Addr} (h : Inert P) : Confined T P := by
  obtain ⟨parent, scope, f, st⟩ := P
  match st, h with
  | .run p, h => exact Within.mono (T := fun _ => False) (fun _ hf => hf.elim) h
  | .program none, _ => trivial
  | .zombie, _ => trivial
  | .reaped, _ => trivial

theorem Confined.passive {i : Nat} {P P' : Process Addr} (h : Confined T P)
    (hp : Passive i P P') : Confined T P' := by
  cases hp <;> exact h

theorem Confined.acts {P P' : Process Addr} (h : Confined T P) (ha : Acts o P P') :
    Confined T P' := by
  cases ha with
  | call hl =>
    cases hl with
    | forkFail => exact h.2
    | execOk => exact h.1
    | execFail => exact h.2
    | chdir => exact h
    | pipe => exact h _ _
    | pipeFail => exact h _ _
    | close => exact h
    | dup => exact h
  | forked => exact h.2
  | waited => exact h
  | ended => trivial

/-- The processes outside `X` stay confined when one of them takes a step. -/
theorem step_confined {X : Nat → Prop} {s s' : Table Addr} {i : Nat}
    (inv : ∀ j P, s[j]? = some P → ¬ X j → Confined T P) (hi : ¬ X i) (h : Step o s i s') :
    ∀ j P, s'[j]? = some P → ¬ X j → Confined T P := by
  intro j P' hj hX
  rcases h.origin hj with ⟨_, P, hP, hp⟩ | ⟨rfl, P, hP, ha⟩ |
    ⟨parent, scope, f, scope', c, n, hP, rfl, rfl⟩
  · exact (inv j P hP hX).passive hp
  · exact (inv j P hP hX).acts ha
  · exact (inv i _ hP hi).1

end confined

section trees
variable {T : Addr → Prop} {addr : Addr} {k : Bool → Prog Addr}

/-- A piece without `;` and `&`. -/
def Flat : Command → Prop
  | .list _ _ | .back _ => False
  | .pipe a b => Flat a ∧ Flat b
  | .nop | .exit | .cd _ | .exec _ | .blank => True

/-- Flat pieces between semicolons. -/
def Serial : Command → Prop
  | .list a b => Flat a ∧ Serial b
  | t => Flat t

theorem Reads.flat {w : Bytes} {t : Command} (h : Reads w t) (hs : semicolon ∉ w)
    (ha : ampersand ∉ w) : Flat t := by
  induction h with
  | nop | exit | cd | exec => trivial
  | @back w u c hw =>
    have hmem : ampersand ∈ strip space w := by simp [hw]
    exact ha (mem_of_mem_strip hmem)
  | @list w u v a b hw =>
    have hmem : semicolon ∈ strip space w := by simp [hw]
    exact hs (mem_of_mem_strip hmem)
  | @pipe w u v a b hw _ _ _ _ _ _ iha ihb =>
    have hu : ∀ x ∈ u, x ∈ w := fun x hx => mem_of_mem_strip (by rw [hw]; simp [hx])
    have hv : ∀ x ∈ v, x ∈ w := fun x hx => mem_of_mem_strip (by rw [hw]; simp [hx])
    exact ⟨iha (fun h => hs (hu _ h)) fun h => ha (hu _ h),
      ihb (fun h => hs (hv _ h)) fun h => ha (hv _ h)⟩

theorem Reads.serial {w : Bytes} {t : Command} (h : Reads w t) (ha : ampersand ∉ w) : Serial t := by
  induction h with
  | nop | exit | cd | exec => trivial
  | @back w u c hw =>
    have hmem : ampersand ∈ strip space w := by simp [hw]
    exact ha (mem_of_mem_strip hmem)
  | @list w u v a b hw hu _ _ hra _ _ ihb =>
    have hwu : ∀ x ∈ u, x ∈ w := fun x hx => mem_of_mem_strip (by rw [hw]; simp [hx])
    have hwv : ∀ x ∈ v, x ∈ w := fun x hx => mem_of_mem_strip (by rw [hw]; simp [hx])
    exact ⟨Reads.flat hra hu fun h => ha (hwu _ h), ihb fun h => ha (hwv _ h)⟩
  | @pipe w u v a b hw _ hs _ _ hra hrb =>
    have hu : ∀ x ∈ u, x ∈ strip space w := fun x hx => by rw [hw]; simp [hx]
    have hv : ∀ x ∈ v, x ∈ strip space w := fun x hx => by rw [hw]; simp [hx]
    exact ⟨Reads.flat hra (fun h => hs (hu _ h)) fun h => ha (mem_of_mem_strip (hu _ h)),
      Reads.flat hrb (fun h => hs (hv _ h)) fun h => ha (mem_of_mem_strip (hv _ h))⟩

/-- The places of the programs of a flat piece at `addr`. -/
def Under (addr tag : Addr) : Prop := ∃ δ, tag = addr ++ δ ∧ ∀ x ∈ δ, x = .left ∨ x = .right

theorem within_of_simple_nil {t : Command} (h : t.simple = []) :
    ∀ {addr : Addr} {k : Bool → Prog Addr}, (∀ v, Within T (k v)) → Within T (t.prog addr k) := by
  induction t with
  | nop => exact fun hk => hk true
  | exit => exact fun hk => hk false
  | cd path => exact fun hk => hk true
  | back c ih => exact fun hk => ⟨ih h fun _ => hk true, hk true⟩
  | list a b iha ihb =>
    have hab := List.append_eq_nil_iff.mp h
    intro addr k hk
    exact ⟨iha hab.1 fun _ => trivial, ihb hab.2 fun _ => hk true⟩
  | pipe a b iha ihb =>
    have hab := List.append_eq_nil_iff.mp h
    intro addr k hk
    exact ⟨fun _ _ => ⟨iha hab.1 fun _ => trivial, ihb hab.2 fun _ => trivial⟩, hk true⟩
  | exec argv => cases h
  | blank => exact fun _ => trivial

theorem Under.append {x : Side} (hx : x = .left ∨ x = .right) {tag : Addr}
    (h : Under (addr ++ [x]) tag) : Under addr tag := by
  obtain ⟨δ, rfl, hδ⟩ := h
  exact ⟨x :: δ, by simp, by simpa [hx] using hδ⟩

theorem within_of_flat {t : Command} (h : Flat t) :
    ∀ {addr : Addr} {k : Bool → Prog Addr}, (∀ v, Within (Under addr) (k v)) →
      Within (Under addr) (t.prog addr k) := by
  induction t with
  | nop => exact fun hk => hk true
  | exit => exact fun hk => hk false
  | cd path => exact fun hk => hk true
  | back c => exact h.elim
  | list a b => exact h.elim
  | pipe a b iha ihb =>
    intro addr k hk
    refine ⟨fun _ _ => ⟨?_, ?_⟩, hk true⟩
    · exact Within.mono (fun _ => Under.append (.inl rfl)) (iha h.1 fun _ => trivial)
    · exact Within.mono (fun _ => Under.append (.inr rfl)) (ihb h.2 fun _ => trivial)
  | exec argv =>
    intro addr k hk
    simp only [Command.prog]
    split
    · exact ⟨⟨⟨[], by simp, by simp⟩, hk true⟩, hk true⟩
    · trivial
  | blank => exact fun _ => trivial

theorem getElem?_of_prefix {α l : Addr} {x : Side} (h : α ++ [x] <+: l) : l[α.length]? = some x := by
  obtain ⟨rest, rfl⟩ := h
  simp

/-- No two programs of a flat piece are on the two sides of a `;`. -/
theorem not_before_of_under {γ β : Addr} (hγ : Under addr γ) (hβ : Under addr β) :
    ¬ Before γ β := by
  rintro ⟨α, hb, ha⟩
  obtain ⟨δ, rfl, hδ⟩ := hγ
  obtain ⟨ε, rfl, hε⟩ := hβ
  have hb := getElem?_of_prefix hb
  have ha := getElem?_of_prefix ha
  rcases Nat.lt_or_ge α.length addr.length with hlt | hge
  · rw [List.getElem?_append_left hlt] at hb ha
    rw [hb] at ha
    cases ha
  · rw [List.getElem?_append_right hge] at hb
    rcases hδ _ (List.mem_of_getElem? hb) with h | h <;> cases h

end trees

section table
variable {o : Outcomes Addr} {s s' : Table Addr} {i q : Nat}

/-- Process `i`, with this parent, is about to make these calls. -/
def At (s : Table Addr) (parent : Option Nat) (i : Nat) (p : Prog Addr) : Prop :=
  ∃ P, s[i]? = some P ∧ P.parent = parent ∧ P.status = .run p

/-- All children of `q` are reaped, up to the one that is named. -/
def Kids (s : Table Addr) (q : Nat) (c : Option Nat) : Prop :=
  ∀ j P, s[j]? = some P → P.parent = some q → some j ≠ c → P.status.isReaped = true

/-- A process that is not a zombie keeps its status while others take steps, and its
parent while that does not. -/
theorem step_status (h : Step o s i s') {j : Nat} {P : Process Addr} (hji : j ≠ i)
    (hj : s[j]? = some P) (hz : P.status ≠ .zombie) :
    ∃ P', s'[j]? = some P' ∧ P'.status = P.status ∧ (P.parent ≠ some i → P'.parent = P.parent) := by
  have hlt := Nat.lt_of_lt_of_le (lt_of_getElem? hj) h.length_le
  obtain ⟨P', hP'⟩ : ∃ P', s'[j]? = some P' := ⟨s'[j], List.getElem?_eq_getElem hlt⟩
  refine ⟨P', hP', ?_⟩
  rcases h.origin hP' with ⟨_, P₁, hP₁, hp⟩ | ⟨h, _⟩ | ⟨_, _, _, _, _, _, _, _, h⟩
  · rw [hj] at hP₁
    cases hP₁
    cases hp with
    | same => exact ⟨rfl, fun _ => rfl⟩
    | orphan => exact ⟨rfl, fun h => absurd rfl h⟩
    | reaped => exact absurd rfl hz
  · exact absurd h hji
  · exact absurd (lt_of_getElem? hj) (by omega)

theorem At.step {j : Nat} {parent : Option Nat} {p : Prog Addr} (h : At s parent j p) (hji : j ≠ i)
    (hpi : parent ≠ some i) (hs : Step o s i s') : At s' parent j p := by
  obtain ⟨P, hP, hpar, hst⟩ := h
  obtain ⟨P', hP', hst', hpar'⟩ := step_status hs hji hP (by rw [hst]; exact fun h => by cases h)
  exact ⟨P', hP', (hpar' (hpar.symm ▸ hpi)).trans hpar, hst'.trans hst⟩

/-- A process gets no child by the steps of others, and reaped ones stay so. -/
theorem Kids.step {c : Option Nat} (h : Kids s q c) (hqi : q ≠ i) (hs : Step o s i s') :
    Kids s' q c := by
  intro j P' hj hpar hc
  rcases hs.origin hj with ⟨_, P, hP, hp⟩ | ⟨rfl, P, hP, ha⟩ |
    ⟨parent, scope, f, scope', c', n, hP, rfl, rfl⟩
  · cases hp with
    | same => exact h j _ hP hpar hc
    | orphan => cases hpar
    | reaped => rfl
  · cases ha with
    | call hl => cases h j _ hP hpar hc
    | forked => cases h j _ hP hpar hc
    | waited => cases h j _ hP hpar hc
    | @ended _ _ _ st hends =>
      have hr : st.isReaped = true := h j _ hP hpar hc
      cases st with
      | reaped => cases hends
      | _ => cases hr
  · exact absurd (Option.some.inj hpar).symm hqi

theorem step_wait {parent : Option Nat} {n : Prog Addr} (hw : At s parent q (.wait n))
    (hs : Step o s q s') : At s' parent q n := by
  obtain ⟨⟨_, scope, f, st⟩, hq, rfl, rfl⟩ := hw
  rcases hs.of_wait hq with ⟨z, scope', f', hzq, hz, rfl⟩ | ⟨_, rfl⟩
  · refine ⟨⟨_, scope, f, .run n⟩, ?_, rfl, rfl⟩
    rw [List.getElem?_set_ne hzq, set_self hq]
  · exact ⟨_, set_self hq, rfl, rfl⟩

/-- A `wait` that comes back leaves no child that is not reaped: the one there may have
been had ended before. -/
theorem step_wait_kids {parent : Option Nat} {n : Prog Addr} {c : Nat} (hw : At s parent q (.wait n))
    (h : Kids s q (some c)) (ord : Ordered s) (hs : Step o s q s') : Kids s' q none ∧
      ∀ C, s[c]? = some C → C.parent = some q → C.status = .zombie ∨ C.status.isReaped = true := by
  obtain ⟨⟨_, scope, f, st⟩, hq, rfl, rfl⟩ := hw
  have hself := fun e => Nat.lt_irrefl q (ord q _ hq q e)
  rcases hs.of_wait hq with ⟨z, scope', f', hzq, hz, rfl⟩ | ⟨hnone, rfl⟩
  · have hzc : z = c := by
      by_contra hne
      cases h z _ hz rfl fun e => hne (Option.some.inj e)
    subst hzc
    refine ⟨fun j P hj hpar _ => ?_, fun C hC _ => .inl ?_⟩
    · rcases getElem?_set_cases hj with ⟨_, rfl, _⟩ | ⟨hjz, hj⟩
      · rfl
      · rcases getElem?_set_cases hj with ⟨_, rfl, _⟩ | ⟨_, hj⟩
        · exact absurd hpar hself
        · exact h j P hj hpar fun e => hjz (Option.some.inj e)
    · rw [hz] at hC
      cases hC
      rfl
  · refine ⟨fun j P hj hpar _ => ?_, fun C hC hpar => .inr (hnone C (List.mem_of_getElem? hC) hpar)⟩
    rcases getElem?_set_cases hj with ⟨_, rfl, _⟩ | ⟨_, hj⟩
    · exact absurd hpar hself
    · exact hnone P (List.mem_of_getElem? hj) hpar

/-- A `fork` makes one child or, where processes are scarce, none. -/
theorem step_fork {parent : Option Nat} {scope' : Addr} {c n : Prog Addr}
    (hf : At s parent q (.fork scope' c n)) (hs : Step o s q s') : At s' parent q n ∧
      (s'.length = s.length ∨ s'.length = s.length + 1 ∧ At s' (some q) s.length c) := by
  obtain ⟨⟨_, scope, f, st⟩, hq, rfl, rfl⟩ := hf
  have hlt := lt_of_getElem? hq
  rcases hs.of_fork hq with rfl | rfl
  · exact ⟨⟨_, set_self hq, rfl, rfl⟩, .inl (by simp)⟩
  · refine ⟨⟨⟨_, scope, f, .run n⟩, ?_, rfl, rfl⟩, .inr ⟨by simp, ⟨_, scope', f, .run c⟩, ?_, rfl, rfl⟩⟩
    · rw [List.getElem?_append_left (by simpa using hlt), List.getElem?_set_self hlt]
    · rw [List.getElem?_append_right (by simp)]
      simp

/-- A step of the process itself may give it one child, the new last entry. -/
theorem Kids.step_self (h : Kids s q none) (ord : Ordered s) (hs : Step o s q s') :
    Kids s' q (some s.length) := by
  intro j P' hj hpar hc
  rcases hs.origin hj with ⟨_, P, hP, hp⟩ | ⟨rfl, P, hP, ha⟩ | ⟨_, _, _, _, _, _, _, _, rfl⟩
  · cases hp with
    | same => exact h j _ hP hpar (by simp)
    | orphan => cases hpar
    | reaped => rfl
  · exact absurd hpar fun e => Nat.lt_irrefl j
      (ord.reach (Run.nil.snoc hs) j P' hj j e)
  · exact absurd rfl hc

end table

section stages
variable {o : Outcomes Addr} {idle : Prop} {s s' : Table Addr} {i : Nat}

/-- The processes outside `X` have no program of the line to execute. -/
def Quiet (X : Nat → Prop) (s : Table Addr) : Prop := ∀ j P, s[j]? = some P → ¬ X j → Inert P

theorem Quiet.step {X : Nat → Prop} (h : Quiet X s) (hi : ¬ X i) (hs : Step o s i s') :
    Quiet X s' := step_confined h hi hs

/-- A process of `X` takes a step: what it may fork is in `X` or has no program. -/
theorem Quiet.step_self {X : Nat → Prop} (h : Quiet X s) (hX : X i)
    (hfork : ∀ scope c n parent, At s parent i (.fork scope c n) →
      X s.length ∨ Within (fun _ => False) c) (hs : Step o s i s') : Quiet X s' := by
  intro j P' hj hXj
  rcases hs.origin hj with ⟨_, P, hP, hp⟩ | ⟨rfl, _⟩ | ⟨parent, scope, f, scope', c, n, hP, rfl, rfl⟩
  · exact (h j P hP hXj).passive hp
  · exact absurd hX hXj
  · exact (hfork scope' c n parent ⟨_, hP, rfl, rfl⟩).resolve_left hXj

theorem Quiet.drop {X Y : Nat → Prop} (h : Quiet Y s)
    (hXY : ∀ j P, s[j]? = some P → Y j → ¬ X j → Inert P) : Quiet X s := by
  intro j P hj hX
  by_cases hY : Y j
  · exact hXY j P hj hY hX
  · exact h j P hj hY

theorem At.unique {parent parent' : Option Nat} {p p' : Prog Addr} (h : At s parent i p)
    (h' : At s parent' i p') : p = p' := by
  obtain ⟨P, hP, _, hst⟩ := h
  obtain ⟨P', hP', _, hst'⟩ := h'
  rw [hP] at hP'
  cases hP'
  rw [hst] at hst'
  cases hst'
  rfl

/-- The rest of the line that the shell has before it. -/
structure Rest (idle : Prop) (b : Command) (k : Bool → Prog Addr) : Prop where
  serial : Serial b
  orderly : Orderly idle b
  behind : ∀ v, Within (fun _ => False) (k v)

/-- From here on all programs are of one piece. -/
def Last (s : Table Addr) : Prop := ∃ addr, ∀ P ∈ s, Confined (Under addr) P

/-- The shell is about to fork for a piece with more behind it. -/
def Ready (idle : Prop) (s : Table Addr) : Prop :=
  ∃ a b addr k, At s none 0 ((Command.list a b).prog addr k) ∧
    (a.simple = [] ∨ idle ∧ ∃ argv, a = .exec argv) ∧ Rest idle b (fun _ => k true) ∧
    Quiet (· = 0) s ∧ (idle → Kids s 0 none)

/-- The shell waits, and no program is running or to be run by others. -/
def Waiting (idle : Prop) (s : Table Addr) : Prop :=
  ∃ b addr k, At s none 0 (.wait (b.prog addr k)) ∧ Rest idle b k ∧ Quiet (· = 0) s ∧
    (idle → ∃ c, Kids s 0 (some c))

/-- What the child of a simple command does: fork the program, and wait for it. -/
def Starting (s : Table Addr) (c : Nat) : Prop :=
  (∃ scope tag argv, At s (some 0) c (.fork scope (.exec tag argv (.wait .exit)) (.wait .exit))) ∧
    Quiet (fun j => j = 0 ∨ j = c) s ∧ Kids s c none

/-- The process of a program that its parent waits for. -/
def Program (q : Nat) (G : Process Addr) : Prop :=
  G.parent = some q ∧
    ((∃ tag argv, G.status = .run (.exec tag argv (.wait .exit))) ∨ ∃ tag, G.status = .program tag)

def Started (s : Table Addr) (c : Nat) : Prop :=
  ∃ g, g ≠ 0 ∧ g ≠ c ∧ At s (some 0) c (.wait .exit) ∧ Quiet (fun j => j = 0 ∨ j = c ∨ j = g) s ∧
    Kids s c (some g) ∧ ∀ G, s[g]? = some G → Inert G ∨ Program c G

/-- The shell waits for a simple command, its only child. -/
def Running (idle : Prop) (s : Table Addr) : Prop :=
  ∃ b addr k c, At s none 0 (.wait (b.prog addr k)) ∧ Rest idle b k ∧ c ≠ 0 ∧ Kids s 0 (some c) ∧
    (Starting s c ∨ Started s c)

/-- The shell runs the line from one of its pieces on, with all programs before it at an end. -/
theorem enter {b : Command} {addr : Addr} {k : Bool → Prog Addr} (hat : At s none 0 (b.prog addr k))
    (rest : Rest idle b k) (quiet : Quiet (· = 0) s) (kids : idle → Kids s 0 none) :
    Last s ∨ Ready idle s := by
  obtain ⟨serial, orderly, behind⟩ := rest
  have last : ∀ addr', Within (Under addr') (b.prog addr k) → Last s := by
    intro addr' hw
    refine ⟨addr', fun P hP => ?_⟩
    obtain ⟨j, hj⟩ := List.mem_iff_getElem?.mp hP
    by_cases h0 : j = 0
    · subst h0
      obtain ⟨P₀, hP₀, _, hst⟩ := hat
      rw [hP₀] at hj
      cases hj
      rw [Confined, hst]
      exact hw
    · exact (quiet j P hj h0).confined
  have hk : ∀ {T : Addr → Prop} v, Within T (k v) := fun v =>
    Within.mono (T := fun _ => False) (fun _ hf => hf.elim) (behind v)
  match b, serial, orderly with
  | .list a b, serial, orderly =>
    rcases orderly with hb | ⟨ha, hb⟩
    · refine .inl (last (addr ++ [.before]) ⟨within_of_flat serial.1 (k := fun _ => .exit) fun _ => trivial, ?_⟩)
      exact within_of_simple_nil hb fun _ => hk true
    · exact .inr ⟨a, b, addr, k, hat, ha, ⟨serial.2, hb, fun _ => behind true⟩, quiet, kids⟩
  | .nop, h, _ | .exit, h, _ | .cd _, h, _ | .back _, h, _ | .pipe _ _, h, _ | .exec _, h, _
  | .blank, h, _ => exact .inl (last addr (within_of_flat h hk))

theorem Quiet.widen {X Y : Nat → Prop} (h : Quiet X s) (hXY : ∀ j, X j → Y j) : Quiet Y s :=
  fun j P hj hY => h j P hj fun hX => hY (hXY j hX)

/-- The youngest process has no children. -/
theorem kids_youngest {c : Nat} (ord : Ordered s) (hlen : s.length = c + 1) : Kids s c none := by
  intro j P hj hpar _
  have hlt := ord j P hj c hpar
  have hjl := lt_of_getElem? hj
  omega

theorem Ready.step (h : Ready idle s) (ord : Ordered s) (hs : Step o s i s') :
    Ready idle s' ∨ Waiting idle s' ∨ Running idle s' := by
  obtain ⟨a, b, addr, k, hat, ha, rest, quiet, kids⟩ := h
  have ord' : Ordered s' := ord.reach (Run.nil.snoc hs)
  by_cases hi : i = 0
  · subst hi
    right
    obtain ⟨hat', hchild⟩ := step_fork hat hs
    have kids' : idle → Kids s' 0 (some s.length) := fun hidle => (kids hidle).step_self ord hs
    by_cases hw : Within (fun _ => False) (a.prog (addr ++ [.before]) fun _ => .exit)
    · have quiet' : Quiet (· = 0) s' := quiet.step_self rfl
        (fun _ _ _ _ hf => by cases hat.unique hf; exact .inr hw) hs
      exact .inl ⟨b, _, _, hat', rest, quiet', fun hidle => ⟨_, kids' hidle⟩⟩
    · -- a piece with a program: a simple command, of an idle shell
      obtain ⟨hidle, argv, rfl⟩ : idle ∧ ∃ argv, a = .exec argv :=
        ha.resolve_left fun h0 => hw (within_of_simple_nil h0 fun _ => trivial)
      have hroom : argv.length < maxArgs := by
        by_contra hno
        rw [Command.prog, if_neg hno] at hw
        exact hw trivial
      rw [Command.prog, if_pos hroom] at hchild
      have hpos : 0 < s.length := by
        obtain ⟨P, hP, _⟩ := hat
        exact lt_of_getElem? hP
      have quiet' : Quiet (fun j => j = 0 ∨ j = s.length) s' :=
        (quiet.widen fun _ => .inl).step_self (.inl rfl) (fun _ _ _ _ _ => .inl (.inr rfl)) hs
      rcases hchild with hlen | ⟨hlen, hc⟩
      · refine .inl ⟨b, _, _, hat', rest, quiet'.drop fun j P hj hY hX => ?_, fun _ => ⟨_, kids' hidle⟩⟩
        have hjl := lt_of_getElem? hj
        omega
      · exact .inr ⟨b, _, _, s.length, hat', rest, by omega, kids' hidle,
          .inl ⟨⟨_, _, _, hc⟩, quiet', kids_youngest ord' hlen⟩⟩
  · exact .inl ⟨a, b, addr, k, hat.step (Ne.symm hi) (by simp) hs, ha, rest, quiet.step hi hs,
      fun hidle => (kids hidle).step (Ne.symm hi) hs⟩

theorem Waiting.step (h : Waiting idle s) (ord : Ordered s) (hs : Step o s i s') :
    Waiting idle s' ∨ Last s' ∨ Ready idle s' := by
  obtain ⟨b, addr, k, hat, rest, quiet, kids⟩ := h
  by_cases hi : i = 0
  · subst hi
    refine .inr (enter (step_wait hat hs) rest ?_ ?_)
    · exact quiet.step_self rfl (fun _ _ _ _ hf => by cases hat.unique hf) hs
    · intro hidle
      obtain ⟨c, hc⟩ := kids hidle
      exact (step_wait_kids hat hc ord hs).1
  · refine .inl ⟨b, addr, k, hat.step (Ne.symm hi) (by simp) hs, rest, quiet.step hi hs, ?_⟩
    intro hidle
    obtain ⟨c, hc⟩ := kids hidle
    exact ⟨c, hc.step (Ne.symm hi) hs⟩

/-- The child of a simple command forks the program. -/
theorem Starting.step {c : Nat} (h : Starting s c) (hc : c ≠ 0) (hi : i ≠ 0) (ord : Ordered s)
    (hs : Step o s i s') : Starting s' c ∨ Started s' c := by
  obtain ⟨⟨scope, tag, argv, hat⟩, quiet, kids⟩ := h
  by_cases hic : i = c
  · subst hic
    right
    obtain ⟨hat', hchild⟩ := step_fork hat hs
    have hlt : i < s.length := by
      obtain ⟨P, hP, _⟩ := hat
      exact lt_of_getElem? hP
    have quiet' : Quiet (fun j => j = 0 ∨ j = i ∨ j = s.length) s' :=
      (quiet.widen (Y := fun j => j = 0 ∨ j = i ∨ j = s.length) fun j => by omega).step_self
        (.inr (.inl rfl)) (fun _ _ _ _ _ => .inl (.inr (.inr rfl))) hs
    refine ⟨s.length, by omega, by omega, hat', quiet', kids.step_self ord hs, fun G hG => ?_⟩
    rcases hchild with hlen | ⟨_, P, hP, hpar, hst⟩
    · have hgl := lt_of_getElem? hG
      omega
    · rw [hP] at hG
      cases hG
      exact .inr ⟨hpar, .inl ⟨tag, argv, hst⟩⟩
  · refine .inl ⟨⟨scope, tag, argv, hat.step (Ne.symm hic) ?_ hs⟩, quiet.step ?_ hs,
      kids.step (Ne.symm hic) hs⟩
    · exact fun e => hi (Option.some.inj e).symm
    · omega

/-- The program of a simple command, and the process that waits for it. -/
theorem Program.acts {q : Nat} {G G' : Process Addr} (h : Program q G) (ha : Acts o G G') :
    Inert G' ∨ Program q G' := by
  obtain ⟨hpar, hst⟩ := h
  cases ha with
  | call hl =>
    rcases hst with ⟨tag, argv, hst⟩ | ⟨tag, hst⟩
    · cases hst
      cases hl with
      | execOk => exact .inr ⟨hpar, .inr ⟨_, rfl⟩⟩
      | execFail => exact .inl trivial
    · cases hst
  | forked => rcases hst with ⟨_, _, hst⟩ | ⟨_, hst⟩ <;> cases hst
  | waited => rcases hst with ⟨_, _, hst⟩ | ⟨_, hst⟩ <;> cases hst
  | ended => exact .inl trivial

theorem Program.not_ended {q : Nat} {G : Process Addr} (h : Program q G) :
    ¬ (G.status = .zombie ∨ G.status.isReaped = true) := by
  rcases h.2 with ⟨tag, argv, hst⟩ | ⟨tag, hst⟩
  · rw [hst]
    rintro (h | h) <;> cases h
  · rw [hst]
    rintro (h | h) <;> cases h

/-- The process that waits for the program goes on when the program has ended. -/
theorem Started.step {c : Nat} (h : Started s c) (hc : c ≠ 0) (hi : i ≠ 0) (ord : Ordered s)
    (hs : Step o s i s') : Started s' c ∨ Quiet (· = 0) s' := by
  obtain ⟨g, hg0, hgc, hat, quiet, kids, hG⟩ := h
  by_cases hic : i = c
  · subst hic
    right
    have hended := (step_wait_kids hat kids ord hs).2
    have quiet₁ : Quiet (fun j => j = 0 ∨ j = i) s := by
      refine quiet.drop fun j P hj hY hX => ?_
      obtain rfl : j = g := by omega
      refine (hG P hj).resolve_right fun hp => hp.not_ended (hended P hj hp.1)
    have quiet₂ : Quiet (fun j => j = 0 ∨ j = i) s' :=
      quiet₁.step_self (.inr rfl) (fun _ _ _ _ hf => by cases hat.unique hf) hs
    refine quiet₂.drop fun j P hj hY hX => ?_
    obtain rfl : j = i := by omega
    obtain ⟨P', hP', _, hst⟩ := step_wait hat hs
    rw [hP'] at hj
    cases hj
    rw [Inert, Confined, hst]
    trivial
  · left
    have hat' := hat.step (Ne.symm hic) (fun e => hi (Option.some.inj e).symm) hs
    have kids' := kids.step (Ne.symm hic) hs
    by_cases hig : i = g
    · subst hig
      refine ⟨i, hg0, hgc, hat', quiet.step_self (.inr (.inr rfl)) ?_ hs, kids', fun G' hG' => ?_⟩
      · rintro scope c' n parent ⟨P, hP, _, hst⟩
        rcases hG P hP with hin | ⟨_, ⟨_, _, hst'⟩ | ⟨_, hst'⟩⟩
        · rw [Inert, Confined, hst] at hin
          exact .inr hin.1
        · rw [hst] at hst'
          cases hst'
        · rw [hst] at hst'
          cases hst'
      · rcases hs.origin hG' with ⟨h, _⟩ | ⟨_, G, hP, ha⟩ | ⟨_, _, _, _, _, _, hP, _, hlen⟩
        · exact absurd rfl h
        · rcases hG G hP with hin | hpr
          · exact .inl (hin.acts ha)
          · exact hpr.acts ha
        · exact absurd (lt_of_getElem? hP) (by omega)
    · refine ⟨g, hg0, hgc, hat', quiet.step (by omega) hs, kids', fun G' hG' => ?_⟩
      rcases hs.origin hG' with ⟨_, G, hP, hp⟩ | ⟨h, _⟩ | ⟨_, _, _, _, _, _, hP, rfl, _⟩
      · rcases hG G hP with hin | hpr
        · exact .inl (hin.passive hp)
        · cases hp with
          | same => exact .inr hpr
          | orphan => exact absurd (Option.some.inj hpr.1) hic
          | reaped => exact .inl trivial
      · exact absurd h (Ne.symm hig)
      · exact .inl (quiet i _ hP (by omega)).1

/-- The shell does not go on before the simple command has ended. -/
theorem Running.step (h : Running idle s) (ord : Ordered s) (hs : Step o s i s') :
    Running idle s' ∨ Waiting idle s' := by
  obtain ⟨b, addr, k, c, hat, rest, hc, kids, stage⟩ := h
  have hi : i ≠ 0 := by
    rintro rfl
    have hended := (step_wait_kids hat kids ord hs).2
    have hrun : ∃ p, At s (some 0) c p := by
      rcases stage with ⟨⟨_, _, _, hc⟩, _⟩ | ⟨_, _, _, hc, _⟩
      · exact ⟨_, hc⟩
      · exact ⟨_, hc⟩
    obtain ⟨p, C, hC, hpar, hst⟩ := hrun
    rcases hended C hC hpar with h | h
    · rw [hst] at h
      cases h
    · rw [hst] at h
      cases h
  have hat' := hat.step (Ne.symm hi) (by simp) hs
  have kids' := kids.step (Ne.symm hi) hs
  rcases stage with starting | started
  · exact .inl ⟨b, addr, k, c, hat', rest, hc, kids', starting.step hc hi ord hs⟩
  · rcases started.step hc hi ord hs with started | quiet
    · exact .inl ⟨b, addr, k, c, hat', rest, hc, kids', .inr started⟩
    · exact .inr ⟨b, addr, k, hat', rest, quiet, fun _ => ⟨c, kids'⟩⟩

theorem Last.step (h : Last s) (hs : Step o s i s') : Last s' := by
  obtain ⟨addr, h⟩ := h
  refine ⟨addr, fun P hP => ?_⟩
  obtain ⟨j, hj⟩ := List.mem_iff_getElem?.mp hP
  exact step_confined (X := fun _ => False) (fun j P hj _ => h P (List.mem_of_getElem? hj)) id hs
    j P hj id

/-- Where the shell is with an orderly line. -/
def Stage (idle : Prop) (s : Table Addr) : Prop :=
  Last s ∨ Ready idle s ∨ Waiting idle s ∨ Running idle s

theorem Stage.step (h : Stage idle s) (ord : Ordered s) (hs : Step o s i s') : Stage idle s' := by
  rcases h with h | h | h | h
  · exact .inl (h.step hs)
  · exact .inr (h.step ord hs)
  · rcases h.step ord hs with h | h | h
    · exact .inr (.inr (.inl h))
    · exact .inl h
    · exact .inr (.inl h)
  · rcases h.step ord hs with h | h
    · exact .inr (.inr (.inr h))
    · exact .inr (.inr (.inl h))

end stages

section overlap
variable {idle : Prop} {s : Table Addr}

theorem Quiet.no_program {X : Nat → Prop} (h : Quiet X s) {j : Nat} {P : Process Addr}
    (hj : s[j]? = some P) {γ : Addr} (hst : P.status = .program (some γ)) : X j := by
  by_contra hX
  have hin := h j P hj hX
  rw [Inert, Confined, hst] at hin
  exact hin

theorem Quiet.no_exec {X : Nat → Prop} (h : Quiet X s) {j : Nat} {P : Process Addr}
    (hj : s[j]? = some P) {β : Addr} {argv : List Bytes} {n : Prog Addr}
    (hst : P.status = .run (.exec β argv n)) : X j := by
  by_contra hX
  have hin := h j P hj hX
  rw [Inert, Confined, hst] at hin
  exact hin.1

theorem At.not_program {parent : Option Nat} {p : Prog Addr} {i : Nat} (h : At s parent i p)
    {P : Process Addr} (hP : s[i]? = some P) {γ : Addr} : P.status ≠ .program (some γ) := by
  obtain ⟨P', hP', _, hst⟩ := h
  rw [hP] at hP'
  cases hP'
  rw [hst]
  exact fun h => by cases h

theorem Stage.no_overlap (h : Stage idle s) : ¬ Overlap s := by
  rintro ⟨P, hP, P', hP', γ, β, argv, n, hst, hst', hbefore⟩
  obtain ⟨j, hj⟩ := List.mem_iff_getElem?.mp hP
  obtain ⟨j', hj'⟩ := List.mem_iff_getElem?.mp hP'
  rcases h with ⟨addr, h⟩ | ⟨a, b, addr, k, hat, _, _, quiet, _⟩ | ⟨b, addr, k, hat, _, quiet, _⟩ |
    ⟨b, addr, k, c, hat, _, hc, _, ⟨⟨_, _, _, hatc⟩, quiet, _⟩ | ⟨g, _, _, hatc, quiet, _⟩⟩
  · have hγ := h P hP
    have hβ := h P' hP'
    rw [Confined, hst] at hγ
    rw [Confined, hst'] at hβ
    exact not_before_of_under hγ hβ.1 hbefore
  · obtain rfl := quiet.no_program hj hst
    exact hat.not_program hj hst
  · obtain rfl := quiet.no_program hj hst
    exact hat.not_program hj hst
  · rcases quiet.no_program hj hst with rfl | rfl
    · exact hat.not_program hj hst
    · exact hatc.not_program hj hst
  · -- only the process of the program is left, and it is in one of the two statuses
    rcases quiet.no_program hj hst with rfl | rfl | rfl
    · exact hat.not_program hj hst
    · exact hatc.not_program hj hst
    · rcases quiet.no_exec hj' hst' with rfl | rfl | rfl
      · cases hat.unique ⟨P', hj', rfl, hst'⟩
      · cases hatc.unique ⟨P', hj', rfl, hst'⟩
      · rw [hj] at hj'
        cases hj'
        rw [hst] at hst'
        cases hst'

end overlap

/-- An orderly line without `&` runs its programs in order, among any processes that
earlier lines have left, in every interleaving and whichever calls fail. -/
theorem serial_order (o : Outcomes Addr) (l : Line) (bg : Table Addr)
    (background : ∀ P ∈ bg, Background P) (foreground : ampersand ∉ l.bytes)
    (orderly : Orderly (bg = []) (Command.ofLine l.bytes)) (tr : List Nat) (s : Table Addr)
    (run : Reach o (l.shell :: bg) tr s) : ¬ Overlap s := by
  have ord : Ordered (l.shell :: bg) := by
    intro j P hj q hq
    cases j with
    | zero =>
      cases hj
      cases hq
    | succ j =>
      rw [(background P (List.mem_of_getElem? hj)).1] at hq
      cases hq
      omega
  have serial : Serial (Command.ofLine l.bytes) := by
    by_cases hb : Blank space l.bytes
    · rw [Command.ofLine_eq hb.1, strip_eq_nil_iff.mpr hb.2]
      trivial
    · exact Reads.serial (reads_ofLine hb) foreground
  have hat : At (l.shell :: bg) none 0 ((Command.ofLine l.bytes).prog [] .ret) :=
    ⟨l.shell, rfl, rfl, by rw [Line.shell, Line.run_eq]⟩
  have quiet : Quiet (· = 0) (l.shell :: bg) := by
    intro j P hj h0
    cases j with
    | zero => exact absurd rfl h0
    | succ j =>
      rcases (background P (List.mem_of_getElem? hj)).2 with h | h
      · rw [Inert, Confined, h]
        trivial
      · rw [Inert, Confined, h]
        trivial
  have kids : bg = [] → Kids (l.shell :: bg) 0 none := by
    rintro rfl j P hj hpar _
    rw [List.mem_singleton.mp (List.mem_of_getElem? hj)] at hpar
    cases hpar
  have start : Stage (bg = []) (l.shell :: bg) := by
    rcases enter hat ⟨serial, orderly, fun _ => trivial⟩ quiet kids with h | h
    · exact .inl h
    · exact .inr (.inl h)
  have inv := Run.invariant (I := fun s => Ordered s ∧ Stage (bg = []) s) ⟨ord, start⟩
    (fun s i s' h hs => ⟨h.1.reach (Run.nil.snoc hs), h.2.step h.1 hs⟩) run
  exact inv.2.no_overlap

/-- The line `a;b`. -/
def aThenB : Line := ⟨Ulib.literal ['a', ';', 'b'], by decide, by decide⟩

/-- The line `a|b;c`. -/
def pipeThenC : Line := ⟨Ulib.literal ['a', '|', 'b', ';', 'c'], by decide, by decide⟩

theorem shell_eq (l : Line) : l.shell =
    ⟨none, [], Line.consoles, .run ((Command.ofLine l.bytes).prog [] .ret)⟩ := by
  rw [Line.shell, Line.run_eq]

/-- `a` runs and ends, is waited for, and the shell forks for `b`. -/
def inOrder : List (Nat × Choice) :=
  [(0, .go), (1, .go), (2, .go), (2, .go), (1, .reap 2), (1, .go), (0, .reap 1), (0, .go)]

theorem serial_order_simple_command :
    ∃ s, Reach anyExec [aThenB.shell] (inOrder.map Prod.fst) s ∧ ¬ Overlap s ∧
      s[3]?.map Process.status = some (.run (.exec [.after] [['b'.toUInt8]] (.wait (.ret true)))) := by
  have hrun : ∃ s, perform [aThenB.shell] inOrder = some s ∧ s[3]?.map Process.status =
      some (.run (.exec [.after] [['b'.toUInt8]] (.wait (.ret true)))) := by
    rw [shell_eq]
    exact ⟨_, rfl, rfl⟩
  obtain ⟨s, hs, hlast⟩ := hrun
  have run := perform_reach hs
  refine ⟨s, run, ?_, hlast⟩
  exact serial_order anyExec aThenB [] (by simp) (by decide)
    (.inr ⟨.inr ⟨rfl, _, rfl⟩, trivial⟩) _ s run

/-- `a` and `b` are started; `b` ends and the processes around it, but not `a`. -/
def leftSideLast : List (Nat × Choice) :=
  [(0, .go), (1, .go), (2, .go), (2, .go),
    (3, .go), (3, .go), (3, .go), (3, .go), (3, .go), (4, .go),
    (2, .go), (2, .go), (2, .go), (2, .go), (2, .go), (5, .go),
    (5, .go), (2, .reap 5), (2, .go), (1, .reap 2), (1, .go), (0, .reap 1), (0, .go)]

/-- A child of an earlier line that has ended. -/
def ended : Process Addr := ⟨some 0, [.back], List.replicate NOFILE none, .zombie⟩

/-- `a` is started, and the `wait` for it takes the other child. -/
def otherChild : List (Nat × Choice) :=
  [(0, .go), (2, .go), (3, .go), (0, .reap 1), (0, .go)]

theorem pipeline_and_other_child_overlap :
    (∃ s, Reach anyExec [pipeThenC.shell] (leftSideLast.map Prod.fst) s ∧ Overlap s) ∧
      ∃ s, Reach anyExec [aThenB.shell, ended] (otherChild.map Prod.fst) s ∧ Overlap s := by
  constructor
  · have hrun : ∃ s, perform [pipeThenC.shell] leftSideLast = some s ∧
        (∃ P, s[4]? = some P ∧ P.status = .program (some [.before, .left])) ∧
        ∃ P, s[6]? = some P ∧ P.status = .run (.exec [.after] [['c'.toUInt8]] (.wait (.ret true))) := by
      rw [shell_eq]
      exact ⟨_, rfl, ⟨_, rfl, rfl⟩, _, rfl, rfl⟩
    obtain ⟨s, hs, ⟨P, hP, hst⟩, P', hP', hst'⟩ := hrun
    exact ⟨s, perform_reach hs, P, List.mem_of_getElem? hP, P', List.mem_of_getElem? hP',
      _, _, _, _, hst, hst', [], by simp, by simp⟩
  · have hrun : ∃ s, perform [aThenB.shell, ended] otherChild = some s ∧
        (∃ P, s[3]? = some P ∧ P.status = .program (some [.before])) ∧
        ∃ P, s[4]? = some P ∧ P.status = .run (.exec [.after] [['b'.toUInt8]] (.wait (.ret true))) := by
      rw [shell_eq]
      exact ⟨_, rfl, ⟨_, rfl, rfl⟩, _, rfl, rfl⟩
    obtain ⟨s, hs, ⟨P, hP, hst⟩, P', hP', hst'⟩ := hrun
    exact ⟨s, perform_reach hs, P, List.mem_of_getElem? hP, P', List.mem_of_getElem? hP',
      _, _, _, _, hst, hst', [], by simp, by simp⟩

end Xv6.Guarantees.SerialOrder
