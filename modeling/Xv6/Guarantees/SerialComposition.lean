import Xv6.Shell.Input

/-!
# A serial line and its pieces as lines of their own

What a line does to the shell itself: its current directory and whether the main loop
goes on. In `a;b` the part `a` runs in a child and only the last piece in the shell,
where the value of `runcmd` is dropped; `cd` takes the rest of its line as the path.
-/
namespace Xv6.Guarantees.SerialComposition

open Xv6.Library.Pieces
open Xv6.Source.Ulib Xv6.Source.Proc Xv6.Source.Ysh
open Xv6.Shell

/-- The part of the shell's state that a line can change. -/
structure State (γ : Type) where
  cwd : γ
  ended : Bool
  deriving DecidableEq

section outcome
variable {γ : Type} (chdir : γ → Bytes → γ)

/-- What the calls of the shell's own process do to it; a fork goes on as the parent.
`chdir` stands for the call, which leaves the directory as it is where it fails. -/
def outcome : Prog Addr → γ → Option (State γ)
  | .ret more, d => some ⟨d, !more⟩
  | .exit, d => some ⟨d, true⟩
  | .fork _ _ n, d | .wait n, d | .close _ n, d | .dup _ n, d => outcome n d
  | .chdir path n, d => outcome n (chdir d path)
  | .exec _ _ _, _ | .pipe _ _, _ | .fault, _ | .spin, _ => none

/-- The state that a line leaves the shell in, if the shell stays in bounds. -/
def runLine (l : Line) (d : γ) : Option (State γ) := outcome chdir (l.run .ret) d

/-- One line and, unless it has ended the shell, a second one. -/
def runLines (a b : Line) (d : γ) : Option (State γ) :=
  (runLine chdir a d).bind fun s => if s.ended then some s else runLine chdir b s.cwd

/-- No piece between semicolons begins with `cd` and a space. -/
def NoCd (a : Bytes) : Prop := ∀ q ∈ a.splitOn semicolon, ¬ cdWord <+: q.dropWhile (· == space)

instance (a : Bytes) : Decidable (NoCd a) := List.decidableBAll _ _

variable {a b : Bytes} {d : γ}

theorem outcome_addr (t : Command) : ∀ (addr addr' : Addr) (k : Bool → Prog Addr),
    outcome chdir (t.prog addr k) d = outcome chdir (t.prog addr' k) d := by
  induction t with
  | nop => exact fun _ _ _ => rfl
  | exit => exact fun _ _ _ => rfl
  | cd path => exact fun _ _ _ => rfl
  | back c => exact fun _ _ _ => rfl
  | list a b _ ihb => exact fun addr addr' k => ihb _ _ _
  | pipe a b => exact fun _ _ _ => rfl
  | exec argv =>
    intro addr addr' k
    simp only [Command.prog]
    split <;> rfl
  | blank => exact fun _ _ _ => rfl

/-- Only `exit` hands another value than `true` to what comes behind. -/
theorem prog_true {t : Command} (ht : t ≠ .exit) (addr : Addr) (k : Bool → Prog Addr) :
    t.prog addr (fun _ => k true) = t.prog addr k := by
  cases t <;> first | rfl | exact absurd rfl ht

/-- A serial line without `cd` ends in its last part. -/
theorem outcome_serial (hcd : NoCd a) (ha : ampersand ∉ a) (hb : ampersand ∉ b) :
    ∀ (addr : Addr) (k : Bool → Prog Addr), ∃ addr',
      outcome chdir ((Command.ofLine (a ++ semicolon :: b)).prog addr k) d =
        outcome chdir ((Command.ofLine (strip space b)).prog addr' fun _ => k true) d := by
  induction hn : a.length using Nat.strong_induction_on generalizing a with
  | _ n ih =>
    subst hn
    intro addr k
    by_cases hs : semicolon ∈ a
    · obtain ⟨u, a', rfl, hu⟩ := List.eq_append_cons_of_mem hs
      rw [NoCd, splitOn_cut hu, List.forall_mem_cons] at hcd
      simp only [List.mem_append, List.mem_cons, not_or] at ha
      have hamp : ampersand ∉ a' ++ semicolon :: b := by
        simp only [List.mem_append, List.mem_cons, not_or]
        exact ⟨ha.2.2, by decide, hb⟩
      have hblank : ¬ Blank space (a' ++ semicolon :: b) :=
        not_blank_of_mem (x := semicolon) (by simp) (by decide)
      rw [List.append_assoc, List.cons_append, Command.ofLine_serial hu hcd.1 hamp,
        Command.ofLine_strip hblank]
      exact ih a'.length (by simp; omega) hcd.2 ha.2.2 rfl (addr ++ [.after]) (fun _ => k true)
    · have hcd' : ¬ cdWord <+: a.dropWhile (· == space) :=
        hcd a (by simp [List.splitOn_eq_singleton hs])
      rw [Command.ofLine_serial hs hcd' hb]
      exact ⟨addr ++ [.after], rfl⟩

/-- A piece that is neither `cd` nor has an operator but `|` does nothing to the shell
but hand on its value. -/
theorem outcome_piece (hs : semicolon ∉ a) (hcd : ¬ cdWord <+: a.dropWhile (· == space))
    (ha : ampersand ∉ a) (addr : Addr) (k : Bool → Prog Addr) :
    outcome chdir ((Command.ofLine a).prog addr k) d = none ∨
      outcome chdir ((Command.ofLine a).prog addr k) d =
        outcome chdir (k (decide (Command.ofLine a ≠ .exit))) d := by
  by_cases hb : Blank space a
  · rw [Command.ofLine_eq hb.1, strip_eq_nil_iff.mpr hb.2]
    exact .inl rfl
  have hreads := reads_ofLine hb
  generalize Command.ofLine a = t at hreads ⊢
  cases hreads with
  | nop => exact .inr rfl
  | exit => exact .inr rfl
  | cd hpath =>
    have hpre : strip space a <+: a.dropWhile (· == space) := List.rdropWhile_prefix _ _
    exact absurd ((List.prefix_append cdWord _).trans (hpath ▸ hpre)) hcd
  | back hw =>
    have hmem : ampersand ∈ strip space a := by simp [hw]
    exact absurd (mem_of_mem_strip hmem) ha
  | list hw =>
    have hmem : semicolon ∈ strip space a := by simp [hw]
    exact absurd (mem_of_mem_strip hmem) hs
  | pipe => exact .inr rfl
  | exec =>
    simp only [Command.prog]
    split
    · exact .inr rfl
    · exact .inl rfl

/-- A line without `cd` does nothing to the shell but hand on its value. -/
theorem outcome_no_cd (hcd : NoCd a) (ha : ampersand ∉ a) :
    ∀ (addr : Addr) (k : Bool → Prog Addr), outcome chdir ((Command.ofLine a).prog addr k) d = none ∨
      outcome chdir ((Command.ofLine a).prog addr k) d =
        outcome chdir (k (decide (Command.ofLine a ≠ .exit))) d := by
  induction hn : a.length using Nat.strong_induction_on generalizing a with
  | _ n ih =>
    subst hn
    intro addr k
    by_cases hs : semicolon ∈ a
    · obtain ⟨u, a', rfl, hu⟩ := List.eq_append_cons_of_mem hs
      rw [NoCd, splitOn_cut hu, List.forall_mem_cons] at hcd
      simp only [List.mem_append, List.mem_cons, not_or] at ha
      rw [Command.ofLine_serial hu hcd.1 ha.2.2]
      by_cases hb : Blank space a'
      · rw [strip_eq_nil_iff.mpr hb.2]
        exact .inr rfl
      · rw [Command.ofLine_strip hb]
        exact ih a'.length (by simp; omega) hcd.2 ha.2.2 rfl (addr ++ [.after]) (fun _ => k true)
    · exact outcome_piece chdir hs (hcd a (by simp [List.splitOn_eq_singleton hs])) ha addr k

theorem ofLine_ne_exit (h : strip space a ≠ exitWord) : Command.ofLine a ≠ .exit := by
  by_cases hb : Blank space a
  · rw [Command.ofLine_eq hb.1, strip_eq_nil_iff.mpr hb.2]
    exact fun h => by cases h
  · intro he
    have hreads := reads_ofLine hb
    rw [he] at hreads
    cases hreads with
    | exit hw => exact h hw

end outcome

/-- Running `a;b` leaves the shell as running `a` and then `b` does, when those run in
bounds: for `a` and `b` without `&` that are not `exit`, with no `cd` piece in `a`. -/
theorem serial_acts_like_lines {γ : Type} (chdir : γ → Bytes → γ) (d : γ) (a b ab : Line)
    (line : ab.bytes = a.bytes ++ semicolon :: b.bytes)
    (ampA : ampersand ∉ a.bytes) (ampB : ampersand ∉ b.bytes) (cd : NoCd a.bytes)
    (exitA : strip space a.bytes ≠ exitWord) (exitB : strip space b.bytes ≠ exitWord)
    (bounds : (runLines chdir a b d).isSome) :
    runLine chdir ab d = runLines chdir a b d := by
  have hvalue : decide (Command.ofLine a.bytes ≠ .exit) = true :=
    decide_eq_true (ofLine_ne_exit exitA)
  have hA : runLine chdir a d = some ⟨d, false⟩ := by
    rcases outcome_no_cd chdir (d := d) cd ampA [] .ret with h | h
    · rw [runLines, runLine, Line.run_eq, h] at bounds
      cases bounds
    · rw [runLine, Line.run_eq, h, hvalue]
      rfl
  have hboth : runLines chdir a b d = runLine chdir b d := by rw [runLines, hA]; rfl
  have hblank : ¬ Blank space b.bytes := by
    intro hb
    rw [hboth, runLine, Line.run_eq, Command.ofLine_eq hb.1, strip_eq_nil_iff.mpr hb.2] at bounds
    cases bounds
  obtain ⟨addr, hab⟩ := outcome_serial chdir (d := d) cd ampA ampB [] .ret
  rw [hboth, runLine, runLine, Line.run_eq, Line.run_eq, line, hab, Command.ofLine_strip hblank,
    prog_true (ofLine_ne_exit exitB), outcome_addr chdir _ addr []]

/-- The directories that the shell has gone to, one after the other. -/
abbrev visit (d : List Bytes) (path : Bytes) : List Bytes := d ++ [path]

def ls : Line := ⟨literal ['l', 's'], by decide, by decide⟩
def cdX : Line := ⟨literal ['c', 'd', ' ', 'x'], by decide, by decide⟩
def exit : Line := ⟨exitWord, by decide, by decide⟩
def lsThenCdX : Line := ⟨ls.bytes ++ semicolon :: cdX.bytes, by decide, by decide⟩
def cdXThenLs : Line := ⟨cdX.bytes ++ semicolon :: ls.bytes, by decide, by decide⟩
def lsThenExit : Line := ⟨ls.bytes ++ semicolon :: exit.bytes, by decide, by decide⟩
def exitThenLs : Line := ⟨exit.bytes ++ semicolon :: ls.bytes, by decide, by decide⟩

theorem serial_acts_like_lines_cd_last :
    runLine visit lsThenCdX [] = runLines visit ls cdX [] ∧
      runLines visit ls cdX [] = some ⟨[['x'.toUInt8]], false⟩ := by
  have hstate : runLines visit ls cdX [] = some ⟨[['x'.toUInt8]], false⟩ := by
    simp only [runLines, runLine, Line.run_eq]
    decide
  refine ⟨serial_acts_like_lines visit [] ls cdX lsThenCdX rfl (by decide) (by decide) (by decide)
    (by decide) (by decide) ?_, hstate⟩
  rw [hstate]
  rfl

/-- With `cd` in front the second part belongs to the path; `exit` in front ends a child
only, and behind the `;` its value is dropped. -/
theorem serial_differs_from_lines :
    runLine visit cdXThenLs [] ≠ runLines visit cdX ls [] ∧
      runLine visit exitThenLs [] ≠ runLines visit exit ls [] ∧
      runLine visit lsThenExit [] ≠ runLines visit ls exit [] := by
  simp only [runLines, runLine, Line.run_eq]
  decide

end Xv6.Guarantees.SerialComposition
