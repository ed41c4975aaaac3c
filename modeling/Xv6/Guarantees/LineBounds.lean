import Xv6.Shell.Input

/-!
# Bounds of the line buffer

Which inputs ysh reads without leaving its line buffer or the `argv` array. Every
round of the main loop takes a part of the input, and every recursive call of
`runcmd` a shorter piece of the line, so that the recursion ends in any case.
-/
namespace Xv6.Guarantees.LineBounds

open Xv6.Library.Pieces
open Xv6.Source.Ulib Xv6.Source.Proc Xv6.Source.Ysh
open Xv6.Shell

/-- Whatever the system calls return, no process comes to an access outside an object
or to the end of its recursion depth. -/
def InBounds {α : Type} : Prog α → Prop
  | .fault | .spin => False
  | .ret _ | .exit => True
  | .fork _ c n => InBounds c ∧ InBounds n
  | .pipe _ n => ∀ r w, InBounds (n r w)
  | .wait n | .exec _ _ n | .chdir _ n | .close _ n | .dup _ n => InBounds n

/-- The strings that `gets` leaves in the buffer, round by round, up to a line that is
`exit` or to the end of what has been typed. -/
def session : Nat → List (Option UInt8) → List Bytes
  | 0, _ => []
  | rounds + 1, input =>
    match rawLine (bufSize - 1) input with
    | none => []
    | some (raw, rest) =>
      text raw :: if Command.ofLine (text raw).dropLast = .exit then [] else session rounds rest

/-- A line that `readcmd` and `runcmd` can handle: there is a byte to chop off, what is
left is empty or has more than spaces, and each simple command in it leaves room in
`argv` for the null pointer. -/
def Manageable (s : Bytes) : Prop :=
  s ≠ [] ∧ ¬ Blank space s.dropLast ∧
    ∀ argv ∈ (Command.ofLine s.dropLast).simple, argv.length < maxArgs

instance (s : Bytes) : Decidable (Manageable s) :=
  inferInstanceAs (Decidable (_ ∧ _ ∧ _))

/-- The calls that run a command are in bounds when the command fits and what comes
behind it is in bounds. -/
theorem inBounds_prog (t : Command) : ∀ (addr : Addr) (k : Bool → Prog Addr),
    InBounds (t.prog addr k) ↔ t.Fits ∧ InBounds (k (decide (t ≠ .exit))) := by
  induction t with
  | nop => simp [Command.prog, Command.Fits]
  | exit => simp [Command.prog, Command.Fits]
  | cd => simp [Command.prog, Command.Fits, InBounds]
  | back c ih => simp [Command.prog, Command.Fits, InBounds, ih]
  | list a b iha ihb => simp [Command.prog, Command.Fits, InBounds, iha, ihb, and_assoc]
  | pipe a b iha ihb => simp [Command.prog, Command.Fits, InBounds, iha, ihb, and_assoc]
  | exec argv =>
    intro addr k
    simp only [Command.prog, Command.Fits]
    split <;> simp_all [InBounds]
  | blank => simp [Command.prog, Command.Fits, InBounds]

/-- One round of the main loop. -/
theorem inBounds_round {rounds : Nat} {input rest : List (Option UInt8)} {raw : Bytes}
    (h : rawLine (bufSize - 1) input = some (raw, rest)) :
    InBounds (mainLoop (rounds + 1) input) ↔ Manageable (text raw) ∧
      (Command.ofLine (text raw).dropLast ≠ .exit → InBounds (mainLoop rounds rest)) := by
  by_cases hs : text raw = []
  · simp [mainLoop, readcmd_empty h hs, InBounds, Manageable, hs]
  obtain ⟨m, hread, hh, hlen⟩ := readcmd_line h hs
  have hshort : (text raw).dropLast.length < bufSize := by
    have hend := hh.end_lt
    omega
  simp only [mainLoop, hread, runcmd_line hh hshort (by rw [hlen]; decide), Manageable]
  rw [inBounds_prog, Command.fits_ofLine]
  by_cases he : Command.ofLine (text raw).dropLast = .exit
  · simp [he, hs, InBounds]
  · simp [he, hs]

/-- The shell stays inside its line buffer and `argv`, and its recursion ends, on exactly
the inputs whose lines up to the first `exit` are all manageable. -/
theorem main_in_bounds_iff (input : List (Option UInt8)) :
    InBounds (mainLoop (input.length + 1) input) ↔
      ∀ s ∈ session (input.length + 1) input, Manageable s := by
  suffices main : ∀ (rounds : Nat) (input : List (Option UInt8)), input.length < rounds →
      (InBounds (mainLoop rounds input) ↔ ∀ s ∈ session rounds input, Manageable s) from
    main _ input (Nat.lt_succ_self _)
  -- a round that reads a line takes at least one element of the input
  intro rounds
  induction rounds with
  | zero => intro input h; omega
  | succ rounds ih =>
    intro input h
    cases hraw : rawLine (bufSize - 1) input with
    | none => simp [mainLoop, session, readcmd_waiting hraw, hraw, InBounds]
    | some line =>
      obtain ⟨raw, rest⟩ := line
      have hlt := (rawLine_lt hraw).2
      rw [inBounds_round hraw, ih rest (by omega)]
      simp only [session, hraw, List.mem_cons, forall_eq_or_imp]
      by_cases he : Command.ofLine (text raw).dropLast = .exit <;> simp [he]

/-- Sixteen words, with one space between them. -/
def sixteenWords : Bytes := [space].intercalate (List.replicate maxArgs ['a'.toUInt8])

/-- End of input on an empty line, a line with one space, and a line of sixteen words. -/
theorem end_of_input_blank_line_sixteen_words :
    ¬ InBounds (mainLoop 2 [none]) ∧
      ¬ InBounds (mainLoop 3 ([space, '\n'.toUInt8].map some)) ∧
      ¬ InBounds (mainLoop 33 ((sixteenWords ++ ['\n'.toUInt8]).map some)) := by
  have hend : rawLine (bufSize - 1) [none] = some ([], []) := by decide
  have hblank : rawLine (bufSize - 1) ([space, '\n'.toUInt8].map some) =
      some ([space, '\n'.toUInt8], []) := by decide
  have hwords : rawLine (bufSize - 1) ((sixteenWords ++ ['\n'.toUInt8]).map some) =
      some (sixteenWords ++ ['\n'.toUInt8], []) := by decide
  rw [inBounds_round hend, inBounds_round hblank, inBounds_round hwords]
  refine ⟨fun h => ?_, fun h => ?_, fun h => ?_⟩
  · exact absurd h.1 (by decide)
  · exact absurd h.1 (by decide)
  · exact absurd h.1 (by decide)

end Xv6.Guarantees.LineBounds
