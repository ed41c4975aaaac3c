import Xv6.Shell.Input

/-!
# The lines that reach runcmd

What `main` passes to `runcmd`, round by round. `readcmd` chops off the last byte of what
`gets` has read, which is the newline only if the line fits, and writes outside the buffer at
the end of the input: the loop ends when a line makes `runcmd` return 0 and in no other way.
-/
namespace Xv6.Guarantees.TypedLines

open Xv6.Source.Ulib Xv6.Source.Proc Xv6.Source.Ysh Xv6.Shell

/-- What `runcmd` returns to the shell's own process, unless it leaves the buffer. -/
def returned : Prog Addr → Option Bool
  | .ret more => some more
  | .fork _ _ n | .wait n | .close _ n | .dup _ n | .chdir _ n => returned n
  | .exit | .exec _ _ _ | .pipe _ _ | .fault | .spin => none

inductive Ending where
  | exit
  | fault
  | waiting
  deriving DecidableEq

/-- The strings that the loop of `main` passes to `runcmd`, and how it ends. -/
def passed : Nat → List (Option UInt8) → List Bytes × Ending
  | 0, _ => ([], .waiting)
  | rounds + 1, input =>
    match readcmd input with
    | .fault => ([], .fault)
    | .waiting => ([], .waiting)
    | .line m input =>
      match cstring m 0, returned (runcmd bufSize m 0 [] .ret) with
      | none, _ => ([], .fault)
      | some s, none => ([s], .fault)
      | some s, some false => ([s], .exit)
      | some s, some true => (s :: (passed rounds input).1, (passed rounds input).2)

/-- What `runcmd` returns for a command. -/
def value : Command → Option Bool
  | .exit => some false
  | .list _ b => (value b).map fun _ => true
  | .exec argv => if argv.length < maxArgs then some true else none
  | .blank => none
  | .nop | .cd _ | .back _ | .pipe _ _ => some true

theorem returned_prog (t : Command) : ∀ (addr : Addr) (k : Bool → Prog Addr),
    returned (t.prog addr k) = (value t).bind fun more => returned (k more) := by
  induction t with
  | nop | exit | cd | back | pipe | blank => exact fun _ _ => rfl
  | list a b _ ihb =>
    intro addr k
    rw [Command.prog, returned, returned, ihb, value]
    cases value b <;> rfl
  | exec argv =>
    intro addr k
    rw [Command.prog, value]
    split <;> rfl

/-- The input of a shell that is given these lines and nothing behind them. -/
def stream (ls : List Bytes) : List (Option UInt8) :=
  ls.flatMap (fun l => (l ++ ['\n'.toUInt8]).map some) ++ [none]

/-- A line that arrives as it was typed. -/
structure Short (l : Bytes) : Prop where
  length : l.length + 1 < bufSize
  clean : 0 ∉ l ∧ '\r'.toUInt8 ∉ l

section rounds
variable {l : Bytes} {input rest : List (Option UInt8)} {raw : Bytes}

/-- A round whose line is a short one. -/
theorem passed_short (hl : Short l) (hnl : '\n'.toUInt8 ∉ l) (rounds : Nat) (input : List (Option UInt8)) :
    passed (rounds + 1) ((l ++ ['\n'.toUInt8]).map some ++ input) =
      match value (Command.ofLine l) with
      | none => ([l], .fault)
      | some false => ([l], .exit)
      | some true => (l :: (passed rounds input).1, (passed rounds input).2) := by
  have hclean : ∀ c ∈ l, c ≠ 0 ∧ c ≠ '\n'.toUInt8 ∧ c ≠ '\r'.toUInt8 := by
    intro c hc
    refine ⟨?_, ?_, ?_⟩
    · exact fun heq => hl.clean.1 (heq ▸ hc)
    · exact fun heq => hnl (heq ▸ hc)
    · exact fun heq => hl.clean.2 (heq ▸ hc)
  obtain ⟨m, hread, hholds, hlen⟩ := Line.readcmd_typed ⟨l, hclean, hl.length⟩ input
  have hrun : runcmd bufSize m 0 [] .ret = (Command.ofLine l).prog [] .ret :=
    runcmd_line hholds (Nat.lt_of_succ_lt hl.length) (by rw [hlen]; decide)
  have hvalue : returned ((Command.ofLine l).prog [] .ret) = value (Command.ofLine l) := by
    rw [returned_prog]
    cases value (Command.ofLine l) <;> rfl
  have hread' : readcmd ((l ++ ['\n'.toUInt8]).map some ++ input) = .line m input := hread
  rw [passed, hread']
  simp only [hholds.cstring, hrun, hvalue]
  cases value (Command.ofLine l) with
  | none => rfl
  | some more => cases more <;> rfl

/-- `gets` stops behind the first newline or carriage return. -/
theorem rawLine_dropLast {room : Nat} (h : rawLine room input = some (raw, rest)) :
    '\r'.toUInt8 ∉ raw.dropLast := by
  induction room generalizing input raw with
  | zero =>
    cases h
    simp
  | succ room ih =>
    rcases input with _ | ⟨_ | c, input⟩
    · cases h
    · cases h
      simp
    · rw [rawLine] at h
      split at h
      · cases h
        simp
      · next hc =>
        obtain ⟨⟨raw', rest'⟩, hrest, heq⟩ := Option.map_eq_some_iff.mp h
        cases heq
        cases raw' with
        | nil => simp
        | cons d raw' =>
          rw [List.dropLast_cons_of_ne_nil (by simp), List.mem_cons, not_or]
          exact ⟨fun heq => hc (.inr heq.symm), ih hrest⟩

theorem dropLast_prefix {u v : Bytes} (h : u <+: v) : u.dropLast <+: v.dropLast := by
  obtain ⟨w, rfl⟩ := h
  cases w with
  | nil => simp
  | cons c w =>
    rw [List.dropLast_append_of_ne_nil (by simp)]
    exact (List.dropLast_prefix u).trans (List.prefix_append _ _)

/-- Whatever arrives is short. -/
theorem short_of_passed {rounds : Nat} {s : Bytes} {ss : List Bytes} {e : Ending}
    (h : passed (rounds + 1) input = (s :: ss, e)) : Short s := by
  cases hraw : rawLine (bufSize - 1) input with
  | none =>
    rw [passed, readcmd_waiting hraw] at h
    cases h
  | some line =>
    obtain ⟨raw, rest⟩ := line
    by_cases htext : text raw = []
    · rw [passed, readcmd_empty hraw htext] at h
      cases h
    · obtain ⟨m, hread, hholds, hlen⟩ := readcmd_line hraw htext
      have hs : s = (text raw).dropLast := by
        rw [passed, hread] at h
        simp only [hholds.cstring] at h
        split at h <;> simp_all
      subst hs
      have hpre : (text raw).dropLast <+: raw.dropLast :=
        dropLast_prefix (List.takeWhile_prefix _)
      have hlength := hpre.length_le
      have hroom := (rawLine_lt hraw).1
      have hpos := List.length_pos_of_ne_nil htext
      have hle : (text raw).length ≤ raw.length := (List.takeWhile_prefix _).length_le
      rw [List.length_dropLast] at hlength
      refine ⟨?_, hholds.clean, fun hr => rawLine_dropLast hraw (hpre.subset hr)⟩
      rw [List.length_dropLast]
      omega

theorem readcmd_end : readcmd [none] = .fault := by
  have hraw : rawLine (bufSize - 1) [none] = some ([], []) := by decide
  exact readcmd_empty hraw rfl

end rounds

theorem answers_cons {v : Option Bool} {vs : List (Option Bool)} :
    (∃ n, v :: vs = List.replicate n (some true) ++ [some false]) ↔ v = some false ∧ vs = [] ∨
      v = some true ∧ ∃ n, vs = List.replicate n (some true) ++ [some false] := by
  constructor
  · rintro ⟨n, h⟩
    cases n with
    | zero => simpa using Or.inl (List.cons.inj h)
    | succ n =>
      rw [List.replicate_succ, List.cons_append] at h
      exact .inr ⟨(List.cons.inj h).1, n, (List.cons.inj h).2⟩
  · rintro (⟨rfl, rfl⟩ | ⟨rfl, n, rfl⟩)
    · exact ⟨0, rfl⟩
    · exact ⟨n + 1, by rw [List.replicate_succ, List.cons_append]⟩

/-- The loop passes the lines as they are and ends by itself if and only if they are short and `runcmd`
returns 0 for the last and 1 for the others. -/
theorem lines_unchanged_iff (ls : List Bytes) (hls : ∀ l ∈ ls, '\n'.toUInt8 ∉ l) {rounds : Nat}
    (hrounds : ls.length < rounds) :
    passed rounds (stream ls) = (ls, .exit) ↔ (∀ l ∈ ls, Short l) ∧
      ∃ n, ls.map (fun l => value (Command.ofLine l)) = List.replicate n (some true) ++ [some false] := by
  induction ls generalizing rounds with
  | nil =>
    obtain ⟨rounds, rfl⟩ : ∃ k, rounds = k + 1 := ⟨rounds - 1, by omega⟩
    rw [passed, stream, List.flatMap_nil, List.nil_append, readcmd_end]
    simp
  | cons l ls ih =>
    obtain ⟨rounds, rfl⟩ : ∃ k, rounds = k + 1 := ⟨rounds - 1, by omega⟩
    have hl := hls l List.mem_cons_self
    by_cases hshort : Short l
    · have ih := ih (fun l' hl' => hls l' (List.mem_cons_of_mem _ hl')) (Nat.lt_of_succ_lt_succ hrounds)
      have hstream : stream (l :: ls) = (l ++ ['\n'.toUInt8]).map some ++ stream ls := by
        simp [stream]
      rw [hstream, passed_short hshort hl, List.forall_mem_cons, List.map_cons, answers_cons]
      cases value (Command.ofLine l) with
      | none => simp
      | some more =>
        cases more with
        | false =>
          cases ls with
          | nil => simp [hshort]
          | cons l' ls => simp
        | true =>
          have hpair : ((l :: (passed rounds (stream ls)).1, (passed rounds (stream ls)).2) = (l :: ls, Ending.exit)) ↔
              passed rounds (stream ls) = (ls, .exit) := by
            simp [Prod.ext_iff]
          simp [hpair, ih, hshort]
    · constructor
      · intro h
        exact absurd (short_of_passed h) hshort
      · intro h
        exact absurd (h.1 l List.mem_cons_self) hshort

/-- Two commands and `exit`. -/
theorem lines_unchanged_until_exit :
    passed 4 (stream [literal ['l', 's'], literal ['c', 'd', ' ', 'a'], exitWord]) =
      ([literal ['l', 's'], literal ['c', 'd', ' ', 'a'], exitWord], .exit) := by
  refine (lines_unchanged_iff _ (by decide) (by decide)).mpr ⟨?_, 2, by decide⟩
  intro l hl
  constructor
  · revert l
    decide
  · revert l
    decide

/-- A line of 127 bytes arrives as two, one byte shorter, and the end of the input is not noticed. -/
theorem long_line_split_end_fault :
    passed 4 (stream [List.replicate 127 'a'.toUInt8]) = ([List.replicate 126 'a'.toUInt8, []], .fault) ∧
    passed 2 (stream [literal ['l', 's']]) = ([literal ['l', 's']], .fault) := by
  refine ⟨by decide +kernel, by decide +kernel⟩

end Xv6.Guarantees.TypedLines
