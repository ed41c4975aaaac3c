import Xv6.Shell.LineBuffer

/-!
# The lines that ysh reads

What `gets` takes from the input, and the buffer that `readcmd` makes of it. A line
that is typed as a whole arrives in the buffer as it was typed.
-/
namespace Xv6.Shell

open Xv6.Library.Pieces
open Xv6.Source.Ulib Xv6.Source.Proc Xv6.Source.Ysh

/-- The bytes that `gets` takes when it has room for so many, and the input behind them. -/
def rawLine : Nat → List (Option UInt8) → Option (Bytes × List (Option UInt8))
  | 0, input => some ([], input)
  | _ + 1, [] => none
  | _ + 1, none :: input => some ([], input)
  | room + 1, some c :: input =>
    if c = '\n'.toUInt8 ∨ c = '\r'.toUInt8 then some ([c], input)
    else (rawLine room input).map fun (raw, input) => (c :: raw, input)

/-- The bytes of a buffer, filled up with zeros. -/
def padded (raw : Bytes) : Bytes := raw ++ List.replicate (bufSize - raw.length) 0

section gets
variable {pre raw : Bytes} {input rest : List (Option UInt8)}

theorem padded_length (h : raw.length ≤ bufSize) : (padded raw).length = bufSize := by
  simp only [padded, List.length_append, List.length_replicate]
  omega

theorem store_padded (c : UInt8) (h : pre.length < bufSize) :
    store (padded pre) pre.length c = some (padded (pre ++ [c])) := by
  obtain ⟨k, hk⟩ : ∃ k, bufSize - pre.length = k + 1 := ⟨bufSize - pre.length - 1, by omega⟩
  have hk' : bufSize - (pre ++ [c]).length = k := by simp; omega
  rw [padded, hk, List.replicate_succ, store_append, padded, hk']
  simp

theorem getsEnd_padded (h : pre.length < bufSize) :
    getsEnd (padded pre) pre.length input = .line (padded pre) input := by
  have hsame : padded (pre ++ [0]) = padded pre := by
    obtain ⟨k, hk⟩ : ∃ k, bufSize - pre.length = k + 1 := ⟨bufSize - pre.length - 1, by omega⟩
    have hk' : bufSize - (pre ++ [0]).length = k := by simp; omega
    rw [padded, hk', padded, hk, List.replicate_succ]
    simp
  rw [getsEnd, store_padded 0 h, hsame]

/-- The loop of `gets` from a buffer that it has filled in part. -/
theorem gets_padded : ∀ (room : Nat) (input : List (Option UInt8)) (pre : Bytes),
    pre.length + room + 1 = bufSize →
    gets bufSize input (padded pre) pre.length =
      match rawLine room input with
      | none => .waiting
      | some (raw, rest) => .line (padded (pre ++ raw)) rest := by
  intro room
  induction room with
  | zero =>
    intro input pre h
    have hfull : ¬ pre.length + 1 < bufSize := by omega
    have hend : getsEnd (padded pre) pre.length input = .line (padded pre) input :=
      getsEnd_padded (by omega)
    rcases input with _ | ⟨_ | c, input⟩ <;>
      simp only [gets, if_neg hfull, rawLine, List.append_nil, hend]
  | succ room ih =>
    intro input pre h
    have hroom : pre.length + 1 < bufSize := by omega
    rcases input with _ | ⟨_ | c, input⟩
    · simp only [gets, if_pos hroom, rawLine]
    · simp only [gets, if_pos hroom, rawLine, List.append_nil, getsEnd_padded (Nat.lt_of_succ_lt hroom)]
    · have hlen : pre.length + 1 = (pre ++ [c]).length := by simp
      simp only [gets, if_pos hroom, rawLine, store_padded c (Nat.lt_of_succ_lt hroom)]
      rw [hlen] at hroom ⊢
      by_cases hc : c = '\n'.toUInt8 ∨ c = '\r'.toUInt8
      · simp only [if_pos hc, getsEnd_padded hroom]
      · simp only [if_neg hc, ih input (pre ++ [c]) (by omega)]
        cases rawLine room input <;> simp

theorem rawLine_bounds {room : Nat} : ∀ {input : List (Option UInt8)} {raw : Bytes},
    rawLine (room + 1) input = some (raw, rest) →
      raw.length ≤ room + 1 ∧ rest.length < input.length := by
  induction room with
  | zero =>
    intro input raw h
    rcases input with _ | ⟨_ | c, input⟩
    · cases h
    · cases h
      simp
    · have hraw : raw = [c] ∧ rest = input := by
        rw [rawLine] at h
        split at h <;> simp_all [rawLine]
      simp [hraw]
  | succ room ih =>
    intro input raw h
    rcases input with _ | ⟨_ | c, input⟩
    · cases h
    · cases h
      simp
    · rw [rawLine] at h
      split at h
      · cases h
        simp
      · rw [Option.map_eq_some_iff] at h
        obtain ⟨⟨raw', rest'⟩, h, he⟩ := h
        cases he
        obtain ⟨hraw, hrest⟩ := ih h
        simp only [List.length_cons]
        omega

end gets

section readcmd
variable {raw : Bytes} {input rest : List (Option UInt8)}

/-- The string in a buffer ends at the first zero byte. -/
def text (raw : Bytes) : Bytes := raw.takeWhile (· != 0)

theorem holds_padded (h : raw.length < bufSize) : Holds (padded raw) 0 (text raw) := by
  have hclean : (0 : UInt8) ∉ text raw := fun hz => by simpa using List.mem_takeWhile_imp hz
  refine ⟨?_, hclean⟩
  obtain ⟨k, hk⟩ : ∃ k, bufSize - raw.length = k + 1 := ⟨bufSize - raw.length - 1, by omega⟩
  have hsplit := List.takeWhile_append_dropWhile (p := (· != (0 : UInt8))) (l := raw)
  cases hd : raw.dropWhile (· != 0) with
  | nil =>
    rw [hd, List.append_nil] at hsplit
    refine ⟨[], List.replicate k 0, ?_, rfl⟩
    rw [text, hsplit, padded, hk, List.replicate_succ, List.nil_append]
  | cons c post =>
    have hc : c = 0 := by
      have hnot := List.head?_dropWhile_not (· != (0 : UInt8)) raw
      rw [hd] at hnot
      simpa using hnot
    subst hc
    refine ⟨[], post ++ List.replicate (bufSize - raw.length) 0, ?_, rfl⟩
    rw [text, padded]
    nth_rewrite 1 [← hsplit]
    rw [hd]
    simp

theorem gets_line (input : List (Option UInt8)) :
    gets bufSize input (List.replicate bufSize 0) 0 =
      match rawLine (bufSize - 1) input with
      | none => .waiting
      | some (raw, rest) => .line (padded raw) rest :=
  gets_padded (bufSize - 1) input [] (by decide)

theorem readcmd_waiting (h : rawLine (bufSize - 1) input = none) : readcmd input = .waiting := by
  simp only [readcmd, gets_line, h]

theorem rawLine_lt (h : rawLine (bufSize - 1) input = some (raw, rest)) :
    raw.length < bufSize ∧ rest.length < input.length := by
  have hb : raw.length ≤ 126 + 1 ∧ rest.length < input.length := rawLine_bounds h
  have hsize : bufSize = 128 := rfl
  omega

/-- Chopping an empty string writes at index `2 ^ 32 - 1`. -/
theorem readcmd_empty (h : rawLine (bufSize - 1) input = some (raw, rest)) (hs : text raw = []) :
    readcmd input = .fault := by
  have hh := holds_padded (rawLine_lt h).1
  rw [hs] at hh
  have hlast : lastIndex (padded raw) 0 = some 4294967295 := by
    rw [lastIndex, hh.strlen]
    rfl
  have hstore : store (padded raw) 4294967295 0 = none := by
    have hlen := padded_length (Nat.le_of_lt (rawLine_lt h).1)
    rw [store, hlen]
    rfl
  simp only [readcmd, gets_line, h, hlast, Option.bind_some, hstore]

/-- A line that is not empty loses its last byte, whichever it is. -/
theorem readcmd_line (h : rawLine (bufSize - 1) input = some (raw, rest)) (hs : text raw ≠ []) :
    ∃ m, readcmd input = .line m rest ∧ Holds m 0 (text raw).dropLast ∧ m.length = bufSize := by
  have hlen := padded_length (Nat.le_of_lt (rawLine_lt h).1)
  have hh := holds_padded (rawLine_lt h).1
  obtain ⟨u, x, hux⟩ := (List.eq_nil_or_concat' (text raw)).resolve_left hs
  rw [hux] at hh ⊢
  have hlast := lastIndex_of_holds hh (by rw [hlen]; decide)
  obtain ⟨m, hst, hu, _, hm⟩ := hh.cut
  refine ⟨m, ?_, by simpa using hu, hm.trans hlen⟩
  simp only [readcmd, gets_line, h, hlast, Option.bind_some, hst]

end readcmd

/-- A line as it is typed, without its newline: no byte that ends it early, and room for
the newline and the terminator. -/
structure Line where
  bytes : Bytes
  clean : ∀ c ∈ bytes, c ≠ 0 ∧ c ≠ '\n'.toUInt8 ∧ c ≠ '\r'.toUInt8
  fits : bytes.length + 1 < bufSize

namespace Line

/-- What the console gives for the line. -/
def typed (l : Line) : List (Option UInt8) := (l.bytes ++ ['\n'.toUInt8]).map some

theorem rawLine_typed {w : Bytes} (clean : ∀ c ∈ w, c ≠ 0 ∧ c ≠ '\n'.toUInt8 ∧ c ≠ '\r'.toUInt8)
    (rest : List (Option UInt8)) : ∀ {room : Nat}, w.length < room →
      rawLine room ((w ++ ['\n'.toUInt8]).map some ++ rest) = some (w ++ ['\n'.toUInt8], rest) := by
  induction w with
  | nil =>
    intro room h
    obtain ⟨room, rfl⟩ : ∃ k, room = k + 1 := ⟨room - 1, by omega⟩
    simp [rawLine]
  | cons c w ih =>
    intro room h
    obtain ⟨room, rfl⟩ : ∃ k, room = k + 1 := ⟨room - 1, by omega⟩
    have hc := clean c List.mem_cons_self
    have hlt : w.length < room := by simpa using h
    have hrest := ih (fun d hd => clean d (List.mem_cons_of_mem c hd)) hlt
    simp only [List.cons_append, List.map_cons, rawLine, hc.2.1, hc.2.2, or_self, if_false, hrest,
      Option.map_some]

/-- `readcmd` puts a typed line into the buffer. -/
theorem readcmd_typed (l : Line) (rest : List (Option UInt8)) :
    ∃ m, readcmd (l.typed ++ rest) = .line m rest ∧ Holds m 0 l.bytes ∧ m.length = bufSize := by
  have hroom : l.bytes.length < bufSize - 1 := by
    have := l.fits
    omega
  have hraw := rawLine_typed l.clean rest hroom
  have htext : text (l.bytes ++ ['\n'.toUInt8]) = l.bytes ++ ['\n'.toUInt8] := by
    rw [text, List.takeWhile_eq_self_iff]
    intro c hc
    rcases List.mem_append.mp hc with hc | hc
    · simpa using (l.clean c hc).1
    · rw [List.mem_singleton.mp hc]
      decide
  obtain ⟨m, hm, hh, hlen⟩ := readcmd_line hraw (by rw [htext]; simp)
  rw [htext, List.dropLast_concat] at hh
  exact ⟨m, hm, hh, hlen⟩

/-- The calls of the process that reads the line and runs it. -/
def run (l : Line) (k : Bool → Prog Addr) : Prog Addr :=
  match readcmd l.typed with
  | .line m _ => runcmd bufSize m 0 [] k
  | _ => .fault

theorem run_eq (l : Line) (k : Bool → Prog Addr) :
    l.run k = (Command.ofLine l.bytes).prog [] k := by
  obtain ⟨m, hread, hh, hlen⟩ := l.readcmd_typed []
  rw [List.append_nil] at hread
  simp only [run, hread]
  exact runcmd_line hh (Nat.lt_of_succ_lt l.fits) (by rw [hlen]; decide)

/-- The files of a shell that has opened the console three times. -/
def consoles : Files Addr :=
  [some (.console 0), some (.console 1), some (.console 2)] ++ List.replicate (NOFILE - 3) none

/-- The shell, which has read the line and is about to run it. -/
def shell (l : Line) : Process Addr := ⟨none, [], consoles, .run (l.run .ret)⟩

end Line
end Xv6.Shell
