import Mathlib.Data.List.Induction
import Xv6.Source.Console

/-!
# The line editor behind the console

A reference: the text that has been committed so far, how much of it readers have taken, and the
line that is being typed. The circular buffer holds what has been committed and not taken, and
behind it the line.
-/
namespace Xv6.Console

open Xv6.Library Xv6.Source.Console

structure Editor where
  /-- Everything committed so far; a ^D in it stands for an end of file. -/
  text : List UInt8
  line : List UInt8
  /-- How much of the text readers have taken. -/
  taken : Nat

def Editor.empty : Editor := ⟨[], [], 0⟩

/-- How much there is between the readers and the keyboard. -/
def Editor.waiting (ed : Editor) : Nat := ed.text.length - ed.taken + ed.line.length

def Editor.commit (ed : Editor) : Editor := { ed with text := ed.text ++ ed.line, line := [] }

/-- A character that is part of the text. -/
def Editor.put (c : UInt8) (ed : Editor) : Editor :=
  let ed := { ed with line := ed.line ++ [c] }
  if c = newline ∨ c = C 'D' ∨ ed.waiting = INPUT_BUF_SIZE then ed.commit else ed

def Editor.type (c : UInt8) (ed : Editor) : Editor :=
  if c = C 'P' ∨ c = 0 then ed
  else if c = C 'U' then { ed with line := [] }
  else if c = C 'H' ∨ c = delete then { ed with line := ed.line.dropLast }
  else if ed.waiting = INPUT_BUF_SIZE then ed
  else ed.put (if c = carriageReturn then newline else c)

def Editor.take (n : Nat) (ed : Editor) : Editor := { ed with taken := ed.taken + n }

/-- The console's buffer shows the editor; `i` is where the indices were at the start. -/
structure Shows (i : BitVec 32) (ed : Editor) (s : Cons) : Prop where
  taken_le : ed.taken ≤ ed.text.length
  r_eq : s.r = i + BitVec.ofNat 32 ed.taken
  w_eq : s.w = i + BitVec.ofNat 32 ed.text.length
  holds : Fifo.Holds s.buf s.r s.e (ed.text.drop ed.taken ++ ed.line)

/-- And no complete line is left uncommitted. -/
structure Rel (i : BitVec 32) (ed : Editor) (s : Cons) : Prop extends Shows i ed s where
  no_newline : newline ∉ ed.line

variable {i : BitVec 32} {ed : Editor} {s : Cons}

theorem size_dvd : INPUT_BUF_SIZE ∣ 2 ^ 32 := by decide

theorem size_lt : INPUT_BUF_SIZE < 2 ^ 32 := by decide

theorem add_ofNat (i : BitVec 32) (j k : Nat) :
    i + BitVec.ofNat 32 (j + k) = i + BitVec.ofNat 32 j + BitVec.ofNat 32 k := by
  rw [BitVec.ofNat_add, BitVec.add_assoc]

namespace Shows

theorem waiting_eq (h : Shows i ed s) : (s.e - s.r).toNat = ed.waiting := by
  rw [h.holds.sub_eq size_lt, List.length_append, List.length_drop, Editor.waiting]

theorem waiting_le (h : Shows i ed s) : ed.waiting ≤ INPUT_BUF_SIZE := by
  have := h.holds.length
  rwa [List.length_append, List.length_drop] at this

/-- The write index is behind what has been committed. -/
theorem w_of_r (h : Shows i ed s) : s.w = s.r + BitVec.ofNat 32 (ed.text.length - ed.taken) := by
  rw [h.w_eq, h.r_eq, ← add_ofNat, Nat.add_sub_cancel' h.taken_le]

theorem e_of_w (h : Shows i ed s) : s.e = s.w + BitVec.ofNat 32 ed.line.length := by
  rw [h.holds.count, List.length_append, List.length_drop, add_ofNat, ← h.w_of_r]

theorem e_eq (h : Shows i ed s) : s.e = i + BitVec.ofNat 32 (ed.text.length + ed.line.length) := by
  rw [h.e_of_w, h.w_eq, add_ofNat]

theorem line_le (h : Shows i ed s) : ed.line.length ≤ INPUT_BUF_SIZE := by
  have := h.waiting_le
  rw [Editor.waiting] at this
  omega

theorem e_eq_w_iff (h : Shows i ed s) : s.e = s.w ↔ ed.line = [] := by
  rw [h.e_of_w]
  constructor
  · intro heq
    have hzero : ed.line.length = 0 :=
      Fifo.ofNat_inj size_lt h.line_le (Nat.zero_le INPUT_BUF_SIZE) (i := s.w) (by simpa using heq)
    exact List.length_eq_zero_iff.1 hzero
  · intro hnil
    simp [hnil]

theorem r_eq_w_iff (h : Shows i ed s) : s.r = s.w ↔ ed.text.drop ed.taken = [] := by
  have hle := h.waiting_le
  rw [Editor.waiting] at hle
  rw [h.w_of_r, List.drop_eq_nil_iff]
  constructor
  · intro heq
    have hzero : 0 = ed.text.length - ed.taken :=
      Fifo.ofNat_inj size_lt (Nat.zero_le INPUT_BUF_SIZE) (by omega) (i := s.r) (by simpa using heq)
    omega
  · intro hle'
    rw [show ed.text.length - ed.taken = 0 by omega]
    simp

/-- What is shown as a line becomes text. -/
theorem commit (h : Shows i ed s) : Rel i ed.commit { s with w := s.e } where
  taken_le := by
    have := h.taken_le
    simp only [Editor.commit, List.length_append]
    omega
  r_eq := h.r_eq
  w_eq := by
    simp only [Editor.commit, List.length_append]
    exact h.e_eq
  holds := by
    simp only [Editor.commit, List.append_nil]
    rw [List.drop_append_of_le_length h.taken_le]
    exact h.holds
  no_newline := List.not_mem_nil

theorem store (h : Shows i ed s) (hroom : ed.waiting < INPUT_BUF_SIZE) (c : UInt8) :
    Shows i { ed with line := ed.line ++ [c] } (store c s) := by
  have hlen : (ed.text.drop ed.taken ++ ed.line).length < INPUT_BUF_SIZE := by
    rwa [List.length_append, List.length_drop]
  have hpush := h.holds.push size_dvd hlen c
  rw [List.append_assoc] at hpush
  exact ⟨h.taken_le, h.r_eq, h.w_eq, hpush⟩

end Shows

namespace Rel

/-- The last character of the line is taken back. -/
theorem unput {c : UInt8} {l : List UInt8} (h : Rel i ed s) (hline : ed.line = l ++ [c]) :
    Rel i { ed with line := l } { s with e := s.e - 1 } ∧
      s.buf (Fifo.cell INPUT_BUF_SIZE (s.e - 1)) = c := by
  have hholds := h.holds
  rw [hline, ← List.append_assoc] at hholds
  obtain ⟨hunpush, hlast⟩ := hholds.unpush
  refine ⟨⟨⟨h.taken_le, h.r_eq, h.w_eq, hunpush⟩, fun hmem => h.no_newline ?_⟩, hlast⟩
  rw [hline]
  exact List.mem_append_left _ hmem

theorem killLine {l : List UInt8} (h : Rel i ed s) (hline : ed.line = l) :
    Rel i { ed with line := [] } (Source.Console.killLine l.length s) := by
  induction l using List.reverseRecOn generalizing ed s with
  | nil =>
    rw [List.length_nil, Source.Console.killLine, ← hline]
    exact h
  | append_singleton l c ih =>
    obtain ⟨hrel, hlast⟩ := h.unput hline
    have hgo : s.e ≠ s.w ∧ s.buf (Fifo.cell INPUT_BUF_SIZE (s.e - 1)) ≠ newline := by
      refine ⟨fun heq => ?_, fun heq => h.no_newline ?_⟩
      · have hnil := h.e_eq_w_iff.1 heq
        rw [hline] at hnil
        exact absurd hnil (by simp)
      · rw [hline, ← heq, hlast]
        simp
    rw [List.length_append, List.length_singleton, Source.Console.killLine, if_pos hgo]
    have hrest := ih hrel rfl
    exact hrest

/-- A character is stored and, where it completes the line, committed. -/
theorem put (h : Rel i ed s) (hroom : ed.waiting < INPUT_BUF_SIZE) (c : UInt8) :
    Rel i (ed.put c) (Source.Console.commit c (store c s)) := by
  have hshows := h.store hroom c
  rw [Editor.put, Source.Console.commit, hshows.waiting_eq]
  split
  · exact hshows.commit
  · next hopen =>
    refine ⟨hshows, fun hmem => ?_⟩
    rcases List.mem_append.1 hmem with hin | hlast
    · exact h.no_newline hin
    · exact hopen (.inl (List.mem_singleton.1 hlast).symm)

/-- The editor says what the interrupt handler does. -/
theorem type (h : Rel i ed s) (c : UInt8) : Rel i (ed.type c) (consoleintr c s) := by
  rw [Editor.type, consoleintr]
  by_cases hP : c = C 'P'
  · rw [if_pos (.inl hP), if_pos hP]
    exact h
  by_cases hU : c = C 'U'
  · have hwait : (s.e - s.w).toNat = ed.line.length := by
      have hle := h.line_le
      have hlt := size_lt
      rw [h.e_of_w, BitVec.add_comm, BitVec.add_sub_cancel, BitVec.toNat_ofNat, Nat.mod_eq_of_lt (by omega)]
    have hne : c ≠ 0 := by
      rw [hU]
      decide
    rw [if_neg (not_or.2 ⟨hP, hne⟩), if_pos hU, if_neg hP, if_pos hU, hwait]
    exact h.killLine rfl
  by_cases hH : c = C 'H' ∨ c = delete
  · have hne : c ≠ 0 := by
      rcases hH with rfl | rfl <;> decide
    rw [if_neg (not_or.2 ⟨hP, hne⟩), if_neg hU, if_pos hH, if_neg hP, if_neg hU, if_pos hH]
    cases hline : ed.line using List.reverseRecOn with
    | nil =>
      rw [if_neg (fun hne => hne (h.e_eq_w_iff.2 hline)), List.dropLast_nil, ← hline]
      exact h
    | append_singleton l c =>
      have hne' : s.e ≠ s.w := fun heq => by
        have hnil := h.e_eq_w_iff.1 heq
        rw [hline] at hnil
        exact absurd hnil (by simp)
      rw [if_pos hne', List.dropLast_concat]
      exact (h.unput hline).1
  by_cases hroom : c ≠ 0 ∧ (s.e - s.r).toNat < INPUT_BUF_SIZE
  · have hwait := hroom.2
    rw [h.waiting_eq] at hwait
    rw [if_neg (not_or.2 ⟨hP, hroom.1⟩), if_neg hU, if_neg hH, if_neg (Nat.ne_of_lt hwait), if_neg hP, if_neg hU,
      if_neg hH, if_pos hroom]
    exact h.put hwait _
  · have hle := h.waiting_le
    by_cases hzero : c = 0
    · rw [if_pos (.inr hzero), if_neg hP, if_neg hU, if_neg hH, if_neg hroom]
      exact h
    · have hfull : ed.waiting = INPUT_BUF_SIZE := by
        have : ¬ (s.e - s.r).toNat < INPUT_BUF_SIZE := fun hlt => hroom ⟨hzero, hlt⟩
        rw [h.waiting_eq] at this
        omega
      rw [if_neg (not_or.2 ⟨hP, hzero⟩), if_neg hU, if_neg hH, if_pos hfull, if_neg hP, if_neg hU, if_neg hH,
        if_neg hroom]
      exact h

end Rel

end Xv6.Console
