import Xv6.Console.Editor

/-!
# Turns of readers

What a reader takes is the next part of the committed text. It stops behind a newline, before a ^D
if it has bytes to return, and behind the ^D if it has none.
-/
namespace Xv6.Console

open Xv6.Library Xv6.Source.Console

/-- The character that an item is in the text. -/
def charOf : Item → UInt8
  | .byte c => c
  | .eof => C 'D'
  | .lost c => c

/-- The bytes that a reader gets. -/
def bytesOf (items : List Item) : List UInt8 :=
  items.filterMap fun
    | .byte c => some c
    | _ => none

variable {i : BitVec 32} {ed : Editor} {s : Cons} {got : List UInt8} {r : Turn}

/-- What one turn of a reader that has got `got` so far does. -/
structure Takes (i : BitVec 32) (ed : Editor) (target : Nat) (got : List UInt8) (r : Turn) : Prop where
  rel : Rel i (ed.take r.taken.length) r.cons
  chars : r.taken.map charOf = (ed.text.drop ed.taken).take r.taken.length
  got_eq : r.got = got ++ bytesOf r.taken
  item : ∀ x ∈ r.taken, x = .eof ∨ ∃ c, c ≠ C 'D' ∧ x = .byte c
  eof : .eof ∈ r.taken → r.taken = [.eof] ∧ r.got = [] ∧ r.done = true
  empty : r.done = true → r.got = [] → .eof ∈ r.taken
  line : newline ∉ got → newline ∉ r.got.dropLast ∧ (r.done = false → newline ∉ r.got)
  more : r.done = false → r.got.length < target
  /-- It sleeps when nothing committed is left. -/
  sleeps : r.done = false → r.cons.r = r.cons.w

theorem take_take (ed : Editor) (m n : Nat) : (ed.take m).take n = ed.take (m + n) := by
  rw [Editor.take, Editor.take, Editor.take, Nat.add_assoc]

/-- The oldest character leaves the buffer. -/
theorem Rel.pop (h : Rel i ed s) (hne : s.r ≠ s.w) :
    Rel i (ed.take 1) { s with r := s.r + 1 } ∧
      ed.text.drop ed.taken = s.buf (Fifo.cell INPUT_BUF_SIZE s.r) :: ed.text.drop (ed.taken + 1) := by
  have hlt : ed.taken < ed.text.length := by
    have hcons := mt h.r_eq_w_iff.2 hne
    rw [List.drop_eq_nil_iff] at hcons
    omega
  have hholds := h.holds
  rw [List.drop_eq_getElem_cons hlt, List.cons_append] at hholds
  refine ⟨⟨⟨hlt, ?_, h.w_eq, hholds.pop⟩, h.no_newline⟩, ?_⟩
  · show s.r + 1 = i + BitVec.ofNat 32 (ed.taken + 1)
    rw [Fifo.add_ofNat_succ, ← h.r_eq]
  · rw [hholds.head, List.drop_eq_getElem_cons hlt]

/-- A byte that is not the end of a line is followed by the rest of the turn. -/
theorem Takes.after {c : UInt8} {target : Nat} (h : Takes i (ed.take 1) target (got ++ [c]) r) (hD : c ≠ C 'D')
    (hnl : c ≠ newline) (htext : ed.text.drop ed.taken = c :: ed.text.drop (ed.taken + 1)) :
    Takes i ed target got (r.after (.byte c)) where
  rel := by
    have hrel := h.rel
    rwa [take_take, Nat.add_comm] at hrel
  chars := by
    show c :: r.taken.map charOf = _
    rw [h.chars, htext]
    rfl
  got_eq := by
    show r.got = got ++ (c :: bytesOf r.taken)
    rw [h.got_eq, List.append_assoc]
    rfl
  item x hx := by
    rcases List.mem_cons.1 hx with rfl | hx
    · exact .inr ⟨c, hD, rfl⟩
    · exact h.item x hx
  eof hx := by
    rcases List.mem_cons.1 hx with heq | hx
    · exact nomatch heq
    · have hnil := (h.eof hx).2.1
      rw [h.got_eq] at hnil
      exact absurd hnil (by simp)
  empty _ hnil := by
    have hnil : r.got = [] := hnil
    rw [h.got_eq] at hnil
    exact absurd hnil (by simp)
  line hno := by
    refine h.line fun hmem => ?_
    rcases List.mem_append.1 hmem with hin | hlast
    · exact hno hin
    · exact hnl (List.mem_singleton.1 hlast).symm
  more := h.more
  sleeps := h.sleeps

/-- The turn of a reader that takes nothing. -/
theorem Rel.takes_nothing {target : Nat} {done : Bool} (h : Rel i ed s) (hdone : done = true → got ≠ [])
    (hmore : done = false → got.length < target ∧ s.r = s.w) : Takes i ed target got ⟨s, got, [], done⟩ where
  rel := h
  chars := rfl
  got_eq := (List.append_nil got).symm
  item _ hx := nomatch hx
  eof hx := nomatch hx
  empty hd hnil := absurd hnil (hdone hd)
  line hno := ⟨fun hmem => hno (List.dropLast_subset got hmem), fun _ => hno⟩
  more hf := (hmore hf).1
  sleeps hf := (hmore hf).2

theorem turn_takes {n target : Nat} (h : Rel i ed s) (hpos : 0 < target) (hgot : got.length + n = target) :
    Takes i ed target got (turn (fun _ => true) target n s got) := by
  induction n generalizing ed s got with
  | zero =>
    have hne : got ≠ [] := by
      rintro rfl
      simp at hgot
      omega
    exact h.takes_nothing (fun _ => hne) fun hf => nomatch hf
  | succ n ih =>
    rw [turn]
    by_cases hempty : s.r = s.w
    · rw [if_pos hempty]
      exact h.takes_nothing (fun hf => nomatch hf) fun _ => ⟨by omega, hempty⟩
    rw [if_neg hempty]
    obtain ⟨hrel, htext⟩ := h.pop hempty
    generalize hc : s.buf (Fifo.cell INPUT_BUF_SIZE s.r) = c at htext
    dsimp only
    by_cases hD : c = C 'D'
    · rw [if_pos hD]
      by_cases hback : n + 1 < target
      · have hne : got ≠ [] := by
          rintro rfl
          simp at hgot
          omega
        have hsame : ({ s with r := s.r + 1 - 1 } : Cons) = s := by rw [BitVec.add_sub_cancel]
        rw [if_pos hback, hsame]
        exact h.takes_nothing (fun _ => hne) fun hf => nomatch hf
      · have hnil : got = [] := List.length_eq_zero_iff.1 (by omega)
        rw [if_neg hback, hnil]
        exact {
          rel := hrel
          chars := by
            show [C 'D'] = _
            rw [htext, hD]
            rfl
          got_eq := rfl
          item := fun x hx => .inl (List.mem_singleton.1 hx)
          eof := fun _ => ⟨rfl, rfl, rfl⟩
          empty := fun _ _ => List.mem_singleton.2 rfl
          line := fun hno => ⟨hno, fun hf => nomatch hf⟩
          more := fun hf => nomatch hf
          sleeps := fun hf => nomatch hf }
    rw [if_neg hD, if_pos rfl]
    by_cases hnl : c = newline
    · rw [if_pos hnl]
      exact {
        rel := hrel
        chars := by
          show [c] = _
          rw [htext]
          rfl
        got_eq := rfl
        item := fun x hx => .inr ⟨c, hD, List.mem_singleton.1 hx⟩
        eof := fun hx => nomatch List.mem_singleton.1 hx
        empty := fun _ hnil => absurd hnil (by simp)
        line := fun hno => ⟨by rw [List.dropLast_concat]; exact hno, fun hf => nomatch hf⟩
        more := fun hf => nomatch hf
        sleeps := fun hf => nomatch hf }
    · rw [if_neg hnl]
      have hlen : (got ++ [c]).length + n = target := by
        rw [List.length_append, List.length_singleton]
        omega
      exact (ih hrel hlen).after hD hnl htext

end Xv6.Console
