import Mathlib.Data.List.DropRight
import Mathlib.Data.List.TakeWhile
import Mathlib.Tactic.Common

/-!
# Pieces of a text

Cutting a list at the first occurrence of a separator, and stripping a padding
element from both of its ends.
-/
namespace Xv6.Library.Pieces

variable {α : Type} {pad c x : α} {w t u v : List α}

/-- Padding and nothing else, but not empty. -/
def Blank (pad : α) (w : List α) : Prop := w ≠ [] ∧ ∀ x ∈ w, x = pad

instance [DecidableEq α] : Decidable (Blank pad w) := inferInstanceAs (Decidable (_ ∧ _))

/-- No padding at the ends. -/
def Trimmed (pad : α) (t : List α) : Prop := t.head? ≠ some pad ∧ t.getLast? ≠ some pad

theorem not_blank_nil : ¬ Blank pad ([] : List α) := fun h => h.1 rfl

theorem not_blank_of_mem (h : x ∈ w) (hx : x ≠ pad) : ¬ Blank pad w :=
  fun hb => hx (hb.2 x h)

/-- The pieces of a trimmed list are not blank: the first begins as it does and the
second ends as it does. -/
theorem Trimmed.not_blank_first (h : Trimmed pad (u ++ v)) : ¬ Blank pad u := by
  cases u with
  | nil => exact not_blank_nil
  | cons x u => exact not_blank_of_mem (List.mem_cons_self) fun e => h.1 (by simp [e])

theorem Trimmed.not_blank_last (h : Trimmed pad (u ++ v)) : ¬ Blank pad v := by
  rcases List.eq_nil_or_concat v with rfl | ⟨v, x, rfl⟩
  · exact not_blank_nil
  · exact not_blank_of_mem (x := x) (by simp) fun e => h.2 (by simp [e])

theorem intercalate_cons (u v : List α) (ws : List (List α)) :
    [c].intercalate (u :: v :: ws) = u ++ c :: [c].intercalate (v :: ws) := by
  simp [List.intercalate_cons_cons]

theorem not_mem_intercalate {ws : List (List α)} (hc : x ≠ c) (h : ∀ w ∈ ws, x ∉ w) :
    x ∉ [c].intercalate ws := by
  induction ws with
  | nil => simp
  | cons w ws ih =>
    rw [List.forall_mem_cons] at h
    cases ws with
    | nil => simpa using h.1
    | cons v ws =>
      rw [intercalate_cons, List.mem_append, List.mem_cons, not_or, not_or]
      exact ⟨h.1, hc, ih h.2⟩

variable [DecidableEq α]

/-- The piece in front of the first `c`. -/
def upTo (c : α) (t : List α) : List α := t.take (t.idxOf c)

/-- The piece behind the first `c`. -/
def behind (c : α) (t : List α) : List α := t.drop (t.idxOf c + 1)

/-- A list without the padding at its ends. -/
def strip (pad : α) (w : List α) : List α := (w.dropWhile (· == pad)).rdropWhile (· == pad)

theorem idxOf_append_cons (h : c ∉ u) : (u ++ c :: v).idxOf c = u.length := by
  rw [List.idxOf_append_of_notMem h, List.idxOf_cons_self, Nat.add_zero]

theorem upTo_append (h : c ∉ u) : upTo c (u ++ c :: v) = u := by
  rw [upTo, idxOf_append_cons h, List.take_left']
  rfl

theorem behind_append (h : c ∉ u) : behind c (u ++ c :: v) = v := by
  have hlen : u.length + 1 = (u ++ [c]).length := by simp
  have hsplit : u ++ c :: v = (u ++ [c]) ++ v := by simp
  rw [behind, idxOf_append_cons h, hlen, hsplit, List.drop_left']
  rfl

theorem behind_length (h : c ∈ t) : (behind c t).length < t.length := by
  have hlt := List.idxOf_lt_length_of_mem h
  simp only [behind, List.length_drop]
  omega

theorem upTo_length (h : c ∈ t) : (upTo c t).length < t.length := by
  have hlt := List.idxOf_lt_length_of_mem h
  simp only [upTo, List.length_take]
  omega

/-- A trimmed list with a separator is two pieces around the first one, neither of them
blank. -/
theorem Trimmed.cut (h : Trimmed pad t) (hc : c ∈ t) :
    ∃ u v, t = u ++ c :: v ∧ c ∉ u ∧ upTo c t = u ∧ behind c t = v ∧
      ¬ Blank pad u ∧ ¬ Blank pad v := by
  obtain ⟨u, v, rfl, hu⟩ := List.eq_append_cons_of_mem hc
  have hlast : Trimmed pad ((u ++ [c]) ++ v) := by simpa using h
  exact ⟨u, v, rfl, hu, upTo_append hu, behind_append hu, h.not_blank_first, hlast.not_blank_last⟩

theorem mem_takeWhile_pad (h : x ∈ w.takeWhile (· == pad)) : x = pad := by
  simpa using List.mem_takeWhile_imp h

theorem strip_spec (pad : α) (w : List α) :
    ∃ a b, w = List.replicate a pad ++ (strip pad w ++ List.replicate b pad) := by
  have hleft := List.eq_replicate_of_mem fun x (hx : x ∈ w.takeWhile (· == pad)) =>
    mem_takeWhile_pad hx
  have hright := List.eq_replicate_of_mem
    fun x (hx : x ∈ (w.dropWhile (· == pad)).rtakeWhile (· == pad)) =>
      (by simpa using List.mem_rtakeWhile_imp hx : x = pad)
  refine ⟨(w.takeWhile (· == pad)).length,
    ((w.dropWhile (· == pad)).rtakeWhile (· == pad)).length, ?_⟩
  rw [← hleft, ← hright, strip, List.rdropWhile_append_rtakeWhile,
    List.takeWhile_append_dropWhile]

theorem strip_length_le (pad : α) (w : List α) : (strip pad w).length ≤ w.length := by
  obtain ⟨a, b, h⟩ := strip_spec pad w
  have hlen := congrArg List.length h
  simp only [List.length_append, List.length_replicate] at hlen
  omega

theorem mem_of_mem_strip (h : x ∈ strip pad w) : x ∈ w := by
  obtain ⟨a, b, hw⟩ := strip_spec pad w
  rw [hw]
  simp [h]

theorem strip_eq_nil_iff : strip pad w = [] ↔ ∀ x ∈ w, x = pad := by
  constructor
  · intro h
    obtain ⟨a, b, hw⟩ := strip_spec pad w
    rw [h] at hw
    intro x hx
    rw [hw] at hx
    simp only [List.nil_append, List.mem_append, List.mem_replicate] at hx
    rcases hx with hx | hx <;> exact hx.2
  · intro h
    rw [strip, List.rdropWhile_eq_nil_iff]
    intro x hx
    simpa using h x ((List.dropWhile_suffix _).subset hx)

theorem trimmed_strip (pad : α) (w : List α) : Trimmed pad (strip pad w) := by
  constructor
  · intro h
    have hpre : strip pad w <+: w.dropWhile (· == pad) := List.rdropWhile_prefix _ _
    obtain ⟨rest, hrest⟩ := hpre
    have hhead : (w.dropWhile (· == pad)).head? = some pad := by
      rw [← hrest, List.head?_append, h]
      rfl
    have hnot := List.head?_dropWhile_not (· == pad) w
    rw [hhead] at hnot
    simp at hnot
  · intro h
    have hne : strip pad w ≠ [] := by
      intro h0
      rw [h0] at h
      cases h
    have hnot := List.rdropWhile_last_not (· == pad) (w.dropWhile (· == pad)) hne
    rw [List.getLast?_eq_some_getLast hne, Option.some.injEq] at h
    exact hnot (beq_iff_eq.mpr h)

theorem Trimmed.dropWhile (h : Trimmed pad t) (v : List α) (ht : t ≠ []) :
    (t ++ v).dropWhile (· == pad) = t ++ v := by
  obtain ⟨x, t, rfl⟩ := List.exists_cons_of_ne_nil ht
  have hx : x ≠ pad := fun e => h.1 (by simp [e])
  rw [List.cons_append, List.dropWhile_cons_of_neg (by simpa using hx)]

theorem dropWhile_replicate_append (a : Nat) (v : List α) :
    (List.replicate a pad ++ v).dropWhile (· == pad) = v.dropWhile (· == pad) := by
  induction a with
  | zero => rfl
  | succ a ih => rw [List.replicate_succ, List.cons_append, List.dropWhile_cons_of_pos (by simp), ih]

theorem rdropWhile_append_replicate (b : Nat) (v : List α) :
    (v ++ List.replicate b pad).rdropWhile (· == pad) = v.rdropWhile (· == pad) := by
  induction b with
  | zero => simp
  | succ b ih =>
    rw [List.replicate_succ', ← List.append_assoc, List.rdropWhile_concat_pos _ _ _ (by simp), ih]

/-- Stripping finds what was padded. -/
theorem Trimmed.strip_padded (h : Trimmed pad t) (a b : Nat) :
    strip pad (List.replicate a pad ++ (t ++ List.replicate b pad)) = t := by
  rw [strip, dropWhile_replicate_append]
  by_cases ht : t = []
  · subst ht
    rw [List.rdropWhile_eq_nil_iff]
    intro x hx
    have hx' := (List.dropWhile_suffix _).subset hx
    simp only [List.nil_append, List.mem_replicate] at hx'
    simpa using hx'.2
  · rw [h.dropWhile _ ht, rdropWhile_append_replicate, List.rdropWhile_eq_self_iff]
    intro hl hlast
    apply h.2
    rw [List.getLast?_eq_some_getLast hl]
    simpa using hlast

theorem Trimmed.strip_eq (h : Trimmed pad t) : strip pad t = t := by
  simpa using h.strip_padded 0 0

theorem strip_dropWhile (pad : α) (w : List α) :
    strip pad (w.dropWhile (· == pad)) = strip pad w := by
  rw [strip, List.dropWhile_idempotent, strip]

theorem strip_rdropWhile (pad : α) (w : List α) :
    strip pad (w.rdropWhile (· == pad)) = strip pad w := by
  obtain ⟨a, b, h⟩ := strip_spec pad (w.rdropWhile (· == pad))
  have hright := List.eq_replicate_of_mem fun x (hx : x ∈ w.rtakeWhile (· == pad)) =>
    (by simpa using List.mem_rtakeWhile_imp hx : x = pad)
  have hw : w = List.replicate a pad ++ (strip pad (w.rdropWhile (· == pad)) ++
      List.replicate (b + (w.rtakeWhile (· == pad)).length) pad) :=
    calc w = w.rdropWhile (· == pad) ++ w.rtakeWhile (· == pad) :=
          (List.rdropWhile_append_rtakeWhile).symm
      _ = (List.replicate a pad ++ (strip pad (w.rdropWhile (· == pad)) ++ List.replicate b pad)) ++
          List.replicate (w.rtakeWhile (· == pad)).length pad := by rw [← h, ← hright]
      _ = _ := by rw [List.append_assoc, List.append_assoc, List.replicate_append_replicate]
  conv_rhs => rw [hw, (trimmed_strip pad _).strip_padded]

/-- Around another element than the padding each piece is trimmed at its outer end. -/
theorem strip_append_cons (hc : c ≠ pad) :
    strip pad (u ++ c :: v) = u.dropWhile (· == pad) ++ c :: v.rdropWhile (· == pad) := by
  have hcons : ∀ y : List α, (c :: y).dropWhile (· == pad) = c :: y := fun y =>
    List.dropWhile_cons_of_neg (by simpa using hc)
  have hleft : ∀ x y : List α, (x ++ c :: y).dropWhile (· == pad) = x.dropWhile (· == pad) ++ c :: y := by
    intro x y
    rw [List.dropWhile_append, hcons]
    split
    · next h => rw [List.isEmpty_iff.mp h, List.nil_append]
    · rfl
  have hrev : (u.dropWhile (· == pad) ++ c :: v).reverse =
      v.reverse ++ c :: (u.dropWhile (· == pad)).reverse := by simp
  rw [strip, hleft, List.rdropWhile, hrev, hleft]
  simp [List.rdropWhile]

/-- The longest parts of a list without the padding, in order. -/
def words (pad : α) (w : List α) : List (List α) := (w.splitOn pad).filter (· ≠ [])

/-- Cut at the first separator. -/
theorem splitOn_cut (hu : c ∉ u) : (u ++ c :: v).splitOn c = u :: v.splitOn c :=
  List.splitOnP_append_cons_of_forall_mem (fun x hx => by simpa using fun e : x = c => hu (e ▸ hx)) c
    (by simp) v

theorem splitOn_pad (w : List α) : (pad :: w).splitOn pad = [] :: w.splitOn pad := by
  simp [List.splitOn, List.splitOnP_cons_eq_if_modifyHead]

theorem splitOn_other (hx : x ≠ pad) (w : List α) :
    (x :: w).splitOn pad = (w.splitOn pad).modifyHead (List.cons x) := by
  simp [List.splitOn, List.splitOnP_cons_eq_if_modifyHead, hx]

theorem splitOn_append_pad (w : List α) : (w ++ [pad]).splitOn pad = w.splitOn pad ++ [[]] := by
  induction w with
  | nil => exact splitOn_pad []
  | cons x w ih =>
    by_cases hx : x = pad
    · rw [hx, List.cons_append, splitOn_pad, splitOn_pad, ih, List.cons_append]
    · obtain ⟨u, us, hsplit⟩ := List.exists_cons_of_ne_nil (List.splitOn_ne_nil pad w)
      rw [List.cons_append, splitOn_other hx, splitOn_other hx, ih, hsplit]
      rfl

theorem words_padded (a b : Nat) (t : List α) :
    words pad (List.replicate a pad ++ (t ++ List.replicate b pad)) = words pad t := by
  induction a with
  | zero =>
    induction b with
    | zero => simp
    | succ b ih =>
      have hlast : t ++ List.replicate (b + 1) pad = t ++ List.replicate b pad ++ [pad] := by
        simp [List.replicate_succ']
      rw [← ih, hlast, List.replicate_zero, List.nil_append, List.nil_append, words, splitOn_append_pad]
      simp [words]
  | succ a ih =>
    rw [← ih, List.replicate_succ, List.cons_append]
    simp [words, splitOn_pad]

theorem words_strip (pad : α) (w : List α) : words pad (strip pad w) = words pad w := by
  obtain ⟨a, b, hw⟩ := strip_spec pad w
  conv_rhs => rw [hw, words_padded]

/-- An empty piece lies between two paddings that follow each other. -/
theorem nil_mem_tail_splitOn (h : t.getLast? ≠ some pad) :
    [] ∈ (t.splitOn pad).tail ↔ [pad, pad] <:+: t := by
  induction t with
  | nil => simp
  | cons x t ih =>
    rw [List.infix_cons_iff]
    by_cases hx : x = pad
    · subst hx
      cases t with
      | nil => simp at h
      | cons y t =>
        rw [List.getLast?_cons_cons] at h
        rw [splitOn_pad, List.tail_cons, ← ih h]
        by_cases hy : y = x
        · simp [hy, splitOn_pad]
        · obtain ⟨u, us, hsplit⟩ := List.exists_cons_of_ne_nil (List.splitOn_ne_nil x t)
          simp [splitOn_other hy, hsplit, Ne.symm hy]
    · obtain ⟨u, us, hsplit⟩ := List.exists_cons_of_ne_nil (List.splitOn_ne_nil pad t)
      have hlast : t.getLast? ≠ some pad := by
        intro ht
        exact h (by simp [List.getLast?_cons, ht])
      have htail : ((x :: t).splitOn pad).tail = (t.splitOn pad).tail := by
        rw [splitOn_other hx, hsplit]
        rfl
      rw [htail, ih hlast]
      simp [Ne.symm hx]

/-- Cutting at every padding finds the words if the padding is single. -/
theorem Trimmed.splitOn_eq_words_iff (h : Trimmed pad t) (ht : t ≠ []) :
    t.splitOn pad = words pad t ↔ ¬ [pad, pad] <:+: t := by
  obtain ⟨x, t, rfl⟩ := List.exists_cons_of_ne_nil ht
  have hx : x ≠ pad := fun hx => h.1 (by simp [hx])
  obtain ⟨u, us, hsplit⟩ := List.exists_cons_of_ne_nil (List.splitOn_ne_nil pad t)
  have hall : (x :: t).splitOn pad = (x :: u) :: us := by
    rw [splitOn_other hx, hsplit]
    rfl
  rw [← nil_mem_tail_splitOn h.2, eq_comm, words, List.filter_eq_self, hall]
  simp only [List.mem_cons, List.tail_cons, forall_eq_or_imp, decide_eq_true_eq, ne_eq, reduceCtorEq,
    not_false_eq_true, true_and]
  exact ⟨fun hne hmem => hne [] hmem rfl, fun hmem l hl heq => hmem (heq ▸ hl)⟩

end Xv6.Library.Pieces
