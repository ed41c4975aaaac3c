import Mathlib.Data.List.Nodup
import Mathlib.Logic.Function.Basic

/-!
# Circular doubly linked lists through a sentinel

A cell is an element of `α` or the sentinel, written `none`. `Seg k x l y` says
that the links `k` lead from `x` through the cells of `l` to `y`, and back again
along `prev`; a ring is a segment from the sentinel to itself. The two pointer
updates of an intrusive list, unlinking a cell and inserting it behind the
sentinel, are characterized by the list they leave, and the loop that walks the
ring until it is back at the sentinel is `List.find?` on that list.
-/
namespace Xv6.Library.Ring

variable {α : Type}

structure Links (α : Type) where
  next : Option α → Option α
  prev : Option α → Option α

/-- The sentinel linked to itself. -/
def empty : Links α := ⟨fun _ => none, fun _ => none⟩

section pointers
variable [DecidableEq α]

def setNext (k : Links α) (x y : Option α) : Links α :=
  { k with next := Function.update k.next x y }

def setPrev (k : Links α) (x y : Option α) : Links α :=
  { k with prev := Function.update k.prev x y }

/-- The neighbours of `b` are linked to each other; the links of `b` itself stay. -/
def unlink (k : Links α) (b : α) : Links α :=
  let k := setPrev k (k.next (some b)) (k.prev (some b))
  setNext k (k.prev (some b)) (k.next (some b))

/-- `b` becomes the first cell behind the sentinel. -/
def insertFront (k : Links α) (b : α) : Links α :=
  let k := setNext k (some b) (k.next none)
  let k := setPrev k (some b) none
  let k := setPrev k (k.next none) (some b)
  setNext k none (some b)

end pointers

def Seg (k : Links α) : Option α → List α → Option α → Prop
  | x, [], y => k.next x = y ∧ k.prev y = x
  | x, a :: l, y => k.next x = some a ∧ k.prev (some a) = x ∧ Seg k (some a) l y

/-- The cells of `l` are on the ring, each once, in this order. -/
structure IsRing (k : Links α) (l : List α) : Prop where
  nodup : l.Nodup
  seg : Seg k none l none

theorem Seg.append {k : Links α} {a : α} {l₁ l₂ : List α} {x y : Option α} :
    Seg k x (l₁ ++ a :: l₂) y ↔ Seg k x l₁ (some a) ∧ Seg k (some a) l₂ y := by
  induction l₁ generalizing x with
  | nil => simp [Seg, and_assoc]
  | cons c l₁ ih => simp [Seg, ih, and_assoc]

/-- A segment depends on the `next` links of its start and cells and on the
`prev` links of its cells and end only. -/
theorem Seg.congr {k k' : Links α} {l : List α} {x y : Option α} (h : Seg k x l y)
    (hn : ∀ z, z = x ∨ z ∈ l.map some → k'.next z = k.next z)
    (hp : ∀ z, z = y ∨ z ∈ l.map some → k'.prev z = k.prev z) : Seg k' x l y := by
  induction l generalizing x with
  | nil =>
    simp only [Seg] at h ⊢
    rw [hn x (Or.inl rfl), hp y (Or.inl rfl)]
    exact h
  | cons a l ih =>
    obtain ⟨h₁, h₂, h₃⟩ := h
    refine ⟨?_, ?_, ih h₃ ?_ ?_⟩
    · rw [hn x (Or.inl rfl), h₁]
    · rw [hp (some a) (Or.inr (by simp)), h₂]
    · intro z hz
      apply hn
      rcases hz with rfl | hz <;> simp_all
    · intro z hz
      apply hp
      rcases hz with rfl | hz <;> simp_all

/-- The last cell before the end is what `prev` of the end says. -/
theorem Seg.prev_end {k : Links α} {l : List α} {x y : Option α} (h : Seg k x l y) :
    k.prev y = x ∧ l = [] ∨ ∃ a ∈ l, k.prev y = some a := by
  induction l generalizing x with
  | nil => exact Or.inl ⟨h.2, rfl⟩
  | cons a l ih =>
    rcases ih h.2.2 with ⟨hp, -⟩ | ⟨c, hc, hp⟩
    · exact Or.inr ⟨a, by simp, hp⟩
    · exact Or.inr ⟨c, by simp [hc], hp⟩

theorem Seg.next_start {k : Links α} {l : List α} {x y : Option α} (h : Seg k x l y) :
    k.next x = l.head?.or y := by
  cases l with
  | nil => exact h.1
  | cons a l => exact h.1

theorem isRing_empty : IsRing (empty : Links α) [] := ⟨List.nodup_nil, rfl, rfl⟩

/-- The loop that follows one direction of the ring from a cell until it is back
at the sentinel, and stops at the first cell with `p`. The outer `none` is a loop
that is still running when the fuel is used up. -/
def search (step : Option α → Option α) (p : α → Bool) : Nat → Option α → Option (Option α)
  | 0, _ => none
  | _ + 1, none => some none
  | fuel + 1, some a => if p a then some (some a) else search step p fuel (step (some a))

theorem Seg.search_next {k : Links α} {l : List α} {x : Option α} (h : Seg k x l none)
    (p : α → Bool) (fuel : Nat) (hf : l.length < fuel) :
    search k.next p fuel (k.next x) = some (l.find? p) := by
  induction l generalizing x fuel with
  | nil =>
    cases fuel with
    | zero => omega
    | succ fuel => rw [h.1]; rfl
  | cons a l ih =>
    cases fuel with
    | zero => omega
    | succ fuel =>
      obtain ⟨hn, -, hs⟩ := h
      rw [hn, search, List.find?_cons]
      split
      · next hp => simp [hp]
      · next hp =>
        simp only [List.length_cons] at hf
        rw [ih hs fuel (by omega)]
        simp [hp]

/-- Reading a segment backwards exchanges the two links. -/
theorem Seg.flip {k : Links α} {l : List α} {x y : Option α} (h : Seg k x l y) :
    Seg ⟨k.prev, k.next⟩ y l.reverse x := by
  induction l generalizing x with
  | nil => exact ⟨h.2, h.1⟩
  | cons a l ih =>
    obtain ⟨hn, hp, hs⟩ := h
    rw [List.reverse_cons]
    exact Seg.append.mpr ⟨ih hs, hp, hn⟩

theorem IsRing.search_next {k : Links α} {l : List α} (h : IsRing k l) (p : α → Bool)
    (fuel : Nat) (hf : l.length < fuel) :
    search k.next p fuel (k.next none) = some (l.find? p) :=
  h.seg.search_next p fuel hf

theorem IsRing.search_prev {k : Links α} {l : List α} (h : IsRing k l) (p : α → Bool)
    (fuel : Nat) (hf : l.length < fuel) :
    search k.prev p fuel (k.prev none) = some (l.reverse.find? p) :=
  h.seg.flip.search_next p fuel (by simpa using hf)

section pointers
variable [DecidableEq α]

private theorem unlink_next (k : Links α) (b : α) (z : Option α) (hb : k.next (some b) ≠ some b) :
    (unlink k b).next z = if z = k.prev (some b) then k.next (some b) else k.next z := by
  simp [unlink, setNext, setPrev, Function.update, Ne.symm hb]

private theorem unlink_prev (k : Links α) (b : α) (z : Option α) :
    (unlink k b).prev z = if z = k.next (some b) then k.prev (some b) else k.prev z := by
  simp [unlink, setNext, setPrev, Function.update]

/-- Unlinking joins the segments before and behind the cell. The start and the
end may be the same sentinel, so only the inner cells are required distinct. -/
theorem Seg.unlink {k : Links α} {b : α} {l₁ l₂ : List α} {x y : Option α}
    (h₁ : Seg k x l₁ (some b)) (h₂ : Seg k (some b) l₂ y)
    (hnd : (l₁ ++ b :: l₂).Nodup) (hx : x ∉ (l₁ ++ b :: l₂).map some)
    (hy : y ∉ (l₁ ++ b :: l₂).map some) : Seg (unlink k b) x (l₁ ++ l₂) y := by
  have hself : k.next (some b) ≠ some b := by
    rw [h₂.next_start]
    cases l₂ with
    | nil => intro hc; simp only [List.head?_nil, Option.none_or] at hc; simp [hc] at hy
    | cons c l₂ =>
      intro hc
      simp only [List.head?_cons, Option.some_or, Option.some.injEq] at hc
      simp [hc, List.nodup_append] at hnd
  induction l₁ generalizing x with
  | nil =>
    obtain ⟨hn, hp⟩ := h₁
    cases l₂ with
    | nil =>
      obtain ⟨hn', hp'⟩ := h₂
      exact ⟨by rw [unlink_next _ _ _ hself]; simp [hp, hn'], by rw [unlink_prev]; simp [hn', hp]⟩
    | cons c l₂ =>
      obtain ⟨hn', hp', hs⟩ := h₂
      refine ⟨by rw [unlink_next _ _ _ hself]; simp [hp, hn'],
        by rw [unlink_prev]; simp [hn', hp], hs.congr ?_ ?_⟩
      · intro z hz
        rw [unlink_next _ _ _ hself, if_neg]
        rw [hp]
        rcases hz with rfl | hz <;> (rintro rfl; simp_all)
      · intro z hz
        rw [unlink_prev, if_neg]
        rw [hn']
        rcases hz with rfl | hz <;> (rintro rfl; simp_all)
  | cons a l₁ ih =>
    obtain ⟨hn, hp, hs⟩ := h₁
    simp only [List.cons_append, List.nodup_cons] at hnd
    refine ⟨?_, ?_, ih hs hnd.2 ?_ ?_⟩
    · rw [unlink_next _ _ _ hself, if_neg, hn]
      rcases hs.prev_end with ⟨he, -⟩ | ⟨c, hc, he⟩ <;> (rw [he]; rintro rfl; simp_all)
    · rw [unlink_prev, if_neg, hp]
      rw [h₂.next_start]
      cases l₂ with
      | nil => rintro hc; simp_all
      | cons c l₂ => rintro hc; simp_all
    · simpa using hnd.1
    · simp_all

theorem IsRing.unlink {k : Links α} {b : α} {l₁ l₂ : List α} (h : IsRing k (l₁ ++ b :: l₂)) :
    IsRing (unlink k b) (l₁ ++ l₂) := by
  obtain ⟨h₁, h₂⟩ := Seg.append.mp h.seg
  refine ⟨h.nodup.sublist ?_, h₁.unlink h₂ h.nodup (by simp) (by simp)⟩
  exact List.Sublist.append_left (List.sublist_cons_self b l₂) l₁

/-- Inserting behind the sentinel puts the cell in front of the list. -/
theorem IsRing.insertFront {k : Links α} {b : α} {l : List α} (h : IsRing k l) (hb : b ∉ l) :
    IsRing (insertFront k b) (b :: l) := by
  obtain ⟨hnd, hs⟩ := h
  refine ⟨List.nodup_cons.mpr ⟨hb, hnd⟩, ?_, ?_, ?_⟩
  · simp [Ring.insertFront, setNext, setPrev]
  · have hne : some b ≠ k.next none := by
      rw [hs.next_start]
      cases l with
      | nil => simp
      | cons c l => intro hc; simp_all
    simp [Ring.insertFront, setNext, setPrev, Function.update, hne]
  · cases l with
    | nil =>
      have hn : k.next none = none := hs.1
      simp [Seg, Ring.insertFront, setNext, setPrev, Function.update, hn]
    | cons c l =>
      obtain ⟨hn, hp, hs⟩ := hs
      have hcb : c ≠ b := by rintro rfl; simp at hb
      refine ⟨?_, ?_, hs.congr ?_ ?_⟩
      · simp [Ring.insertFront, setNext, setPrev, Function.update, hn]
      · simp [Ring.insertFront, setNext, setPrev, Function.update, hn]
      · intro z hz
        have h₁ : z ≠ none := by rcases hz with rfl | hz <;> (intro he; simp_all)
        have h₂ : z ≠ some b := by rcases hz with rfl | hz <;> (intro he; simp_all)
        simp [Ring.insertFront, setNext, setPrev, Function.update, h₁, h₂]
      · intro z hz
        have h₁ : z ≠ some c := by rcases hz with rfl | hz <;> (intro he; simp_all)
        have h₂ : z ≠ some b := by rcases hz with rfl | hz <;> (intro he; simp_all)
        simp [Ring.insertFront, setNext, setPrev, Function.update, hn, h₁, h₂]

end pointers

end Xv6.Library.Ring
