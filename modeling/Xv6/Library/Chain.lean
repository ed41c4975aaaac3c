import Mathlib.Data.List.Chain
import Mathlib.Data.List.Nodup
import Mathlib.Data.List.Perm.Basic

/-!
# Cycles of pointers

A list of cells in which each one points to the next, and the last one of a cycle to the first. A
cycle may be entered at any of its cells, and the loop that follows the pointers until a condition
holds finds a cell if there is one.
-/
namespace Xv6.Library.Chain

variable {α : Type}

/-- Each cell of the list points to the one behind it. -/
abbrev Linked (next : α → α) (l : List α) : Prop := l.IsChain fun x y => next x = y

/-- The cells of `l` lie on a cycle through `a`. -/
def Cycle (next : α → α) (a : α) (l : List α) : Prop := Linked next (a :: (l ++ [a]))

variable {next next' : α → α} {a b z : α} {l r : List α}

/-- Where the last cell points does not matter. -/
theorem Linked.frame (h : Linked next l) (hsame : ∀ x ∈ l.dropLast, next' x = next x) : Linked next' l := by
  induction h with
  | nil => exact .nil
  | singleton a => exact .singleton a
  | @cons_cons a b l hab _ ih =>
    refine .cons_cons ((hsame a ?_).trans hab) (ih fun x hx => hsame x ?_)
    · exact List.mem_cons_self
    · exact List.mem_cons_of_mem a hx

/-- A cell in front points to the first one. -/
theorem linked_cons_iff : Linked next (a :: (l ++ [z])) ↔ next a = l.headD z ∧ Linked next (l ++ [z]) := by
  cases l <;> exact List.isChain_cons_cons

theorem linked_split : Linked next (l ++ a :: r) ↔ Linked next (l ++ [a]) ∧ Linked next (a :: r) := List.isChain_split

section update

variable [DecidableEq α] {p : α} {u v : List α}

/-- A cell elsewhere, or the last one, is made to point somewhere else. -/
theorem Linked.update (h : Linked next (u ++ [z])) (hb : b ∉ u) (c : α) :
    Linked (Function.update next b c) (u ++ [z]) := by
  refine h.frame fun x hx => Function.update_of_ne (fun heq => hb ?_) _ _
  rw [List.dropLast_concat] at hx
  rwa [← heq]

/-- The cell `p` is made to point to the first cell of `v`. -/
theorem Linked.relink (hu : Linked next (u ++ [p])) (hv : Linked next (v ++ [z])) (hpu : p ∉ u) (hpv : p ∉ v) :
    Linked (Function.update next p (v.headD z)) (u ++ p :: (v ++ [z])) :=
  linked_split.2 ⟨hu.update hpu _, linked_cons_iff.2 ⟨Function.update_self .., hv.update hpv _⟩⟩

/-- A new cell `b` is put between `p` and the cells of `v`. -/
theorem Linked.insert (hu : Linked next (u ++ [p])) (hv : Linked next (v ++ [z])) (hpu : p ∉ u) (hpv : p ∉ v)
    (hbu : b ∉ u) (hbv : b ∉ v) (hpb : p ≠ b) :
    Linked (Function.update (Function.update next b (v.headD z)) p b) (u ++ p :: (b :: v ++ [z])) := by
  have hbv' : Linked (Function.update next b (v.headD z)) (b :: v ++ [z]) :=
    linked_cons_iff.2 ⟨Function.update_self .., hv.update hbv _⟩
  exact (hu.update hbu _).relink hbv' hpu (List.not_mem_cons_of_ne_of_not_mem hpb hpv)

end update

theorem Linked.map_next (h : Linked next (a :: (l ++ [z]))) : (a :: l).map next = l ++ [z] := by
  induction l generalizing a with
  | nil => rw [List.map_singleton, (List.isChain_cons_cons.1 h).1, List.nil_append]
  | cons b l ih =>
    obtain ⟨hab, hrest⟩ := List.isChain_cons_cons.1 h
    rw [List.map_cons, hab, ih hrest, List.cons_append]

/-- A cell of a cycle has one predecessor in it. -/
theorem Cycle.next_inj (h : Cycle next a l) (hnodup : (a :: l).Nodup) {x y : α} (hx : x ∈ a :: l) (hy : y ∈ a :: l)
    (heq : next x = next y) : x = y := by
  have hmap : ((a :: l).map next).Nodup := by
    rw [h.map_next]
    exact (List.perm_append_singleton a l).nodup_iff.2 hnodup
  exact List.inj_on_of_nodup_map hmap hx hy heq

theorem Cycle.rotate (h : Cycle next a (l ++ b :: r)) : Cycle next b (r ++ a :: l) := by
  have hsplit : Linked next ((a :: l) ++ b :: (r ++ [a])) := by
    rw [Cycle, List.append_assoc, List.cons_append] at h
    exact h
  obtain ⟨hfirst, hlast⟩ := linked_split.1 hsplit
  have hjoin : Linked next ((b :: r) ++ a :: (l ++ [b])) := linked_split.2 ⟨hlast, hfirst⟩
  rw [Cycle, List.append_assoc]
  exact hjoin

theorem Cycle.start (h : Cycle next a l) (hb : b ∈ a :: l) : ∃ r, Cycle next b r ∧ (b :: r).Perm (a :: l) := by
  rcases List.mem_cons.1 hb with rfl | hb
  · exact ⟨l, h, .refl _⟩
  · obtain ⟨l₁, l₂, rfl⟩ := List.append_of_mem hb
    refine ⟨l₂ ++ a :: l₁, h.rotate, ?_⟩
    have hrot : ((b :: l₂) ++ (a :: l₁)).Perm ((a :: l₁) ++ (b :: l₂)) := List.perm_append_comm
    exact hrot

section search

variable (next) (stop : α → Prop) [DecidablePred stop]

def search : Nat → α → Option α
  | 0, _ => none
  | n + 1, a => if stop a then some a else search n (next a)

variable {next stop}

theorem search_found (h : Linked next (a :: (l ++ [z]))) (hex : ∃ x ∈ a :: l, stop x) {n : Nat} (hn : l.length < n) :
    ∃ x ∈ a :: l, stop x ∧ search next stop n a = some x := by
  induction l generalizing a n with
  | nil =>
    obtain ⟨n, rfl⟩ : ∃ k, n = k + 1 := ⟨n - 1, by omega⟩
    obtain ⟨x, hx, hstop⟩ := hex
    obtain rfl := List.mem_singleton.1 hx
    exact ⟨x, hx, hstop, if_pos hstop⟩
  | cons b l ih =>
    rw [List.length_cons] at hn
    obtain ⟨n, rfl⟩ : ∃ k, n = k + 1 := ⟨n - 1, by omega⟩
    by_cases hstop : stop a
    · exact ⟨a, List.mem_cons_self, hstop, if_pos hstop⟩
    · obtain ⟨hab, hrest⟩ := List.isChain_cons_cons.1 h
      have hex' : ∃ x ∈ b :: l, stop x := by
        obtain ⟨x, hx, hsx⟩ := hex
        rcases List.mem_cons.1 hx with rfl | hx
        · exact absurd hsx hstop
        · exact ⟨x, hx, hsx⟩
      obtain ⟨x, hx, hsx, hfound⟩ := ih hrest hex' (n := n) (by omega)
      refine ⟨x, List.mem_cons_of_mem a hx, hsx, ?_⟩
      rw [search, if_neg hstop, hab, hfound]

end search

end Xv6.Library.Chain
