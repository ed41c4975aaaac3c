import Xv6.Vm.Pages

/-!
# Freeing page tables

`freewalk` gives back all pages of a table that maps nothing.
-/
namespace Xv6.Vm

open Xv6.Library.Total Xv6.Source.Vm

/-- A program that gives back the pages in `own`. -/
def Frees (p : Prog Unit) (own : Multiset Nat) : Prop :=
  ∀ m : Mem, (∀ pa ∈ own, IsPage m.ram pa) → Ends p m fun _ m' => memory.Moves m own m' 0

variable {p q : Prog Unit} {a b : Multiset Nat}

theorem Frees.kfree (pa : Nat) : Frees (kfree pa) {pa} :=
  fun _ h => kfree_spec (h pa (Multiset.mem_singleton_self pa))

theorem Frees.skip : Frees (pure ()) 0 := fun m _ => .ret (.refl m 0)

theorem Frees.seq (hp : Frees p a) (hq : Frees q b) : Frees (do p; q) (a + b) := by
  intro m h
  refine .bind (hp m fun pa hpa => h pa (Multiset.mem_add.2 (.inl hpa))) fun _ m₁ h₁ => ?_
  have hram : m₁.ram = m.ram := h₁.fixed
  refine (hq m₁ fun pa hpa => ?_).mono fun _ m₂ h₂ => (h₁.frame b).trans ?_
  · rw [hram]
    exact h pa (Multiset.mem_add.2 (.inr hpa))
  · rw [zero_add]
    exact h₂

/-! ## From entry to entry -/

variable {α : Type} {free : α → Prog Unit} {sub : α → Multiset Nat}

theorem freeChildren_frees {entry : Fin 512 → Option α} (h : ∀ i x, entry i = some x → Frees (free x) (sub x))
    (is : List (Fin 512)) : Frees (freeChildren free entry is) (is.map fun i => (entry i).elim 0 sub).sum := by
  induction is with
  | nil => exact .skip
  | cons i is ih =>
    rw [freeChildren, List.map_cons, List.sum_cons]
    cases hx : entry i with
    | none => exact .seq .skip ih
    | some x => exact .seq (h i x hx) ih

theorem table_frees {t : Table (Option α)} (h : ∀ i x, t.entry i = some x → Frees (free x) (sub x)) :
    Frees (do freeChildren free t.entry (List.finRange 512); kfree t.page) (Table.owned sub t) := by
  rw [owned_eq_list]
  exact .seq (freeChildren_frees h _) (.kfree t.page)

theorem checkLeaves_eq {l : Leaves} (h : ∀ i, l.entry i &&& PTE_V = 0) (is : List (Fin 512)) :
    checkLeaves l is = pure () := by
  induction is with
  | nil => rfl
  | cons i is ih =>
    rw [checkLeaves, if_neg (fun hne => hne (h i))]
    exact ih

theorem freewalkLeaves_frees {l : Leaves} (h : ∀ i, l.entry i &&& PTE_V = 0) : Frees (freewalkLeaves l) (leavesPages l) := by
  rw [freewalkLeaves, checkLeaves_eq h]
  exact .kfree l.page

theorem freewalk_frees {t : Pagetable} (h : ∀ i, t.get i = 0) : Frees (freewalk t) (tables t) := by
  refine table_frees fun two mid hmid => table_frees fun one l hl => freewalkLeaves_frees fun zero => ?_
  have hget := h ⟨two, one, zero⟩
  rw [get_eq, hmid] at hget
  have hleaf : leafGet (mid.entry one) zero = 0 := hget
  rw [hl] at hleaf
  have hentry : l.entry zero = 0 := hleaf
  rw [hentry]
  rfl

/-- Page by page. -/
theorem get_zero_of_pte {t : Pagetable} (h : ∀ v < pages, pte t v = 0) (i : Index) : t.get i = 0 := by
  obtain ⟨v, hv, rfl⟩ := exists_entryOf i
  exact h v hv

end Xv6.Vm
