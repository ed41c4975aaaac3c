import Xv6.Vm.Pages

/-!
# Ranges of pages

`mappages` maps one page after the other, and stops where `walk` finds no memory for a table.
-/
namespace Xv6.Vm

open Xv6.Library.Total Xv6.Source.Vm

variable {t t' : Pagetable} {m m' : Mem} {v k n pa : Nat} {perm : UInt64}

/-- The first `j` pages from `v` on are mapped to those from `pa` on, and nothing else is changed. -/
def MapsFirst (t : Pagetable) (v pa : Nat) (perm : UInt64) (j : Nat) (t' : Pagetable) : Prop :=
  ∀ w < pages, pte t' w = if v ≤ w ∧ w < v + j then PA2PTE (pa + (w - v) * PGSIZE) ||| perm ||| PTE_V else pte t w

theorem MapsFirst.zero (h : t'.get = t.get) : MapsFirst t v pa perm 0 t' := by
  intro w _
  rw [if_neg (by omega), pte, pte, h]

theorem pa2pte_word (x : Nat) : PA2PTE (word x) = PA2PTE x := by
  rw [← pa2pte_page, ← pa2pte_page x, word, word, Nat.mod_mod]

/-- One page more, at the front. -/
theorem MapsFirst.cons {t₁ : Pagetable} {j : Nat} (hv : v < pages)
    (hget : t₁.get = Function.update t.get (entryOf v) (PA2PTE pa ||| perm ||| PTE_V))
    (h : MapsFirst t₁ (v + 1) (word (pa + PGSIZE)) perm j t') : MapsFirst t v pa perm (j + 1) t' := by
  intro w hw
  rw [h w hw]
  rcases Nat.lt_trichotomy w v with hlt | rfl | hgt
  · rw [if_neg (by omega), if_neg (by omega), pte_of_update hget hv hw, if_neg (by omega)]
  · rw [if_neg (by omega), if_pos (by omega), pte_of_update hget hv hw, if_pos rfl, Nat.sub_self, Nat.zero_mul, Nat.add_zero]
  · by_cases hin : w < v + (j + 1)
    · have hpa : word (word (pa + PGSIZE) + (w - (v + 1)) * PGSIZE) = word (pa + (w - v) * PGSIZE) := by
        rw [word, word, word, Nat.mod_add_mod, Nat.add_assoc, show w - v = w - (v + 1) + 1 by omega, Nat.succ_mul,
          Nat.add_comm PGSIZE]
      rw [if_pos (by omega), if_pos (by omega), ← pa2pte_word, hpa, pa2pte_word]
    · rw [if_neg (by omega), if_neg (by omega), pte_of_update hget hv hw, if_neg (by omega)]

/-- What `mappages` of `k` pages leaves. -/
structure MapsRange (t : Pagetable) (v pa : Nat) (perm : UInt64) (k : Nat) (m : Mem) (r : Int × Pagetable) (m' : Mem) : Prop where
  moves : memory.Moves m (tables t) m' (tables r.2)
  pages : ∃ j, (r.1 = 0 ∧ j = k ∨ r.1 = -1 ∧ j < k) ∧ MapsFirst t v pa perm j r.2

theorem mapLoop_spec (hbound : v + k < vaPages) (hfuel : k < n)
    (hfree : ∀ w, v ≤ w → w ≤ v + k → pte t w &&& PTE_V = 0) (m : Mem) :
    Ends (mapLoop perm ((v + k) * PGSIZE) n t (v * PGSIZE) pa) m (MapsRange t v pa perm (k + 1) m) := by
  induction k generalizing v n t pa m with
  | zero =>
    obtain ⟨n, rfl⟩ : ∃ n', n = n' + 1 := ⟨n - 1, by omega⟩
    refine .bind (walk_spec (lt_maxva.2 (by omega)) m) ?_
    rintro ⟨o, t₁⟩ m₁ ⟨hmoves, hget, rfl | ⟨rfl, hhas⟩⟩
    · exact .ret ⟨hmoves, 0, .inr ⟨rfl, by omega⟩, .zero hget⟩
    · dsimp only at hhas hget hmoves ⊢
      have hunmapped : t₁.get (index (v * PGSIZE)) &&& PTE_V = 0 := by
        rw [hget]
        exact hfree v (by omega) (by omega)
      rw [if_neg (not_not.2 hunmapped), Nat.add_zero, if_pos rfl]
      have hput := get_put hhas (PA2PTE pa ||| perm ||| PTE_V)
      rw [hget] at hput
      refine .ret ⟨by rw [tables_put]; exact hmoves, 1, .inl ⟨rfl, rfl⟩, ?_⟩
      exact .cons (Nat.lt_trans (by omega : v < vaPages) vaPages_lt) hput (.zero rfl)
  | succ k ih =>
    obtain ⟨n, rfl⟩ : ∃ n', n = n' + 1 := ⟨n - 1, by omega⟩
    have hva : v < vaPages := by omega
    have hv : v < Vm.pages := Nat.lt_trans hva vaPages_lt
    refine .bind (walk_spec (lt_maxva.2 hva) m) ?_
    rintro ⟨o, t₁⟩ m₁ ⟨hmoves, hget, rfl | ⟨rfl, hhas⟩⟩
    · exact .ret ⟨hmoves, 0, .inr ⟨rfl, by omega⟩, .zero hget⟩
    · dsimp only at hhas hget hmoves ⊢
      have hunmapped : t₁.get (index (v * PGSIZE)) &&& PTE_V = 0 := by
        rw [hget]
        exact hfree v (by omega) (by omega)
      have hlast : ¬ v * PGSIZE = (v + (k + 1)) * PGSIZE := by
        simp only [PGSIZE]
        omega
      have hput := get_put hhas (PA2PTE pa ||| perm ||| PTE_V)
      rw [hget] at hput
      rw [if_neg (not_not.2 hunmapped), if_neg hlast, next_page hva, show v + (k + 1) = v + 1 + k by omega]
      refine (ih (by omega) (by omega) (fun w hw hw' => ?_) m₁).mono ?_
      · have hw'' : w < Vm.pages := Nat.lt_trans (by omega : w < vaPages) vaPages_lt
        rw [pte_of_update hput hv hw'', if_neg (by omega)]
        exact hfree w (by omega) (by omega)
      · rintro ⟨r, t₂⟩ m₂ ⟨hmoves₂, j, hj, hfirst⟩
        rw [tables_put] at hmoves₂
        exact ⟨hmoves.trans hmoves₂, j + 1, by omega, .cons hv hput hfirst⟩

/-- The pages that hold `size` bytes from `va` on. -/
theorem mappages_range {va size : Nat} (hsize : 0 < size) (hbound : va + size - 1 < MAXVA)
    (hfree : ∀ w, va / PGSIZE ≤ w → w ≤ (va + size - 1) / PGSIZE → pte t w &&& PTE_V = 0) (pa : Nat) (perm : UInt64) (m : Mem) :
    Ends (mappages t va size pa perm) m
      (MapsRange t (va / PGSIZE) pa perm ((va + size - 1) / PGSIZE - va / PGSIZE + 1) m) := by
  have hle : va / PGSIZE ≤ (va + size - 1) / PGSIZE := Nat.div_le_div_right (by omega)
  have hlast : PGROUNDDOWN (word (va + size - 1)) = (va / PGSIZE + ((va + size - 1) / PGSIZE - va / PGSIZE)) * PGSIZE := by
    rw [word, Nat.mod_eq_of_lt (Nat.lt_trans hbound (by decide)), PGROUNDDOWN, Nat.add_sub_cancel' hle]
  have hlt : (va + size - 1) / PGSIZE < vaPages := by
    rw [← lt_maxva]
    exact Nat.lt_of_le_of_lt (Nat.div_mul_le_self _ _) hbound
  rw [mappages, if_neg (by omega), hlast]
  refine mapLoop_spec (by omega) ?_ (fun w hw hw' => hfree w hw (by omega)) m
  exact Nat.lt_of_lt_of_le (Nat.lt_of_le_of_lt (Nat.sub_le _ _) hlt) (by decide)

end Xv6.Vm
