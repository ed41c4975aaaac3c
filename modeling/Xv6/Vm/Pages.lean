import Mathlib.Algebra.BigOperators.Intervals
import Xv6.Vm.Tables

/-!
# Mapping and unmapping pages

A table as a function from page numbers to PTEs: `mappages` sets one of them, `uvmunmap` clears a
range. `frames` are the physical pages that the PTEs of a range name.
-/
namespace Xv6.Vm

open Xv6.Library.Total Xv6.Source.Vm

variable {t t' : Pagetable} {m m' : Mem} {v w k : Nat}

def pte (t : Pagetable) (v : Nat) : UInt64 := t.get (entryOf v)

def frame (t : Pagetable) (v : Nat) : Nat := PTE2PA (pte t v)

/-- The physical pages of the pages from `lo` up to `hi`. -/
def frames (t : Pagetable) (lo hi : Nat) : Multiset Nat := ∑ v ∈ Finset.Ico lo hi, {frame t v}

/-- How many pages there are below `MAXVA`. -/
def vaPages : Nat := 2 ^ 26

theorem vaPages_lt : vaPages < pages := by decide

theorem lt_maxva : v * PGSIZE < MAXVA ↔ v < vaPages := by
  simp only [PGSIZE, MAXVA, vaPages]
  omega

/-- `walk` finds the PTE of a page that is mapped. -/
theorem walk_mapped (hv : v < vaPages) (hpte : pte t v ≠ 0) (m : Mem) :
    walk t (v * PGSIZE) false m = .ok ((some (entryOf v), t), m) := by
  have hhas : HasPte t (index (v * PGSIZE)) := has_of_get_ne hpte
  rw [walk_read (lt_maxva.2 hv), if_pos hhas]
  rfl

theorem Leaf.ne_zero {pte : UInt64} (h : Leaf pte) : pte ≠ 0 := by
  rintro rfl
  exact h.1 rfl

theorem pte_of_update {p : UInt64} (hget : t'.get = Function.update t.get (entryOf v) p) (hv : v < pages)
    (hw : w < pages) : pte t' w = if w = v then p else pte t w := by
  rw [pte, hget, Function.update_apply]
  exact if_congr ⟨entryOf_inj hw hv, congrArg entryOf⟩ rfl rfl

theorem next_page (hv : v < vaPages) : word (v * PGSIZE + PGSIZE) = (v + 1) * PGSIZE := by
  simp only [word, PGSIZE, vaPages] at hv ⊢
  omega

/-! ## Frames -/

theorem frames_self (t : Pagetable) (lo : Nat) : frames t lo lo = 0 := by
  rw [frames, Finset.Ico_self, Finset.sum_empty]

theorem frames_first (t : Pagetable) {lo hi : Nat} (h : lo < hi) : frames t lo hi = {frame t lo} + frames t (lo + 1) hi :=
  Finset.sum_eq_sum_Ico_succ_bot h _

theorem frames_last (t : Pagetable) {lo hi : Nat} (h : lo ≤ hi) : frames t lo (hi + 1) = frames t lo hi + {frame t hi} :=
  Finset.sum_Ico_succ_top h _

theorem frames_append (t : Pagetable) {lo mid hi : Nat} (h : lo ≤ mid) (h' : mid ≤ hi) :
    frames t lo mid + frames t mid hi = frames t lo hi :=
  Finset.sum_Ico_consecutive _ h h'

theorem frames_congr {lo hi : Nat} (h : ∀ v, lo ≤ v → v < hi → frame t v = frame t' v) :
    frames t lo hi = frames t' lo hi :=
  Finset.sum_congr rfl fun v hv => by
    rw [Finset.mem_Ico] at hv
    rw [h v hv.1 hv.2]

theorem mem_frames {lo hi pa : Nat} : pa ∈ frames t lo hi ↔ ∃ v, lo ≤ v ∧ v < hi ∧ frame t v = pa := by
  rw [frames, Multiset.mem_sum]
  simp only [Finset.mem_Ico, Multiset.mem_singleton, and_assoc, eq_comm]

theorem card_frames (t : Pagetable) (lo hi : Nat) : (frames t lo hi).card = hi - lo := by
  simp [frames]

/-! ## `mappages` of one page -/

theorem mappages_spec (hv : v < vaPages) (hfree : pte t v = 0) (pa : Nat) (perm : UInt64) (m : Mem) :
    Ends (mappages t (v * PGSIZE) PGSIZE pa perm) m fun r m' => memory.Moves m (tables t) m' (tables r.2) ∧
      (r.1 = 0 ∧ r.2.get = Function.update t.get (entryOf v) (PA2PTE pa ||| perm ||| PTE_V) ∨
        r.1 = -1 ∧ r.2.get = t.get) := by
  have hlast : PGROUNDDOWN (word (v * PGSIZE + PGSIZE - 1)) = v * PGSIZE := by
    simp only [PGROUNDDOWN, word, PGSIZE, vaPages] at hv ⊢
    omega
  have hfirst : PGROUNDDOWN (v * PGSIZE) = v * PGSIZE := by
    rw [PGROUNDDOWN, Nat.mul_div_cancel _ pgsize_pos]
  rw [mappages, if_neg (by decide), hlast, hfirst, rounds]
  generalize MAXVA / PGSIZE = n
  rw [mapLoop]
  refine .bind (walk_spec (lt_maxva.2 hv) m) ?_
  rintro ⟨o, t₁⟩ m₁ ⟨hmoves, hget, rfl | ⟨rfl, hhas⟩⟩
  · exact .ret ⟨hmoves, .inr ⟨rfl, hget⟩⟩
  · dsimp only at hhas hget hmoves
    have hzero : t₁.get (index (v * PGSIZE)) = 0 := by
      rw [hget]
      exact hfree
    dsimp only
    rw [hzero, if_neg (by decide), if_pos rfl]
    refine .ret ⟨?_, .inl ⟨rfl, ?_⟩⟩
    · dsimp only
      rw [tables_put]
      exact hmoves
    · dsimp only
      rw [get_put hhas, hget]
      rfl

/-! ## `uvmunmap` -/

/-- The pages that `uvmunmap` frees. -/
def freed (t : Pagetable) (doFree : Bool) (lo hi : Nat) : Multiset Nat := if doFree then frames t lo hi else 0

/-- What `uvmunmap` has done for the pages from `v` up to `v + k`. -/
structure Unmaps (t : Pagetable) (doFree : Bool) (v k : Nat) (m : Mem) (t' : Pagetable) (m' : Mem) : Prop where
  tables : tables t' = tables t
  pte : ∀ w < pages, pte t' w = if v ≤ w ∧ w < v + k then 0 else pte t w
  moves : memory.Moves m (freed t doFree v (v + k)) m' 0

theorem Unmaps.zero (t : Pagetable) (doFree : Bool) (v : Nat) (m : Mem) : Unmaps t doFree v 0 m t m where
  tables := rfl
  pte w _ := (if_neg (by omega)).symm
  moves := by
    rw [freed, Nat.add_zero, frames_self, ite_self]
    exact .refl m 0

/-- One more page at the front. -/
theorem Unmaps.cons {doFree : Bool} {t₁ : Pagetable} {m₁ : Mem} (hv : v < pages)
    (htables : Vm.tables t₁ = Vm.tables t) (hget : t₁.get = Function.update t.get (entryOf v) 0)
    (hmoves : memory.Moves m (freed t doFree v (v + 1)) m₁ 0) (h : Unmaps t₁ doFree (v + 1) k m₁ t' m')
    (hk : v + (k + 1) ≤ pages) : Unmaps t doFree v (k + 1) m t' m' where
  tables := h.tables.trans htables
  pte w hw := by
    rw [h.pte w hw, pte_of_update hget hv hw]
    split_ifs <;> first | rfl | omega
  moves := by
    have hsame : freed t₁ doFree (v + 1) (v + 1 + k) = freed t doFree (v + 1) (v + 1 + k) := by
      have hframes : frames t₁ (v + 1) (v + 1 + k) = frames t (v + 1) (v + 1 + k) := by
        refine frames_congr fun w hw hw' => ?_
        rw [frame, frame, pte_of_update hget hv (by omega), if_neg (by omega)]
      rw [freed, freed, hframes]
    have hsplit : freed t doFree v (v + (k + 1)) =
        freed t doFree v (v + 1) + freed t doFree (v + 1) (v + 1 + k) := by
      rw [freed, freed, freed]
      split
      · rw [frames_append t (by omega) (by omega), Nat.add_right_comm, Nat.add_assoc]
      · rfl
    rw [hsplit]
    refine (hmoves.frame _).trans ?_
    rw [zero_add, ← hsame]
    exact h.moves

theorem unmapLoop_spec (doFree : Bool) {n : Nat} (hbound : v + k ≤ vaPages) (hn : k < n)
    (hleaf : ∀ w, v ≤ w → w < v + k → Mapped (pte t w))
    (hok : doFree = true → ∀ w, v ≤ w → w < v + k → IsPage m.ram (frame t w)) :
    Ends (unmapLoop ((v + k) * PGSIZE) doFree n t (v * PGSIZE)) m fun t' m' => Unmaps t doFree v k m t' m' := by
  induction k generalizing v n t m with
  | zero =>
    cases n with
    | zero => exact absurd hn (Nat.lt_irrefl 0)
    | succ n =>
      rw [unmapLoop, Nat.add_zero, if_neg (Nat.lt_irrefl _)]
      exact .ret (.zero t doFree v m)
  | succ k ih =>
    cases n with
    | zero => exact absurd hn (Nat.not_lt_zero _)
    | succ n =>
      have hlt : v * PGSIZE < (v + (k + 1)) * PGSIZE := by
        simp only [PGSIZE]
        omega
      have hva : v < vaPages := by omega
      have hv : v < pages := Nat.lt_trans hva vaPages_lt
      have hleaf' := hleaf v (Nat.le_refl v) (by omega)
      have hget := get_put (has_of_get_ne hleaf'.ne_zero) 0
      have hpte : ∀ w, v + 1 ≤ w → w < v + 1 + k → pte (t.put (entryOf v) 0) w = pte t w := by
        intro w hw hw'
        have hlt' : w < pages := Nat.lt_trans (by omega : w < vaPages) vaPages_lt
        rw [pte_of_update hget hv hlt', if_neg (by omega)]
      have hrest : ∀ m₁, m₁.ram = m.ram → memory.Moves m (freed t doFree v (v + 1)) m₁ 0 →
          Ends (unmapLoop ((v + (k + 1)) * PGSIZE) doFree n (t.put (entryOf v) 0) (word (v * PGSIZE + PGSIZE))) m₁
            fun t' m' => Unmaps t doFree v (k + 1) m t' m' := by
        intro m₁ hram hmoves
        rw [next_page hva, show v + (k + 1) = v + 1 + k by omega]
        refine (ih (by omega) (by omega) (fun w hw hw' => ?_) fun hfree w hw hw' => ?_).mono fun t' m' h => ?_
        · rw [hpte w hw hw']
          exact hleaf w (by omega) (by omega)
        · rw [frame, hpte w hw hw', hram]
          exact hok hfree w (by omega) (by omega)
        · exact .cons hv (tables_put _ _) hget hmoves h (Nat.le_trans hbound vaPages_lt.le)
      rw [unmapLoop, if_pos hlt]
      refine .step (walk_mapped hva hleaf'.ne_zero m) ?_
      have hgetv : t.get (entryOf v) = pte t v := rfl
      dsimp only
      rw [hgetv, if_neg hleaf'.1, if_neg hleaf'.2]
      cases doFree with
      | true =>
        refine .bind (kfree_spec (hok rfl v (Nat.le_refl v) (by omega))) fun _ m₁ hmoves => hrest m₁ hmoves.fixed ?_
        rw [freed, if_pos rfl, frames_last t (Nat.le_refl v), frames_self, zero_add]
        exact hmoves
      | false => exact hrest m rfl (.refl m 0)

theorem uvmunmap_spec (doFree : Bool) (hbound : v + k ≤ vaPages) (hleaf : ∀ w, v ≤ w → w < v + k → Mapped (pte t w))
    (hok : doFree = true → ∀ w, v ≤ w → w < v + k → IsPage m.ram (frame t w)) :
    Ends (uvmunmap t (v * PGSIZE) k doFree) m fun t' m' => Unmaps t doFree v k m t' m' := by
  have hstop : word (v * PGSIZE + k * PGSIZE) = (v + k) * PGSIZE := by
    simp only [word, PGSIZE, vaPages] at hbound ⊢
    omega
  rw [uvmunmap, if_neg (by rw [Nat.mul_mod_left]; exact fun h => h rfl), hstop]
  have hrounds : k < rounds := Nat.lt_of_le_of_lt (by omega : k ≤ vaPages) (by decide)
  exact unmapLoop_spec doFree hbound hrounds hleaf hok

end Xv6.Vm
