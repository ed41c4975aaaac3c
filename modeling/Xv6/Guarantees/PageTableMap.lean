import Xv6.Vm.Ranges

/-!
# Page tables implement a map

A well-formed table translates each page below `MAXVA` or does not. `mappages` adds the translations
of a range, or of a first part of it when there is no memory for a table, and `uvmunmap` takes those of
a range away; all other translations stay, and the pages of the table stay distinct.
-/
namespace Xv6.Guarantees.PageTableMap

open Xv6.Source.Vm Xv6.Vm

variable {m : Mem} {t : Pagetable} {own : Multiset Nat}

/-- The pages of the table, the free pages and the pages `own` of others are distinct pages of RAM. -/
structure WellFormed (m : Mem) (t : Pagetable) (own : Multiset Nat) : Prop where
  sound : Sound m (tables t + own)
  apart : Apart m (tables t + own)

/-- The translation that a PTE gives: the physical page and the flags. -/
def entryOfPte (p : UInt64) : Option (Nat × UInt64) := if p &&& PTE_V ≠ 0 then some (PTE2PA p, PTE_FLAGS p) else none

def translation (t : Pagetable) (a : Nat) : Option (Nat × UInt64) := entryOfPte (t.get (index a))

/-- The number of pages that hold `size` bytes from `va` on. -/
def pagesOf (va size : Nat) : Nat := (va + size - 1) / PGSIZE - va / PGSIZE + 1

/-- The address lies in one of the `n` pages from that of `va` on. -/
def InPages (va n a : Nat) : Prop := va / PGSIZE ≤ a / PGSIZE ∧ a / PGSIZE < va / PGSIZE + n

instance (va n a : Nat) : Decidable (InPages va n a) := inferInstanceAs (Decidable (_ ∧ _))

/-- The physical pages to which `n` pages from `va` on are translated. -/
def framesOf (t : Pagetable) (va n : Nat) : Multiset Nat :=
  ∑ v ∈ Finset.Ico (va / PGSIZE) (va / PGSIZE + n), {((translation t (v * PGSIZE)).map Prod.fst).getD 0}

theorem WellFormed.moves {m' : Mem} {t' : Pagetable} (h : WellFormed m t own) (hmoves : memory.Moves m (tables t) m' (tables t')) :
    WellFormed m' t' own := by
  have hframe := hmoves.frame own
  exact ⟨h.sound.moves hframe, h.apart.moves hframe⟩

theorem translation_pte (t : Pagetable) (a : Nat) : translation t a = entryOfPte (pte t (a / PGSIZE)) := by
  rw [translation, index_eq]
  rfl

theorem entryOfPte_none {p : UInt64} : entryOfPte p = none ↔ p &&& PTE_V = 0 := by
  rw [entryOfPte]
  split
  · exact iff_of_false (by rintro ⟨⟩) ‹_›
  · exact iff_of_true rfl (not_not.1 ‹_›)

theorem page_lt {a : Nat} (ha : a < MAXVA) : a / PGSIZE < pages :=
  Nat.lt_trans (lt_maxva.1 (Nat.lt_of_le_of_lt (Nat.div_mul_le_self a PGSIZE) ha)) vaPages_lt

/-- The entry of a page that has been mapped. -/
theorem entryOfPte_mapped (pa : UInt64) (d : Nat) {perm : UInt64} (hperm : perm.toNat < 1024) :
    entryOfPte (PA2PTE (pa.toNat + d * PGSIZE) ||| perm ||| PTE_V) =
      some (word (PGROUNDDOWN pa.toNat + d * PGSIZE), perm ||| PTE_V) := by
  rw [entryOfPte, if_pos (entry_valid _ _), pte2pa_entry _ hperm, flags_entry _ hperm]
  have hlt := pa.toNat_lt
  have heq : PGROUNDDOWN (word (pa.toNat + d * PGSIZE)) = word (PGROUNDDOWN pa.toNat + d * PGSIZE) := by
    simp only [PGROUNDDOWN, word, PGSIZE]
    omega
  rw [heq]

theorem mappages_maps (h : WellFormed m t own) {va size : Nat} {pa perm : UInt64} (hsize : 0 < size)
    (hbound : va + size - 1 < MAXVA) (hperm : perm.toNat < 1024)
    (hfree : ∀ a < MAXVA, InPages va (pagesOf va size) a → translation t a = none) :
    ∃ r t' m', mappages t va size pa.toNat perm m = .ok ((r, t'), m') ∧ WellFormed m' t' own ∧
      ∃ j, (r = 0 ∧ j = pagesOf va size ∨ r = -1 ∧ j < pagesOf va size) ∧ ∀ a < MAXVA, translation t' a =
        if InPages va j a then some (word (PGROUNDDOWN pa.toNat + (a / PGSIZE - va / PGSIZE) * PGSIZE), perm ||| PTE_V)
        else translation t a := by
  have hle : va / PGSIZE ≤ (va + size - 1) / PGSIZE := Nat.div_le_div_right (by omega)
  have hunmapped : ∀ w, va / PGSIZE ≤ w → w ≤ (va + size - 1) / PGSIZE → pte t w &&& PTE_V = 0 := by
    intro w hw hw'
    have hlt : w * PGSIZE < MAXVA :=
      Nat.lt_of_le_of_lt (Nat.le_trans (Nat.mul_le_mul_right _ hw') (Nat.div_mul_le_self _ _)) hbound
    have hdiv : w * PGSIZE / PGSIZE = w := Nat.mul_div_cancel w pgsize_pos
    have hnone := hfree (w * PGSIZE) hlt ⟨by rw [hdiv]; exact hw, by rw [hdiv, pagesOf]; omega⟩
    rw [translation_pte, hdiv] at hnone
    exact entryOfPte_none.1 hnone
  obtain ⟨⟨r, t'⟩, m', hrun, hmoves, j, hj, hfirst⟩ := mappages_range hsize hbound hunmapped pa.toNat perm m
  refine ⟨r, t', m', hrun, h.moves hmoves, j, hj, fun a ha => ?_⟩
  rw [translation_pte, hfirst _ (page_lt ha), translation_pte]
  by_cases hin : InPages va j a
  · rw [if_pos hin, if_pos (show _ ∧ _ from hin), entryOfPte_mapped pa _ hperm]
  · rw [if_neg hin, if_neg (show ¬ (_ ∧ _) from hin)]

theorem framesOf_eq {va n : Nat} (hmapped : ∀ v, va / PGSIZE ≤ v → v < va / PGSIZE + n → Mapped (pte t v)) :
    framesOf t va n = frames t (va / PGSIZE) (va / PGSIZE + n) := by
  refine Finset.sum_congr rfl fun v hv => ?_
  obtain ⟨hlo, hhi⟩ := Finset.mem_Ico.1 hv
  rw [translation_pte, Nat.mul_div_cancel v pgsize_pos, entryOfPte, if_pos (hmapped v hlo hhi).1]
  rfl

theorem uvmunmap_unmaps {va npages : Nat} {doFree : Bool}
    (h : WellFormed m t ((if doFree then framesOf t va npages else 0) + own)) (haligned : va % PGSIZE = 0)
    (hbound : va + npages * PGSIZE ≤ MAXVA)
    (hmapped : ∀ a, InPages va npages a → ∃ page flags, translation t a = some (page, flags) ∧ flags ≠ PTE_V) :
    ∃ t' m', uvmunmap t va npages doFree m = .ok (t', m') ∧ WellFormed m' t' own ∧
      ∀ a < MAXVA, translation t' a = if InPages va npages a then none else translation t a := by
  have hva : va / PGSIZE * PGSIZE = va := Nat.div_mul_cancel (Nat.dvd_of_mod_eq_zero haligned)
  have hend : va / PGSIZE + npages ≤ vaPages := by
    have hmax : vaPages * PGSIZE = MAXVA := by decide
    refine Nat.le_of_mul_le_mul_right ?_ pgsize_pos
    rw [Nat.add_mul, hva, hmax]
    exact hbound
  have hpte : ∀ v, va / PGSIZE ≤ v → v < va / PGSIZE + npages → Mapped (pte t v) := by
    intro v hlo hhi
    have hdiv : v * PGSIZE / PGSIZE = v := Nat.mul_div_cancel v pgsize_pos
    obtain ⟨page, flags, htrans, hflags⟩ := hmapped (v * PGSIZE) ⟨by rw [hdiv]; exact hlo, by rw [hdiv]; exact hhi⟩
    rw [translation_pte, hdiv, entryOfPte] at htrans
    split at htrans
    · cases htrans
      exact ⟨‹_›, hflags⟩
    · cases htrans
  have hfreed : (if doFree then framesOf t va npages else 0) = freed t doFree (va / PGSIZE) (va / PGSIZE + npages) := by
    rw [freed]
    exact if_congr Iff.rfl (framesOf_eq hpte) rfl
  rw [hfreed] at h
  have hpages : doFree = true → ∀ w, va / PGSIZE ≤ w → w < va / PGSIZE + npages → IsPage m.ram (frame t w) := by
    intro hfree w hlo hhi
    refine h.sound.own (Multiset.mem_add.2 (.inr (Multiset.mem_add.2 (.inl ?_))))
    rw [freed, if_pos hfree]
    exact mem_frames.2 ⟨w, hlo, hhi, rfl⟩
  obtain ⟨t', m', hrun, hunmaps⟩ := uvmunmap_spec doFree hend hpte hpages
  rw [hva] at hrun
  refine ⟨t', m', hrun, ?_, fun a ha => ?_⟩
  · -- The freed pages are given back, those of the table and of the others stay.
    have hmoves := hunmaps.moves.frame (tables t + own)
    rw [zero_add, add_left_comm, ← hunmaps.tables] at hmoves
    obtain ⟨hsound, hapart⟩ := h
    rw [← hunmaps.tables] at hsound hapart
    exact ⟨hsound.moves hmoves, hapart.moves hmoves⟩
  · rw [translation_pte, hunmaps.pte _ (page_lt ha), translation_pte]
    by_cases hin : InPages va npages a
    · rw [if_pos hin, if_pos (show _ ∧ _ from hin)]
      rfl
    · rw [if_neg hin, if_neg (show ¬ (_ ∧ _) from hin)]

theorem entry_lt : 0 < 512 := by decide

theorem ram_first : 0 < 0x80001000 := by decide

theorem ram_stop : 0x88000000 ≤ 2 ^ 64 := by decide

/-- Six pages, two of them free. -/
def smallMem : Mem where
  ram := ⟨0x80001000, 0x88000000, 0x80000000, ram_first, ram_stop⟩
  freelist := [0x80005000, 0x80006000]
  byte := fun _ => 0
  fails := []

/-- A table with one entry that is not empty, the first. -/
def single {α : Type} (page : Nat) (a : α) : Table (Option α) := Table.set ⟨page, fun _ => none⟩ ⟨0, entry_lt⟩ (some a)

/-- A table of three pages that maps the page 0 to a fourth. -/
def smallTable : Pagetable :=
  single 0x80001000 (single 0x80002000
    (Table.set ⟨0x80003000, fun _ => 0⟩ ⟨0, entry_lt⟩ (PA2PTE 0x80004000 ||| PTE_R ||| PTE_V)))

theorem owned_single {α : Type} (sub : α → Multiset Nat) (page : Nat) (a : α) :
    Table.owned sub (single page a) = {page} + sub a := by
  have hset := owned_set sub ⟨page, fun _ => none⟩ ⟨0, entry_lt⟩ (some a)
  rwa [owned_fresh, Option.elim_none, add_zero] at hset

theorem wellFormed_small {own : Multiset Nat} (hown : own ≤ {0x80004000}) : WellFormed smallMem smallTable own := by
  have hpages : memory.free smallMem + (tables smallTable + {0x80004000}) =
      ↑[0x80005000, 0x80006000, 0x80001000, 0x80002000, 0x80003000, 0x80004000] := by
    rw [tables, smallTable, owned_single, middlePages, owned_single]
    rfl
  have hle : memory.free smallMem + (tables smallTable + own) ≤ memory.free smallMem + (tables smallTable + {0x80004000}) :=
    add_le_add_right (add_le_add_right hown _) _
  rw [hpages] at hle
  refine ⟨fun pa hpa => ?_, Multiset.nodup_of_le hle (by decide)⟩
  have hall : ∀ pa ∈ [0x80005000, 0x80006000, 0x80001000, 0x80002000, 0x80003000, 0x80004000],
      pa % PGSIZE = 0 ∧ smallMem.ram.first ≤ pa ∧ pa < smallMem.ram.stop := by decide
  obtain ⟨haligned, hfirst, hstop⟩ := hall pa (Multiset.mem_coe.1 (Multiset.mem_of_le hle hpa))
  exact ⟨haligned, hfirst, hstop⟩

theorem translation_small {a v : Nat} (hv : a / PGSIZE = v) : translation smallTable a = entryOfPte (pte smallTable v) := by
  rw [translation_pte, hv]

theorem framesOf_small : framesOf smallTable 0 1 = {0x80004000} := by
  rw [framesOf, Nat.zero_div, Nat.zero_add, Nat.Ico_succ_singleton, Finset.sum_singleton, translation_small rfl]
  rfl

end Xv6.Guarantees.PageTableMap
