import Mathlib.Data.Nat.Bitwise
import Xv6.Vm.Walk

/-!
# PTEs and the pages they are for

The bits of a PTE, and the numbering of the entries of the lowest level by page number.
-/
namespace Xv6.Vm

open Xv6.Source.Vm

/-- A PTE that maps a page for reading. -/
def Leaf (pte : UInt64) : Prop := pte &&& PTE_V ≠ 0 ∧ pte &&& PTE_R ≠ 0

/-! ## Flags -/

theorem or_and (x y b : UInt64) : (x ||| y) &&& b = x &&& b ||| y &&& b := by
  rw [← UInt64.toBitVec_inj]
  exact BitVec.and_or_distrib_right

theorem or_and_ne_zero_left {x b : UInt64} (y : UInt64) (h : x &&& b ≠ 0) : (x ||| y) &&& b ≠ 0 := by
  rw [or_and, ne_eq, UInt64.or_eq_zero_iff]
  exact fun hzero => h hzero.1

theorem or_and_ne_zero_right {x b : UInt64} (y : UInt64) (h : x &&& b ≠ 0) : (y ||| x) &&& b ≠ 0 := by
  rw [UInt64.or_comm]
  exact or_and_ne_zero_left y h

/-- A flag is one of the lowest ten bits. -/
theorem flags_and (pte : UInt64) {b : UInt64} (hb : 0x3FF &&& b = b) : PTE_FLAGS pte &&& b = pte &&& b := by
  rw [PTE_FLAGS, UInt64.and_assoc, hb]

theorem flags_lt (pte : UInt64) : (PTE_FLAGS pte).toNat < 1024 := by
  rw [PTE_FLAGS, UInt64.toNat_and]
  exact Nat.lt_of_le_of_lt Nat.and_le_right (by decide)

theorem leaf_entry (pa : Nat) {perm : UInt64} (hr : perm &&& PTE_R ≠ 0) : Leaf (PA2PTE pa ||| perm ||| PTE_V) :=
  ⟨or_and_ne_zero_right _ (by decide), or_and_ne_zero_left _ (or_and_ne_zero_right _ hr)⟩

/-- A leaf has more flags than `PTE_V`. -/
theorem Leaf.flags_ne {pte : UInt64} (h : Leaf pte) : PTE_FLAGS pte ≠ PTE_V := by
  intro hv
  refine h.2 ?_
  rw [← flags_and pte (show 0x3FF &&& PTE_R = PTE_R by decide), hv]
  decide

/-- A valid PTE that is not a pointer to a table. -/
def Mapped (pte : UInt64) : Prop := pte &&& PTE_V ≠ 0 ∧ PTE_FLAGS pte ≠ PTE_V

theorem Leaf.mapped {pte : UInt64} (h : Leaf pte) : Mapped pte := ⟨h.1, h.flags_ne⟩

theorem Mapped.ne_zero {pte : UInt64} (h : Mapped pte) : pte ≠ 0 := by
  rintro rfl
  exact h.1 rfl

/-! ## Physical addresses -/

theorem pte2pa_eq (pte : UInt64) : PTE2PA pte = pte.toNat / 1024 * 4096 % 2 ^ 64 := by
  rw [PTE2PA, UInt64.toNat_shiftLeft, UInt64.toNat_shiftRight, Nat.shiftLeft_eq, Nat.shiftRight_eq_div_pow]
  rfl

theorem toNat_pa2pte {pa : Nat} (hlt : pa < 2 ^ 64) : (PA2PTE pa).toNat = pa / 4096 * 1024 := by
  rw [PA2PTE, UInt64.toNat_shiftLeft, UInt64.toNat_shiftRight, Nat.shiftLeft_eq, Nat.shiftRight_eq_div_pow,
    UInt64.toNat_ofNat', Nat.mod_eq_of_lt hlt]
  show pa / 4096 * 1024 % 2 ^ 64 = _
  omega

/-- Flags do not change the physical address. -/
theorem or_div_1024 {x y : Nat} (hy : y < 1024) : (x ||| y) / 1024 = x / 1024 := by
  rw [show (1024 : Nat) = 2 ^ 10 from rfl, ← Nat.shiftRight_eq_div_pow, ← Nat.shiftRight_eq_div_pow,
    Nat.shiftRight_or_distrib, Nat.shiftRight_eq_zero y 10 hy, Nat.or_zero]

theorem pte2pa_pa2pte {pa : Nat} {perm : UInt64} (hpa : pa % PGSIZE = 0) (hlt : pa < 2 ^ 64)
    (hperm : perm.toNat < 1024) : PTE2PA (PA2PTE pa ||| perm ||| PTE_V) = pa := by
  rw [pte2pa_eq, UInt64.toNat_or, UInt64.toNat_or, or_div_1024 (by decide), or_div_1024 hperm, toNat_pa2pte hlt]
  simp only [PGSIZE] at hpa
  omega

theorem pa2pte_page (pa : Nat) : PA2PTE (PGROUNDDOWN (word pa)) = PA2PTE pa := by
  have hlt : word pa < 2 ^ 64 := Nat.mod_lt _ (by decide)
  have hword : PA2PTE (word pa) = PA2PTE pa := by
    rw [PA2PTE, PA2PTE]
    congr 2
    exact UInt64.toNat_inj.1 (by rw [UInt64.toNat_ofNat', UInt64.toNat_ofNat', word, Nat.mod_mod])
  rw [← hword]
  refine UInt64.toNat_inj.1 ?_
  rw [toNat_pa2pte hlt, toNat_pa2pte (by simp only [PGROUNDDOWN, PGSIZE]; omega)]
  simp only [PGROUNDDOWN, PGSIZE]
  omega

/-- The page and the flags of an entry. -/
theorem pte2pa_entry (pa : Nat) {perm : UInt64} (hperm : perm.toNat < 1024) :
    PTE2PA (PA2PTE pa ||| perm ||| PTE_V) = PGROUNDDOWN (word pa) := by
  have hlt : word pa < 2 ^ 64 := Nat.mod_lt _ (by decide)
  rw [← pa2pte_page]
  refine pte2pa_pa2pte ?_ ?_ hperm
  · rw [PGROUNDDOWN, Nat.mul_mod_left]
  · simp only [PGROUNDDOWN, PGSIZE]
    omega

theorem flags_entry (pa : Nat) {perm : UInt64} (hperm : perm.toNat < 1024) :
    PTE_FLAGS (PA2PTE pa ||| perm ||| PTE_V) = perm ||| PTE_V := by
  have hlow {x : UInt64} (hx : x.toNat < 1024) : x &&& 0x3FF = x := by
    refine UInt64.toNat_inj.1 ?_
    rw [UInt64.toNat_and, show (0x3FF : UInt64).toNat = 2 ^ 10 - 1 by decide, Nat.and_two_pow_sub_one_eq_mod,
      Nat.mod_eq_of_lt hx]
  have hhigh : PA2PTE pa &&& 0x3FF = 0 := by
    rw [← pa2pte_page]
    refine UInt64.toNat_inj.1 ?_
    have hlt : word pa < 2 ^ 64 := Nat.mod_lt _ (by decide)
    rw [UInt64.toNat_and, show (0x3FF : UInt64).toNat = 2 ^ 10 - 1 by decide, Nat.and_two_pow_sub_one_eq_mod,
      toNat_pa2pte (by simp only [PGROUNDDOWN, PGSIZE]; omega)]
    show _ % 1024 = 0
    omega
  rw [PTE_FLAGS, or_and, or_and, hhigh, hlow hperm, hlow (by decide), UInt64.zero_or]

theorem entry_valid (pa : Nat) (perm : UInt64) : (PA2PTE pa ||| perm ||| PTE_V) &&& PTE_V ≠ 0 :=
  or_and_ne_zero_right _ (by decide)

/-! ## `uvmclear` -/

theorem clear_and (pte : UInt64) {b : UInt64} (hb : ~~~PTE_U &&& b = b) : pte &&& ~~~PTE_U &&& b = pte &&& b := by
  rw [UInt64.and_assoc, hb]

theorem Leaf.clear {pte : UInt64} (h : Leaf pte) : Leaf (pte &&& ~~~PTE_U) := by
  rw [Leaf, clear_and pte (by decide), clear_and pte (by decide)]
  exact h

theorem pte2pa_clear (pte : UInt64) : PTE2PA (pte &&& ~~~PTE_U) = PTE2PA pte := by
  have hdiv : (pte.toNat &&& (~~~PTE_U).toNat) / 1024 = pte.toNat / 1024 := by
    rw [show (1024 : Nat) = 2 ^ 10 from rfl, ← Nat.shiftRight_eq_div_pow, ← Nat.shiftRight_eq_div_pow,
      Nat.shiftRight_and_distrib, show (~~~PTE_U).toNat >>> 10 = 2 ^ 54 - 1 by decide, Nat.and_two_pow_sub_one_eq_mod,
      Nat.shiftRight_eq_div_pow, Nat.mod_eq_of_lt]
    have := pte.toNat_lt
    omega
  rw [pte2pa_eq, pte2pa_eq, UInt64.toNat_and, hdiv]

/-! ## Page numbers -/

/-- The entry for a page. -/
def entryOf (v : Nat) : Index := index (v * PGSIZE)

/-- How many pages a table of three levels has entries for. -/
def pages : Nat := 2 ^ 27

theorem px_page (level v : Nat) : PX level (v * PGSIZE) = Fin.ofNat 512 (v / 2 ^ (9 * level)) := by
  rw [PX, Nat.pow_add, ← Nat.div_div_eq_div_mul, show (2 : Nat) ^ 12 = PGSIZE from rfl,
    Nat.mul_div_cancel _ (by decide)]

theorem index_eq (va : Nat) : index va = entryOf (va / PGSIZE) := (index_page va).symm

theorem entryOf_inj {v w : Nat} (hv : v < pages) (hw : w < pages) (h : entryOf v = entryOf w) : v = w := by
  simp only [entryOf, index, px_page, Index.mk.injEq, Fin.ofNat, Fin.mk.injEq] at h
  simp only [pages] at hv hw
  omega

theorem exists_entryOf (i : Index) : ∃ v < pages, entryOf v = i := by
  refine ⟨i.two * 2 ^ 18 + i.one * 2 ^ 9 + i.zero, ?_, ?_⟩
  · simp only [pages]
    omega
  · obtain ⟨two, one, zero⟩ := i
    simp only [entryOf, index, px_page, Index.mk.injEq, Fin.ext_iff, Fin.ofNat]
    omega

end Xv6.Vm
