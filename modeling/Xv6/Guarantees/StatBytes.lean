import Xv6.Source.Sysfile

/-!
# What fstat reveals

`stati` assigns the five fields of a `struct stat` one by one, and all of its 24 bytes are copied to the
user. The four bytes between `nlink` and `size` belong to no field: they are what the stack held.
-/
namespace Xv6.Guarantees.StatBytes

open Xv6.Source.Sysfile

/-- The bytes of a `struct stat` that belong to no field. -/
def Padding (j : Fin 24) : Prop := 12 ≤ j.val ∧ j.val < 16

instance (j : Fin 24) : Decidable (Padding j) := inferInstanceAs (Decidable (_ ∧ _))

theorem stati_padding (ip : Meta) (st : Stat) {j : Fin 24} (h : Padding j) : stati ip st j = st j := by
  obtain ⟨h12, h16⟩ := h
  unfold stati assign
  rw [if_neg (by omega), if_neg (by omega), if_neg (by omega), if_neg (by omega), if_neg (by omega)]

/-- Every other byte is one of a field. -/
theorem stati_field (ip : Meta) (st st' : Stat) {j : Fin 24} (h : ¬ Padding j) : stati ip st j = stati ip st' j := by
  have hj := j.isLt
  unfold Padding at h
  unfold stati assign
  by_cases h16 : 16 ≤ j.val
  · rw [if_pos (by omega), if_pos (by omega)]
  by_cases h10 : 10 ≤ j.val
  · rw [if_neg (by omega), if_pos (by omega), if_neg (by omega), if_pos (by omega)]
  by_cases h8 : 8 ≤ j.val
  · rw [if_neg (by omega), if_neg (by omega), if_pos (by omega), if_neg (by omega), if_neg (by omega), if_pos (by omega)]
  by_cases h4 : 4 ≤ j.val
  · rw [if_neg (by omega), if_neg (by omega), if_neg (by omega), if_pos (by omega), if_neg (by omega), if_neg (by omega),
      if_neg (by omega), if_pos (by omega)]
  · rw [if_neg (by omega), if_neg (by omega), if_neg (by omega), if_neg (by omega), if_pos (by omega), if_neg (by omega),
      if_neg (by omega), if_neg (by omega), if_neg (by omega), if_pos (by omega)]

/-- Two stacks lead to the same bytes for the user if and only if they agree where the padding lies. -/
theorem stat_bytes_same_iff (type : FileType) (ip : Meta) (st st' : Stat) :
    filestat type ip st = filestat type ip st' ↔
      (type = .inode ∨ type = .device → ∀ j, Padding j → st j = st' j) := by
  unfold filestat
  by_cases htype : type = .inode ∨ type = .device
  · rw [if_pos htype, if_pos htype, Option.some.injEq, imp_iff_right htype]
    constructor
    · intro h j hj
      rw [← stati_padding ip st hj, ← stati_padding ip st' hj, h]
    · intro h
      funext j
      by_cases hj : Padding j
      · rw [stati_padding ip st hj, stati_padding ip st' hj, h j hj]
      · exact stati_field ip st st' hj
  · simp [htype]

/-- A byte of the stack behind `nlink` arrives at the user. -/
theorem stack_byte_revealed : (filestat .inode ⟨1, 2, 2, 1, 0⟩ fun _ => 0x5a).map (· 12) = some 0x5a ∧
    filestat .inode ⟨1, 2, 2, 1, 0⟩ (fun _ => 0) ≠ filestat .inode ⟨1, 2, 2, 1, 0⟩ fun _ => 0x5a := by
  refine ⟨by decide, fun h => ?_⟩
  have hbyte := congrArg (Option.map (· 12)) h
  exact absurd hbyte (by decide)

end Xv6.Guarantees.StatBytes
