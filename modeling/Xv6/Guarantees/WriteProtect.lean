import Xv6.Vm.Copy

/-!
# Writes of the kernel to pages that are read-only for the user

`copyout` looks at `PTE_V` and `PTE_U`, not at `PTE_W`. It keeps to writable pages if and only if
each address that it reaches from the start of the range through accessible pages is writable; the
text of a program, which `exec` maps without `PTE_W`, is changed.
-/
namespace Xv6.Guarantees.WriteProtect

open Xv6.Source.Vm Xv6.Vm

/-- The leaf PTE of the page lets the user write. -/
def Writable (t : Pagetable) (va : Nat) : Prop :=
  va < MAXVA ∧ t.get (index va) &&& PTE_V ≠ 0 ∧ t.get (index va) &&& PTE_U ≠ 0 ∧ t.get (index va) &&& PTE_W ≠ 0

instance (t : Pagetable) (va : Nat) : Decidable (Writable t va) :=
  inferInstanceAs (Decidable (_ ∧ _ ∧ _ ∧ _))

/-- What a copy of `n` bytes to `va` that returns `r` and writes to the addresses `stored` must do. -/
structure Protects (t : Pagetable) (va n : Nat) (r : Int) (stored : List Nat) : Prop where
  writes : ∀ a ∈ stored, Writable t a
  fails : (∃ a ∈ span va n, ¬ Writable t a) → r = -1

theorem copyout_protects_iff (t : Pagetable) (dstva : UInt64) (src : List UInt8) (m : Mem) :
    ∃ r, copyout t dstva.toNat src m =
        .ok (r, { m with byte := stores t ((written t dstva.toNat src.length).zip src) m.byte }) ∧
      (Protects t dstva.toNat src.length r (written t dstva.toNat src.length) ↔
        ∀ k < src.length, (∀ j ≤ k, Accessible t (word (dstva.toNat + j))) → Writable t (word (dstva.toNat + k))) := by
  refine ⟨_, (copyout_eq t dstva.toNat src m).trans (by rw [copyBytes_eq dstva.toNat_lt]), ?_⟩
  constructor
  · rintro hprot k hk hacc
    exact hprot.writes _ (mem_written.2 ⟨k, hk, hacc, rfl⟩)
  · intro hwritable
    refine ⟨fun a ha => ?_, ?_⟩
    · obtain ⟨k, hk, hacc, rfl⟩ := mem_written.1 ha
      exact hwritable k hk hacc
    · rintro ⟨a, ha, hnot⟩
      refine if_neg fun hall => hnot ?_
      obtain ⟨k, hk, rfl⟩ := mem_span.1 ha
      exact hwritable k hk fun j hj => hall _ (mem_span.2 ⟨j, by omega, rfl⟩)

/-! ## The text of a program -/

/-- A page table with one page of text, as `exec` maps it, and a copy of one byte to its start. -/
def overwriteText : Prog (Option (Bool × Int)) := do
  match ← uvmcreate with
  | none => pure none
  | some t =>
    let (_, t) ← uvmalloc t 0 PGSIZE PTE_X
    let r ← copyout t 0 [255]
    pure (some (decide (Writable t 0), r))

/-- Four pages of memory. -/
def fourPages : Mem :=
  { ram := ⟨0x80001000, 0x80005000, 0x80000000, by decide, by decide⟩
    freelist := [0x80001000, 0x80002000, 0x80003000, 0x80004000]
    byte := fun _ => 0
    fails := [] }

theorem text_page_overwritten :
    (match overwriteText fourPages with
      | .ok (r, m) => some (r, m.byte 0x80002000, m.byte 0x80003000, m.byte 0x80004000)
      | .error _ => none) = some (some (false, 0), 255, 0, 0) := by
  decide +kernel

end Xv6.Guarantees.WriteProtect
