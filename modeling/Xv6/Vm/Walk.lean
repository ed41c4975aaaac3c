import Xv6.Source.Vm

/-!
# Looking up addresses

`walk` without allocation and `walkaddr` only read the table: what they return depends on the page
of the address alone.
-/
namespace Xv6.Vm

open Xv6.Source.Vm

variable {t : Pagetable} {va : Nat} {m : Mem}

/-- There is a PTE for the index. -/
def HasPte (t : Pagetable) (i : Index) : Prop := ∃ mid l, t.entry i.two = some mid ∧ mid.entry i.one = some l

instance (t : Pagetable) (i : Index) : Decidable (HasPte t i) :=
  match h : t.entry i.two with
  | none => .isFalse (by rintro ⟨mid, l, hmid, -⟩; rw [h] at hmid; exact nomatch hmid)
  | some mid =>
    match h' : mid.entry i.one with
    | none => .isFalse (by
        rintro ⟨mid', l, hmid, hl⟩
        rw [h] at hmid
        cases hmid
        rw [h'] at hl
        exact nomatch hl)
    | some l => .isTrue ⟨mid, l, h, h'⟩

theorem get_of_not_has {i : Index} (h : ¬ HasPte t i) : t.get i = 0 := by
  rw [Pagetable.get]
  split
  · rfl
  · rename_i mid hmid
    split
    · rfl
    · rename_i l hl
      exact absurd ⟨mid, l, hmid, hl⟩ h

theorem set_self {α : Type} (t : Table α) (i : Fin 512) : t.set i (t.entry i) = t := by
  rw [Table.set, Function.update_eq_self]

theorem nextLevel_read {α : Type} (fresh : Nat → α) (o : Option α) : nextLevel false fresh o = pure o := by
  cases o <;> rfl

theorem walk_read (h : va < MAXVA) :
    walk t va false m = .ok ((if HasPte t (index va) then some (index va) else none, t), m) := by
  rw [walk, if_neg (by omega)]
  simp only [nextLevel_read, pure_bind]
  cases hmid : t.entry (PX 2 va) with
  | none =>
    have hno : ¬ HasPte t (index va) := by
      rintro ⟨mid, l, hx, -⟩
      exact nomatch hmid.symm.trans hx
    rw [if_neg hno]
    rfl
  | some mid =>
    have hself : t.set (PX 2 va) (some mid) = t := by rw [← hmid, set_self]
    dsimp only
    cases hl : mid.entry (PX 1 va) with
    | none =>
      have hno : ¬ HasPte t (index va) := by
        rintro ⟨mid', l, hx, hx'⟩
        cases hmid.symm.trans hx
        exact nomatch hl.symm.trans hx'
      rw [if_neg hno, hself]
      rfl
    | some l =>
      have hself' : mid.set (PX 1 va) (some l) = mid := by rw [← hl, set_self]
      have hhas : HasPte t (index va) := ⟨mid, l, hmid, hl⟩
      dsimp only
      rw [if_pos hhas, hself', hself]
      rfl

/-- A page that the kernel reads and writes for the user. -/
def Accessible (t : Pagetable) (va : Nat) : Prop :=
  va < MAXVA ∧ t.get (index va) &&& PTE_V ≠ 0 ∧ t.get (index va) &&& PTE_U ≠ 0 ∧ PTE2PA (t.get (index va)) ≠ 0

instance (t : Pagetable) (va : Nat) : Decidable (Accessible t va) :=
  inferInstanceAs (Decidable (_ ∧ _ ∧ _ ∧ _))

theorem walkaddr_eq (t : Pagetable) (va : Nat) (m : Mem) :
    walkaddr t va m = .ok (if Accessible t va then PTE2PA (t.get (index va)) else 0, m) := by
  rw [walkaddr]
  by_cases hva : MAXVA ≤ va
  · rw [if_pos hva, if_neg fun hacc => absurd hacc.1 (by omega)]
    rfl
  rw [if_neg hva]
  show (walk t va false m >>= _) = _
  rw [walk_read (by omega)]
  by_cases hhas : HasPte t (index va)
  · rw [if_pos hhas]
    by_cases hv : t.get (index va) &&& PTE_V = 0
    · rw [if_neg fun hacc => hacc.2.1 hv]
      show (if _ then _ else _ : Prog Nat) m = _
      rw [if_pos hv]
      rfl
    by_cases hu : t.get (index va) &&& PTE_U = 0
    · rw [if_neg fun hacc => hacc.2.2.1 hu]
      show (if _ then _ else _ : Prog Nat) m = _
      rw [if_neg hv, if_pos hu]
      rfl
    show (if _ then _ else _ : Prog Nat) m = _
    rw [if_neg hv, if_neg hu]
    by_cases hpa : PTE2PA (t.get (index va)) = 0
    · rw [if_neg fun hacc => hacc.2.2.2 hpa, hpa]
      rfl
    · rw [if_pos ⟨by omega, hv, hu, hpa⟩]
      rfl
  · rw [if_neg hhas, if_neg fun hacc => hacc.2.1 (by rw [get_of_not_has hhas]; rfl)]
    rfl

/-! ## Addresses of one page -/

theorem pgsize_pos : 0 < PGSIZE := by decide

theorem index_page (va : Nat) : index (PGROUNDDOWN va) = index va := by
  have hpx : ∀ level, PX level (PGROUNDDOWN va) = PX level va := by
    intro level
    rw [PX, PX, PGROUNDDOWN, Nat.pow_add, ← Nat.div_div_eq_div_mul, ← Nat.div_div_eq_div_mul,
      show (2 : Nat) ^ 12 = PGSIZE from rfl, Nat.mul_div_cancel _ (by decide)]
  rw [index, index, hpx, hpx, hpx]

theorem rounddown_lt_maxva (va : Nat) : PGROUNDDOWN va < MAXVA ↔ va < MAXVA := by
  simp only [PGROUNDDOWN, PGSIZE, MAXVA]
  omega

theorem accessible_page (t : Pagetable) (va : Nat) : Accessible t (PGROUNDDOWN va) ↔ Accessible t va := by
  rw [Accessible, Accessible, index_page, rounddown_lt_maxva]

theorem walkaddr_page (t : Pagetable) (va : Nat) (m : Mem) :
    walkaddr t (PGROUNDDOWN va) m = .ok (if Accessible t va then PTE2PA (t.get (index va)) else 0, m) := by
  rw [walkaddr_eq, index_page, if_congr (accessible_page t va) rfl rfl]

end Xv6.Vm
