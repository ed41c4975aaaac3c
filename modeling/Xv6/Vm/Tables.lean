import Mathlib.Algebra.BigOperators.Fin
import Mathlib.Tactic.Abel
import Xv6.Library.Pool
import Xv6.Vm.Pte

/-!
# The pages of a page table

A page table owns its own pages, at all levels. Physical pages are free or owned; `kalloc` and
`kfree` move them between the two. `walk` adds pages to a table and keeps its PTEs, a store to a
PTE keeps the pages.
-/
namespace Xv6.Vm

open Xv6.Library Xv6.Library.Total Xv6.Source.Vm

/-! ## Physical pages -/

def InPage (pa x : Nat) : Prop := pa ≤ x ∧ x < pa + PGSIZE

/-- The free pages, and the bytes of all pages. -/
def memory : Pool Mem Nat Nat UInt8 Ram where
  free m := ↑m.freelist
  cell m := m.byte
  inside := InPage
  fixed m := m.ram

/-- An address that `kfree` takes. -/
structure IsPage (ram : Ram) (pa : Nat) : Prop where
  aligned : pa % PGSIZE = 0
  first_le : ram.first ≤ pa
  lt_stop : pa < ram.stop

theorem IsPage.lt {ram : Ram} {pa : Nat} (h : IsPage ram pa) : pa < 2 ^ 64 := Nat.lt_of_lt_of_le h.lt_stop ram.stop_le

theorem IsPage.pos {ram : Ram} {pa : Nat} (h : IsPage ram pa) : 0 < pa := Nat.lt_of_lt_of_le ram.first_pos h.first_le

/-- The free pages and those in `own` are pages that `kfree` takes. -/
def Sound (m : Mem) (own : Multiset Nat) : Prop := ∀ pa ∈ memory.free m + own, IsPage m.ram pa

variable {m m' : Mem} {a b : Multiset Nat}

theorem Sound.moves (h : Sound m a) (hm : memory.Moves m a m' b) : Sound m' b := by
  intro pa hpa
  have hram : m'.ram = m.ram := hm.fixed
  rw [hram]
  exact h pa (hm.mem_iff.1 hpa)

theorem Sound.mono (h : Sound m a) (hle : b ≤ a) : Sound m b :=
  fun pa hpa => h pa (Multiset.mem_of_le (add_le_add_right hle _) hpa)

theorem Sound.own (h : Sound m a) {pa : Nat} (hpa : pa ∈ a) : IsPage m.ram pa := h pa (Multiset.mem_add.2 (.inr hpa))

theorem fill_of_not_inPage {pa x : Nat} (h : ¬ InPage pa x) (v : UInt8) (byte : Nat → UInt8) :
    fill pa v byte x = byte x :=
  if_neg h

theorem kalloc_spec (m : Mem) :
    Ends kalloc m fun r m' => memory.Moves m 0 m' (r.elim 0 fun pa => {pa}) := by
  by_cases hfail : m.fails.head? = some true
  · have heq : kalloc m = .ok (none, { m with fails := m.fails.tail }) := by rw [kalloc, if_pos hfail]
    exact .of_eq heq ⟨rfl, fun _ _ => rfl, rfl⟩
  cases hfree : m.freelist with
  | nil =>
    have heq : kalloc m = .ok (none, { m with fails := m.fails.tail }) := by
      rw [kalloc, if_neg hfail]
      simp only [hfree]
    exact .of_eq heq ⟨rfl, fun _ _ => rfl, rfl⟩
  | cons pa freelist =>
    have heq : kalloc m = .ok (some pa,
        { m with freelist := freelist, byte := fill pa 5 m.byte, fails := m.fails.tail }) := by
      rw [kalloc, if_neg hfail]
      simp only [hfree]
    refine .of_eq heq ⟨?_, fun k hk => ?_, rfl⟩
    · show (↑freelist : Multiset Nat) + {pa} = ↑m.freelist + 0
      rw [hfree, add_zero, add_comm, Multiset.singleton_add, Multiset.cons_coe]
    · refine fill_of_not_inPage (hk pa ?_) 5 m.byte
      show pa ∈ (↑m.freelist : Multiset Nat) + 0
      rw [hfree, add_zero]
      exact List.mem_cons_self

theorem kfree_spec {pa : Nat} (h : IsPage m.ram pa) : Ends (kfree pa) m fun _ m' => memory.Moves m {pa} m' 0 := by
  have hok : ¬ (pa % PGSIZE ≠ 0 ∨ pa < m.ram.first ∨ m.ram.stop ≤ pa) := by
    have := h.aligned
    have := h.first_le
    have := h.lt_stop
    omega
  have heq : kfree pa m = .ok ((), { m with freelist := pa :: m.freelist, byte := fill pa 1 m.byte }) := by
    rw [kfree, if_neg hok]
  refine .of_eq heq ⟨?_, fun k hk => ?_, rfl⟩
  · show (↑(pa :: m.freelist) : Multiset Nat) + 0 = ↑m.freelist + {pa}
    rw [add_zero, add_comm, Multiset.singleton_add, Multiset.cons_coe]
  · exact fill_of_not_inPage (hk pa (Multiset.mem_add.2 (.inr (Multiset.mem_singleton_self pa)))) 1 m.byte

theorem memset_spec (m : Mem) (pa : Nat) (v : UInt8) :
    Ends (memset pa v) m fun _ m' => memory.Moves m {pa} m' {pa} := by
  refine .of_eq rfl ⟨rfl, fun k hk => ?_, rfl⟩
  exact fill_of_not_inPage (hk pa (Multiset.mem_add.2 (.inr (Multiset.mem_singleton_self pa)))) v m.byte

theorem memset_zero (m : Mem) (pa : Nat) :
    Ends (memset pa 0) m fun _ m' => memory.Moves m {pa} m' {pa} ∧ ∀ x, InPage pa x → m'.byte x = 0 := by
  obtain ⟨r, m', heq, hmoves⟩ := memset_spec m pa 0
  refine .of_eq heq ⟨hmoves, fun x hx => ?_⟩
  cases heq
  exact if_pos hx

theorem write_of_not_inPage {pa x : Nat} {bytes : List UInt8} (h : ¬ InPage pa x) (hlen : bytes.length ≤ PGSIZE)
    (byte : Nat → UInt8) : write pa bytes byte x = byte x := by
  rw [write]
  split_ifs with hle
  · rw [InPage] at h
    exact List.getD_eq_default _ _ (by omega)
  · rfl

theorem memmove_spec {bytes : List UInt8} (hlen : bytes.length ≤ PGSIZE) (m : Mem) (pa : Nat) :
    Ends (memmove pa bytes) m fun _ m' => memory.Moves m {pa} m' {pa} := by
  refine .of_eq rfl ⟨rfl, fun k hk => ?_, rfl⟩
  exact write_of_not_inPage (hk pa (Multiset.mem_add.2 (.inr (Multiset.mem_singleton_self pa)))) hlen m.byte

/-- A page that has been taken was free. -/
theorem Sound.taken {pa : Nat} (h : Sound m a) (hm : memory.Moves m 0 m' {pa}) : IsPage m.ram pa := by
  refine h pa (Multiset.mem_add.2 (.inl ?_))
  rw [← add_zero (memory.free m), ← hm.balance]
  exact Multiset.mem_add.2 (.inr (Multiset.mem_singleton_self pa))

/-- No page is free and owned, or owned twice. -/
def Apart (m : Mem) (own : Multiset Nat) : Prop := (memory.free m + own).Nodup

theorem Apart.moves (h : Apart m a) (hm : memory.Moves m a m' b) : Apart m' b := by
  rw [Apart, hm.balance]
  exact h

theorem Apart.mono (h : Apart m a) (hle : b ≤ a) : Apart m b := Multiset.nodup_of_le (add_le_add_right hle _) h

/-- Pages that are aligned have no byte in common. -/
theorem InPage.eq {pa pa' x : Nat} (h : InPage pa x) (h' : InPage pa' x) (hpa : pa % PGSIZE = 0)
    (hpa' : pa' % PGSIZE = 0) : pa = pa' := by
  unfold InPage PGSIZE at *
  omega

/-- The bytes of a page that takes no part stay. -/
theorem byte_kept {pa x : Nat} (hm : memory.Moves m a m' b) (hok : Sound m (a + {pa})) (hapart : Apart m (a + {pa}))
    (hx : InPage pa x) : m'.byte x = m.byte x := by
  refine hm.kept x fun y hy hin => ?_
  have hpage := hok.own (Multiset.mem_add.2 (.inr (Multiset.mem_singleton_self pa)))
  have hy' : y ∈ memory.free m + (a + {pa}) := by
    rw [← add_assoc]
    exact Multiset.mem_add.2 (.inl hy)
  obtain rfl := InPage.eq hin hx (hok y hy').aligned hpage.aligned
  rw [Apart, ← add_assoc, Multiset.nodup_add] at hapart
  exact Multiset.disjoint_left.1 hapart.2.2 hy (Multiset.mem_singleton_self y)

/-! ## Pages of a table -/

def Table.owned {α : Type} (sub : α → Multiset Nat) (t : Table (Option α)) : Multiset Nat :=
  {t.page} + ∑ i, (t.entry i).elim 0 sub

def leavesPages (l : Leaves) : Multiset Nat := {l.page}

def middlePages (t : Middle) : Multiset Nat := Table.owned leavesPages t

/-- All pages of the table. -/
def tables (t : Pagetable) : Multiset Nat := Table.owned middlePages t

section Owned

variable {α : Type} (sub : α → Multiset Nat)

theorem owned_set (t : Table (Option α)) (i : Fin 512) (o : Option α) :
    Table.owned sub (t.set i o) + (t.entry i).elim 0 sub = Table.owned sub t + o.elim 0 sub := by
  have hupdate : ∑ j, ((t.set i o).entry j).elim 0 sub =
      o.elim 0 sub + ∑ j ∈ Finset.univ \ {i}, (t.entry j).elim 0 sub := by
    rw [← Finset.sum_update_of_mem (Finset.mem_univ i)]
    refine Finset.sum_congr rfl fun j _ => ?_
    exact (Function.apply_update (fun _ (x : Option α) => x.elim 0 sub) t.entry i o j)
  have hall := Finset.sum_eq_add_sum_sdiff_singleton_of_mem (Finset.mem_univ i) fun j => (t.entry j).elim 0 sub
  rw [Table.owned, Table.owned, hupdate, hall]
  show {t.page} + _ + _ = _
  abel

/-- What happens below an entry happens in the whole table. -/
theorem moves_set {t : Table (Option α)} {i : Fin 512} {o : Option α}
    (h : memory.Moves m ((t.entry i).elim 0 sub) m' (o.elim 0 sub)) :
    memory.Moves m (Table.owned sub t) m' (Table.owned sub (t.set i o)) := by
  have hold := owned_set sub t i none
  have hnew := owned_set sub (t.set i none) i o
  have hset : (t.set i none).set i o = t.set i o := by
    simp only [Table.set, Function.update_idem]
  have hnone : (t.set i none).entry i = none := Function.update_self ..
  rw [hset, hnone] at hnew
  refine (h.frame_left (Table.owned sub (t.set i none))).congr (hold.trans (add_zero _)) ?_
  exact hnew.symm.trans (add_zero _)

theorem owned_set_same (t : Table (Option α)) (i : Fin 512) (o : Option α)
    (h : o.elim 0 sub = (t.entry i).elim 0 sub) : Table.owned sub (t.set i o) = Table.owned sub t := by
  have hset := owned_set sub t i o
  rw [h] at hset
  exact add_right_cancel hset

theorem owned_fresh (pa : Nat) : Table.owned sub ⟨pa, fun _ => none⟩ = {pa} := by
  simp [Table.owned]

/-- In the order of `freewalk`. -/
theorem owned_eq_list (t : Table (Option α)) :
    Table.owned sub t = ((List.finRange 512).map fun i => (t.entry i).elim 0 sub).sum + {t.page} := by
  rw [Table.owned, add_comm, Fin.sum_univ_def]

end Owned

-- a sum over 512 entries, which must not be unfolded
attribute [irreducible] Table.owned

/-! ## PTEs -/

/-- The PTE below an entry of the middle level, and of the top. -/
def leafGet (o : Option Leaves) (zero : Fin 512) : UInt64 := o.elim 0 fun l => l.entry zero

def midGet (o : Option Middle) (one zero : Fin 512) : UInt64 := o.elim 0 fun t => leafGet (t.entry one) zero

theorem get_eq (t : Pagetable) (i : Index) : t.get i = midGet (t.entry i.two) i.one i.zero := by
  rw [Pagetable.get]
  split
  · rename_i h
    rw [h]
    rfl
  · rename_i mid h
    rw [h]
    show _ = leafGet (mid.entry i.one) i.zero
    split
    · rename_i h'
      rw [h']
      rfl
    · rename_i l h'
      rw [h']
      rfl

theorem entry_set {α : Type} (t : Table α) (i j : Fin 512) (a : α) :
    (t.set i a).entry j = if j = i then a else t.entry j :=
  Function.update_apply ..

theorem get_set (t : Pagetable) (two : Fin 512) (o : Option Middle) (h : midGet o = midGet (t.entry two)) :
    Pagetable.get (t.set two o) = t.get := by
  funext i
  rw [get_eq, get_eq]
  by_cases hi : i.two = two
  · rw [hi, ← h]
    exact congrArg (fun o => midGet o i.one i.zero) (Function.update_self ..)
  · exact congrArg (fun o => midGet o i.one i.zero) (Function.update_of_ne hi ..)

theorem midGet_set (t : Middle) (one : Fin 512) (o : Option Leaves) (h : leafGet o = leafGet (t.entry one)) :
    midGet (some (t.set one o)) = midGet (some t) := by
  funext j zero
  show leafGet ((t.set one o).entry j) zero = leafGet (t.entry j) zero
  by_cases hj : j = one
  · rw [hj, ← h]
    exact congrArg (fun o => leafGet o zero) (Function.update_self ..)
  · exact congrArg (fun o => leafGet o zero) (Function.update_of_ne hj ..)

theorem has_of_get_ne {t : Pagetable} {i : Index} (h : t.get i ≠ 0) : HasPte t i := by
  by_contra hno
  exact h (get_of_not_has hno)

section Put

variable {t : Pagetable} {i : Index}

theorem put_eq {mid : Middle} {l : Leaves} (hmid : t.entry i.two = some mid) (hl : mid.entry i.one = some l)
    (pte : UInt64) :
    t.put i pte = t.set i.two (some (mid.set i.one (some (l.set i.zero pte)))) := by
  rw [Pagetable.put]
  simp only [hmid, hl]

theorem get_put (h : HasPte t i) (pte : UInt64) : (t.put i pte).get = Function.update t.get i pte := by
  obtain ⟨mid, l, hmid, hl⟩ := h
  rw [put_eq hmid hl]
  funext ⟨two, one, zero⟩
  obtain ⟨two', one', zero'⟩ := i
  rw [get_eq, entry_set, Function.update_apply]
  by_cases htwo : two = two'
  · subst htwo
    rw [if_pos rfl]
    show leafGet ((mid.set one' _).entry one) zero = _
    rw [entry_set]
    by_cases hone : one = one'
    · subst hone
      rw [if_pos rfl]
      show (l.set zero' pte).entry zero = _
      rw [entry_set]
      by_cases hzero : zero = zero'
      · rw [if_pos hzero, if_pos (by rw [hzero])]
      · rw [if_neg hzero, if_neg (fun h => hzero (Index.mk.inj h).2.2), get_eq, hmid]
        show _ = leafGet (mid.entry one) zero
        rw [hl]
        rfl
    · rw [if_neg hone, if_neg (fun h => hone (Index.mk.inj h).2.1), get_eq, hmid]
      rfl
  · rw [if_neg htwo, if_neg (fun h => htwo (Index.mk.inj h).1), get_eq]

theorem tables_put (i : Index) (pte : UInt64) : tables (t.put i pte) = tables t := by
  rw [Pagetable.put]
  split
  · rfl
  · rename_i mid hmid
    split
    · rfl
    · rename_i l hl
      refine owned_set_same middlePages t i.two _ ?_
      rw [hmid]
      refine owned_set_same leavesPages mid i.one _ ?_
      rw [hl]
      rfl

end Put

/-! ## `walk` with allocation -/

theorem nextLevel_spec {α : Type} (sub : α → Multiset Nat) {fresh : Nat → α} (hfresh : ∀ pa, sub (fresh pa) = {pa})
    (o : Option α) (m : Mem) :
    Ends (nextLevel true fresh o) m fun r m' => memory.Moves m (o.elim 0 sub) m' (r.elim 0 sub) ∧
      (o = r ∨ o = none ∧ ∃ pa, r = some (fresh pa)) := by
  cases o with
  | some a => exact .ret ⟨.refl m _, .inl rfl⟩
  | none =>
    refine .bind (kalloc_spec m) fun r m' hr => ?_
    cases r with
    | none => exact .ret ⟨hr, .inl rfl⟩
    | some pa =>
      refine .bind (memset_spec m' pa 0) fun _ m'' hset => .ret ⟨?_, .inr ⟨rfl, pa, rfl⟩⟩
      show memory.Moves m 0 m'' (sub (fresh pa))
      rw [hfresh]
      exact hr.trans hset

theorem walk_spec {t : Pagetable} {va : Nat} (h : va < MAXVA) (m : Mem) :
    Ends (walk t va true) m fun r m' => memory.Moves m (tables t) m' (tables r.2) ∧ r.2.get = t.get ∧
      (r.1 = none ∨ r.1 = some (index va) ∧ HasPte r.2 (index va)) := by
  rw [walk, if_neg (by omega)]
  refine .bind (nextLevel_spec middlePages (owned_fresh leavesPages) _ m) ?_
  rintro o m₁ ⟨hmoves, ho⟩
  cases o with
  | none =>
    have hnone : t.entry (PX 2 va) = none := ho.elim id And.left
    rw [hnone] at hmoves
    refine .ret ⟨(hmoves.frame (tables t)).congr (zero_add _) (zero_add _), rfl, .inl rfl⟩
  | some mid =>
    have hmid : midGet (some mid) = midGet (t.entry (PX 2 va)) := by
      rcases ho with heq | ⟨hnone, pa, heq⟩
      · rw [heq]
      · rw [hnone, heq]
        rfl
    refine .bind (nextLevel_spec leavesPages (fun _ => rfl) _ m₁) ?_
    rintro o' m₂ ⟨hmoves', ho'⟩
    cases o' with
    | none =>
      have hnone : mid.entry (PX 1 va) = none := ho'.elim id And.left
      rw [hnone] at hmoves'
      have hsame := (hmoves'.frame (middlePages mid)).congr (zero_add _) (zero_add _)
      exact .ret ⟨moves_set middlePages (hmoves.trans hsame), get_set t _ _ hmid, .inl rfl⟩
    | some l =>
      have hl : leafGet (some l) = leafGet (mid.entry (PX 1 va)) := by
        rcases ho' with heq | ⟨hnone, pa, heq⟩
        · rw [heq]
        · rw [hnone, heq]
          rfl
      refine .ret ⟨moves_set middlePages (hmoves.trans (moves_set leavesPages hmoves')), ?_, .inr ⟨rfl, ?_⟩⟩
      · exact get_set t _ _ ((midGet_set mid _ _ hl).trans hmid)
      · exact ⟨_, l, Function.update_self .., Function.update_self ..⟩

end Xv6.Vm
