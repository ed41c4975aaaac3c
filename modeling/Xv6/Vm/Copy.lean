import Xv6.Vm.Walk

/-!
# Copies to user memory, byte by byte

`copyout` goes from page to page. It does what a copy does that looks up the address of every
single byte, and stops at the first byte that is not accessible.
-/
namespace Xv6.Vm

open Xv6.Library.Total Xv6.Source.Vm

variable {t : Pagetable} {m : Mem}

/-- The physical address of a virtual one. -/
def translate (t : Pagetable) (va : Nat) : Nat := PTE2PA (t.get (index va)) + va % PGSIZE

/-- The copy that goes byte by byte. -/
def copyBytes (t : Pagetable) : Nat → List UInt8 → (Nat → UInt8) → Int × (Nat → UInt8)
  | _, [], byte => (0, byte)
  | va, x :: xs, byte =>
    if Accessible t va then copyBytes t (word (va + 1)) xs (Function.update byte (translate t va) x)
    else (-1, byte)

theorem write_nil (pa : Nat) (byte : Nat → UInt8) : write pa [] byte = byte := by
  funext x
  simp [write]

theorem write_cons (pa : Nat) (b : UInt8) (bs : List UInt8) (byte : Nat → UInt8) :
    write pa (b :: bs) byte = write (pa + 1) bs (Function.update byte pa b) := by
  funext x
  simp only [write, Function.update_apply]
  rcases Nat.lt_trichotomy x pa with hlt | rfl | hgt
  · rw [if_neg (by omega), if_neg (by omega), if_neg (by omega)]
  · rw [if_pos (Nat.le_refl x), if_neg (by omega), if_pos rfl, Nat.sub_self]
    rfl
  · rw [if_pos (by omega), if_pos (by omega), if_neg (by omega), show x - pa = (x - (pa + 1)) + 1 by omega,
      List.getD_cons_succ]

/-- The next byte, in the same page. -/
theorem same_page {va : Nat} (h : va % PGSIZE + 1 < PGSIZE) : PGROUNDDOWN (va + 1) = PGROUNDDOWN va ∧
    translate t (va + 1) = translate t va + 1 := by
  have hdown : PGROUNDDOWN (va + 1) = PGROUNDDOWN va := by
    simp only [PGROUNDDOWN, PGSIZE] at h ⊢
    omega
  refine ⟨hdown, ?_⟩
  rw [translate, translate, ← index_page (va + 1), hdown, index_page]
  simp only [PGSIZE] at h ⊢
  omega

/-- Bytes of one page are copied in one go. -/
theorem copyBytes_append (bs rest : List UInt8) {va : Nat} (hva : va < 2 ^ 64)
    (hacc : bs ≠ [] → Accessible t va) (hfit : va % PGSIZE + bs.length ≤ PGSIZE) (byte : Nat → UInt8) :
    copyBytes t va (bs ++ rest) byte =
      copyBytes t (word (va + bs.length)) rest (write (translate t va) bs byte) := by
  induction bs generalizing va byte with
  | nil => rw [write_nil, List.nil_append, List.length_nil, Nat.add_zero, word, Nat.mod_eq_of_lt hva]
  | cons b bs ih =>
    have hacc' := hacc (List.cons_ne_nil b bs)
    have hlt : va + 1 < 2 ^ 64 := Nat.lt_of_le_of_lt hacc'.1 (by decide)
    rw [List.cons_append, copyBytes, if_pos hacc', write_cons,
      show word (va + 1) = va + 1 from Nat.mod_eq_of_lt hlt, List.length_cons]
    cases bs with
    | nil => rw [write_nil, List.nil_append, List.length_nil, Nat.zero_add, word, Nat.mod_eq_of_lt hlt]
    | cons b' bs =>
      rw [List.length_cons, List.length_cons] at hfit
      obtain ⟨hpage, htr⟩ := same_page (t := t) (show va % PGSIZE + 1 < PGSIZE by omega)
      rw [ih hlt (fun _ => ?_) ?_, htr, show va + 1 + (b' :: bs).length = va + ((b' :: bs).length + 1) by omega]
      · rw [List.length_cons]
        simp only [PGSIZE] at hfit ⊢
        omega
      · rw [← accessible_page, hpage, accessible_page]
        exact hacc'

theorem copyBytes_nil (va : Nat) (byte : Nat → UInt8) : copyBytes t va [] byte = (0, byte) := rfl

/-- One round of `copyout` takes the bytes that fit in the page. -/
theorem copyBytes_round {va : Nat} (src : List UInt8) (hacc : Accessible t va) (byte : Nat → UInt8) :
    copyBytes t va src byte =
      copyBytes t (word (PGROUNDDOWN va + PGSIZE)) (src.drop (min (PGSIZE - (va - PGROUNDDOWN va)) src.length))
        (write (PTE2PA (t.get (index va)) + (va - PGROUNDDOWN va))
          (src.take (min (PGSIZE - (va - PGROUNDDOWN va)) src.length)) byte) := by
  have hva : va < 2 ^ 64 := Nat.lt_trans hacc.1 (by decide)
  have hoff : va - PGROUNDDOWN va = va % PGSIZE := by
    simp only [PGROUNDDOWN, PGSIZE]
    omega
  have hlt : va % PGSIZE < PGSIZE := Nat.mod_lt va (by decide)
  rw [hoff]
  generalize hk : min (PGSIZE - va % PGSIZE) src.length = k
  have hlen : (src.take k).length = k := by
    rw [List.length_take]
    omega
  have happ : copyBytes t va (src.take k ++ src.drop k) byte = _ :=
    copyBytes_append _ _ hva (fun _ => hacc) (by rw [hlen]; omega) byte
  rw [List.take_append_drop, hlen, translate] at happ
  rw [happ]
  rcases Nat.lt_or_ge src.length (PGSIZE - va % PGSIZE) with hshort | hfull
  · rw [List.drop_eq_nil_of_le (by omega), copyBytes_nil, copyBytes_nil]
  · rw [show va + k = PGROUNDDOWN va + PGSIZE by simp only [PGROUNDDOWN, PGSIZE] at hk hfull ⊢; omega]

theorem copyoutLoop_eq {n dstva : Nat} {src : List UInt8} (hn : src.length ≤ n) (m : Mem) :
    copyoutLoop t n dstva src m =
      .ok ((copyBytes t dstva src m.byte).1, { m with byte := (copyBytes t dstva src m.byte).2 }) := by
  induction n generalizing dstva src m with
  | zero =>
    rw [List.length_eq_zero_iff.1 (Nat.le_zero.1 hn)]
    rfl
  | succ n ih =>
    cases src with
    | nil => rfl
    | cons x xs =>
      refine (bind_ok (walkaddr_page t dstva m)).trans ?_
      by_cases hacc : Accessible t dstva
      · rw [if_pos hacc, copyBytes_round _ hacc, if_neg hacc.2.2.2]
        have hdrop : ((x :: xs).drop (min (PGSIZE - (dstva - PGROUNDDOWN dstva)) (x :: xs).length)).length ≤ n := by
          rw [List.length_drop]
          simp only [PGROUNDDOWN, PGSIZE, List.length_cons] at hn ⊢
          omega
        exact ih hdrop _
      · rw [if_neg hacc, copyBytes, if_neg hacc]
        rfl

/-- `copyout` copies byte by byte, up to the first byte that is not accessible. -/
theorem copyout_eq (t : Pagetable) (dstva : Nat) (src : List UInt8) (m : Mem) :
    copyout t dstva src m =
      .ok ((copyBytes t dstva src m.byte).1, { m with byte := (copyBytes t dstva src m.byte).2 }) :=
  copyoutLoop_eq (Nat.le_refl _) m

/-! ## The addresses of a copy -/

/-- The `n` addresses from `va` on. -/
def span (va n : Nat) : List Nat := (List.range n).map fun k => word (va + k)

/-- The addresses that `copyout` writes to. -/
def written (t : Pagetable) (va n : Nat) : List Nat := (span va n).takeWhile fun a => decide (Accessible t a)

/-- Bytes stored at virtual addresses, one after the other. -/
def stores (t : Pagetable) : List (Nat × UInt8) → (Nat → UInt8) → Nat → UInt8
  | [], byte => byte
  | (va, x) :: rest, byte => stores t rest (Function.update byte (translate t va) x)

theorem span_succ {va : Nat} (hva : va < 2 ^ 64) (n : Nat) : span va (n + 1) = va :: span (word (va + 1)) n := by
  rw [span, List.range_succ_eq_map, List.map_cons, List.map_map, Nat.add_zero, word, Nat.mod_eq_of_lt hva, span]
  congr 1
  refine List.map_congr_left fun k _ => ?_
  simp only [Function.comp, word]
  omega

theorem mem_span {va n a : Nat} : a ∈ span va n ↔ ∃ k < n, word (va + k) = a := by
  simp only [span, List.mem_map, List.mem_range]

/-- A list goes on for as long as all elements so far have the property. -/
theorem mem_takeWhile_map_range {f : Nat → Nat} {p : Nat → Prop} [DecidablePred p] {n a : Nat} :
    a ∈ ((List.range n).map f).takeWhile (fun x => decide (p x)) ↔ ∃ k < n, (∀ j ≤ k, p (f j)) ∧ f k = a := by
  induction n generalizing f with
  | zero => simp
  | succ n ih =>
    rw [List.range_succ_eq_map, List.map_cons, List.map_map, List.takeWhile_cons]
    by_cases hp : p (f 0)
    · rw [if_pos (decide_eq_true hp), List.mem_cons, ih]
      constructor
      · rintro (rfl | ⟨k, hk, hall, rfl⟩)
        · exact ⟨0, Nat.succ_pos n, fun j hj => by rwa [Nat.le_zero.1 hj], rfl⟩
        · refine ⟨k + 1, Nat.succ_lt_succ hk, fun j hj => ?_, rfl⟩
          cases j with
          | zero => exact hp
          | succ j => exact hall j (Nat.le_of_succ_le_succ hj)
      · rintro ⟨k, hk, hall, rfl⟩
        cases k with
        | zero => exact .inl rfl
        | succ k => exact .inr ⟨k, Nat.lt_of_succ_lt_succ hk, fun j hj => hall (j + 1) (Nat.succ_le_succ hj), rfl⟩
    · rw [if_neg (mt of_decide_eq_true hp)]
      exact iff_of_false (List.not_mem_nil) fun ⟨_, _, hall, _⟩ => hp (hall 0 (Nat.zero_le _))

theorem mem_written {va n a : Nat} :
    a ∈ written t va n ↔ ∃ k < n, (∀ j ≤ k, Accessible t (word (va + j))) ∧ word (va + k) = a :=
  mem_takeWhile_map_range

/-- A copy succeeds if all its addresses are accessible, and it stores to those before the first
that is not. -/
theorem copyBytes_eq {va : Nat} (hva : va < 2 ^ 64) (src : List UInt8) (byte : Nat → UInt8) :
    copyBytes t va src byte =
      (if ∀ a ∈ span va src.length, Accessible t a then 0 else -1, stores t ((written t va src.length).zip src) byte) := by
  induction src generalizing va byte with
  | nil => simp [copyBytes, span, stores]
  | cons x xs ih =>
    have hnext : word (va + 1) < 2 ^ 64 := Nat.mod_lt _ (by decide)
    rw [copyBytes, List.length_cons, written, span_succ hva]
    by_cases hacc : Accessible t va
    · rw [if_pos hacc, ih hnext, List.takeWhile_cons, if_pos (decide_eq_true hacc), List.zip_cons_cons, stores,
        written]
      simp only [List.forall_mem_cons, hacc, true_and]
    · rw [if_neg hacc, List.takeWhile_cons, if_neg (mt of_decide_eq_true hacc), List.zip_nil_left, stores,
        if_neg fun hall => hacc (hall va List.mem_cons_self)]

end Xv6.Vm
