import Mathlib.Data.List.TakeWhile
import Xv6.Vm.Copy

/-!
# Copies from user memory, byte by byte

`copyin` and `copyinstr` go from page to page too. Each reads the bytes up to the first address
that is not accessible, at addresses that are sums of numbers: no sum wraps.
-/
namespace Xv6.Vm

open Xv6.Library.Total Xv6.Source.Vm

variable {t : Pagetable} {m : Mem} {va n k : Nat} {byte : Nat → UInt8}

/-- The first `k` of `n` addresses from `va` on are accessible, and no more. -/
structure Reach (t : Pagetable) (va n k : Nat) : Prop where
  le : k ≤ n
  accessible : ∀ i < k, Accessible t (va + i)
  stops : k < n → ¬ Accessible t (va + k)

/-- Bytes at virtual addresses. -/
def bytesVa (t : Pagetable) (byte : Nat → UInt8) (va n : Nat) : List UInt8 :=
  (List.range n).map fun i => byte (translate t (va + i))

theorem Reach.eq_iff (h : Reach t va n k) : k = n ↔ ∀ i < n, Accessible t (va + i) := by
  constructor
  · rintro rfl
    exact h.accessible
  · intro hall
    by_contra hne
    have hlt : k < n := Nat.lt_of_le_of_ne h.le hne
    exact h.stops hlt (hall k hlt)

theorem bytesVa_append (t : Pagetable) (byte : Nat → UInt8) (va n k : Nat) :
    bytesVa t byte va n ++ bytesVa t byte (va + n) k = bytesVa t byte va (n + k) := by
  rw [bytesVa, bytesVa, bytesVa, List.range_add, List.map_append, List.map_map]
  congr 1
  refine List.map_congr_left fun i _ => ?_
  rw [Function.comp_apply, Nat.add_assoc]

/-- The part of `n` bytes that is in the page of `va`. -/
def inPage (va n : Nat) : Nat := min (PGSIZE - (va - PGROUNDDOWN va)) n

theorem inPage_le (va n : Nat) : inPage va n ≤ n := Nat.min_le_right _ _

theorem inPage_pos (va : Nat) (hn : 0 < n) : 0 < inPage va n := by
  simp only [inPage, PGROUNDDOWN, PGSIZE]
  omega

/-- Where the next page begins, if there is more to copy. -/
theorem next_va (hacc : Accessible t va) (hmore : inPage va n < n) : word (PGROUNDDOWN va + PGSIZE) = va + inPage va n := by
  have hlt : va < 2 ^ 38 := hacc.1
  simp only [inPage, word, PGROUNDDOWN, PGSIZE] at hmore ⊢
  omega

/-- Addresses in one page. -/
theorem page_of_lt {i : Nat} (hi : i < inPage va n) :
    PGROUNDDOWN (va + i) = PGROUNDDOWN va ∧ translate t (va + i) = PTE2PA (t.get (index va)) + (va - PGROUNDDOWN va) + i := by
  have hdown : PGROUNDDOWN (va + i) = PGROUNDDOWN va := by
    simp only [inPage, PGROUNDDOWN, PGSIZE] at hi ⊢
    omega
  refine ⟨hdown, ?_⟩
  rw [translate, ← index_page (va + i), hdown, index_page]
  simp only [inPage, PGROUNDDOWN, PGSIZE] at hi ⊢
  omega

theorem accessible_inPage (hacc : Accessible t va) {i : Nat} (hi : i < inPage va n) : Accessible t (va + i) := by
  rw [← accessible_page, (page_of_lt (t := t) hi).1, accessible_page]
  exact hacc

/-- The bytes of one page are a piece of physical memory. -/
theorem bytesAt_inPage (t : Pagetable) (byte : Nat → UInt8) (va n : Nat) :
    bytesAt byte (PTE2PA (t.get (index va)) + (va - PGROUNDDOWN va)) (inPage va n) = bytesVa t byte va (inPage va n) := by
  rw [bytesAt, bytesVa]
  refine List.map_congr_left fun i hi => ?_
  rw [(page_of_lt (List.mem_range.1 hi)).2]

theorem Reach.zero (t : Pagetable) (va : Nat) : Reach t va 0 0 := ⟨Nat.le_refl 0, nofun, nofun⟩

theorem Reach.none (hacc : ¬ Accessible t va) : Reach t va n 0 := ⟨Nat.zero_le n, nofun, fun _ => hacc⟩

/-- A page that is accessible, and what is reached from its end on. -/
theorem Reach.page (hacc : Accessible t va) (h : Reach t (word (PGROUNDDOWN va + PGSIZE)) (n - inPage va n) k) :
    Reach t va n (inPage va n + k) := by
  have hle := inPage_le va n
  by_cases hmore : inPage va n < n
  · rw [next_va hacc hmore] at h
    refine ⟨by have := h.le; omega, fun i hi => ?_, fun hlt => ?_⟩
    · by_cases hin : i < inPage va n
      · exact accessible_inPage hacc hin
      · have hrest := h.accessible (i - inPage va n) (by omega)
        rwa [show va + inPage va n + (i - inPage va n) = va + i by omega] at hrest
    · rw [← Nat.add_assoc]
      exact h.stops (by omega)
  · have hk : k = 0 := by have := h.le; omega
    subst hk
    exact ⟨by omega, fun i hi => accessible_inPage hacc hi, fun hlt => absurd hlt hmore⟩

theorem bytesVa_page (hacc : Accessible t va) (h : k ≤ n - inPage va n) :
    bytesVa t byte va (inPage va n) ++ bytesVa t byte (word (PGROUNDDOWN va + PGSIZE)) k = bytesVa t byte va (inPage va n + k) := by
  by_cases hmore : inPage va n < n
  · rw [next_va hacc hmore, bytesVa_append]
  · have hk : k = 0 := by omega
    subst hk
    exact List.append_nil _

/-! ## copyin -/

theorem copyinLoop_eq {fuel : Nat} (va : Nat) (hfuel : n ≤ fuel) (m : Mem) :
    ∃ k, Reach t va n k ∧
      copyinLoop t fuel va n m = .ok ((if k = n then 0 else -1, bytesVa t m.byte va k), m) := by
  induction fuel generalizing va n with
  | zero =>
    obtain rfl : n = 0 := Nat.le_zero.1 hfuel
    exact ⟨0, .zero t va, rfl⟩
  | succ fuel ih =>
    cases n with
    | zero => exact ⟨0, .zero t va, rfl⟩
    | succ n =>
      by_cases hacc : Accessible t va
      · have hpos : 0 < inPage va (n + 1) := inPage_pos va (Nat.succ_pos n)
        obtain ⟨k, hreach, hrun⟩ := @ih (n + 1 - inPage va (n + 1)) (word (PGROUNDDOWN va + PGSIZE)) (by omega)
        have hle := hreach.le
        have hpart := inPage_le va (n + 1)
        refine ⟨inPage va (n + 1) + k, .page hacc hreach, ?_⟩
        refine (bind_ok (walkaddr_page t va m)).trans ?_
        rw [if_pos hacc, if_neg hacc.2.2.2]
        refine (bind_ok (show (get : Prog Mem) m = .ok (m, m) from rfl)).trans ?_
        refine (bind_ok hrun).trans ?_
        show Except.ok ((_, bytesAt m.byte _ (inPage va (n + 1)) ++ _), m) = _
        rw [bytesAt_inPage, bytesVa_page hacc hle, if_congr (show k = n + 1 - inPage va (n + 1) ↔ inPage va (n + 1) + k = n + 1 by omega) rfl rfl]
      · refine ⟨0, .none hacc, (bind_ok (walkaddr_page t va m)).trans ?_⟩
        rw [if_neg hacc]
        rfl

/-- `copyin` reads byte by byte, up to the first byte that is not accessible. -/
theorem copyin_eq (t : Pagetable) (va n : Nat) (m : Mem) :
    ∃ k, Reach t va n k ∧ copyin t va n m = .ok ((if k = n then 0 else -1, bytesVa t m.byte va k), m) :=
  copyinLoop_eq va (Nat.le_refl n) m

/-! ## copyinstr -/

/-- The first `k` bytes are accessible and not NUL; then comes a NUL, or the string is not read. -/
inductive StringReach (t : Pagetable) (byte : Nat → UInt8) (va max k : Nat) : Int → Prop where
  | ends (lt : k < max) (accessible : ∀ i ≤ k, Accessible t (va + i)) (text : ∀ i < k, byte (translate t (va + i)) ≠ 0)
    (nul : byte (translate t (va + k)) = 0) : StringReach t byte va max k 0
  | stops (reach : Reach t va max k) (text : ∀ i < k, byte (translate t (va + i)) ≠ 0) : StringReach t byte va max k (-1)

theorem StringReach.le {r : Int} (h : StringReach t byte va n k r) : k ≤ n := by
  cases h with
  | ends lt => exact Nat.le_of_lt lt
  | stops reach => exact reach.le

/-- A page without NUL, and what is read from its end on. -/
theorem StringReach.page {r : Int} (hacc : Accessible t va)
    (htext : ∀ i < inPage va n, byte (translate t (va + i)) ≠ 0)
    (h : StringReach t byte (word (PGROUNDDOWN va + PGSIZE)) (n - inPage va n) k r) :
    StringReach t byte va n (inPage va n + k) r := by
  have hle := h.le
  have hpart := inPage_le va n
  have hboth (hmore : inPage va n < n) (h' : ∀ i < k, byte (translate t (va + inPage va n + i)) ≠ 0) :
      ∀ i < inPage va n + k, byte (translate t (va + i)) ≠ 0 := by
    intro i hi
    by_cases hin : i < inPage va n
    · exact htext i hin
    · have hrest := h' (i - inPage va n) (by omega)
      rwa [show va + inPage va n + (i - inPage va n) = va + i by omega] at hrest
  cases h with
  | ends lt accessible text nul =>
    have hmore : inPage va n < n := by omega
    rw [next_va hacc hmore] at accessible text nul
    refine .ends (by omega) (fun i hi => ?_) (hboth hmore text) (by rwa [← Nat.add_assoc])
    by_cases hin : i < inPage va n
    · exact accessible_inPage hacc hin
    · have hrest := accessible (i - inPage va n) (by omega)
      rwa [show va + inPage va n + (i - inPage va n) = va + i by omega] at hrest
  | stops reach text =>
    refine .stops (reach.page hacc) ?_
    by_cases hmore : inPage va n < n
    · rw [next_va hacc hmore] at text
      exact hboth hmore text
    · have hk : k = 0 := by omega
      subst hk
      exact htext

/-- The bytes before the first NUL of a page. -/
theorem takeWhile_bytesVa (t : Pagetable) (byte : Nat → UInt8) (va : Nat) {n : Nat} (h : (0 : UInt8) ∈ bytesVa t byte va n) :
    ∃ k < n, (∀ i < k, byte (translate t (va + i)) ≠ 0) ∧ byte (translate t (va + k)) = 0 ∧
      (bytesVa t byte va n).takeWhile (· ≠ 0) = bytesVa t byte va k := by
  induction n with
  | zero => cases h
  | succ n ih =>
    have hsplit : bytesVa t byte va (n + 1) = bytesVa t byte va n ++ [byte (translate t (va + n))] :=
      (bytesVa_append t byte va n 1).symm
    by_cases hin : (0 : UInt8) ∈ bytesVa t byte va n
    · obtain ⟨k, hk, htext, hnul, htake⟩ := ih hin
      refine ⟨k, Nat.lt_succ_of_lt hk, htext, hnul, ?_⟩
      rw [hsplit, List.takeWhile_append, if_neg, htake]
      rw [htake]
      simp only [bytesVa, List.length_map, List.length_range]
      omega
    · rw [hsplit, List.mem_append, List.mem_singleton] at h
      have htext : ∀ i < n, byte (translate t (va + i)) ≠ 0 := fun i hi hz =>
        hin (List.mem_map.2 ⟨i, List.mem_range.2 hi, hz⟩)
      refine ⟨n, Nat.lt_succ_self n, htext, (h.resolve_left hin).symm, ?_⟩
      have hall : (bytesVa t byte va n).takeWhile (· ≠ 0) = bytesVa t byte va n := by
        refine List.takeWhile_eq_self_iff.2 fun x hx => ?_
        rw [decide_eq_true_eq]
        rintro rfl
        exact hin hx
      rw [hsplit, List.takeWhile_append, if_pos (by rw [hall]), ← h.resolve_left hin, List.takeWhile_cons_of_neg (by decide),
        List.append_nil]

theorem copyinstrLoop_eq {fuel : Nat} (va : Nat) (hfuel : n ≤ fuel) (m : Mem) :
    ∃ k r, StringReach t m.byte va n k r ∧ copyinstrLoop t fuel va n m = .ok ((r, bytesVa t m.byte va k), m) := by
  induction fuel generalizing va n with
  | zero =>
    obtain rfl : n = 0 := Nat.le_zero.1 hfuel
    exact ⟨0, -1, .stops (.zero t va) (by rintro _ ⟨⟩), rfl⟩
  | succ fuel ih =>
    cases n with
    | zero => exact ⟨0, -1, .stops (.zero t va) (by rintro _ ⟨⟩), rfl⟩
    | succ n =>
      by_cases hacc : Accessible t va
      · have hstart : copyinstrLoop t (fuel + 1) va (n + 1) m =
            (if (0 : UInt8) ∈ bytesVa t m.byte va (inPage va (n + 1)) then
              pure (0, (bytesVa t m.byte va (inPage va (n + 1))).takeWhile (· ≠ 0))
            else copyinstrLoop t fuel (word (PGROUNDDOWN va + PGSIZE)) (n + 1 - inPage va (n + 1)) >>= fun rest =>
              pure (rest.1, bytesVa t m.byte va (inPage va (n + 1)) ++ rest.2) : Prog (Int × List UInt8)) m := by
          rw [← bytesAt_inPage]
          refine (bind_ok (walkaddr_page t va m)).trans ?_
          rw [if_pos hacc, if_neg hacc.2.2.2]
          exact bind_ok (show (get : Prog Mem) m = .ok (m, m) from rfl)
        rw [hstart]
        by_cases hnul : (0 : UInt8) ∈ bytesVa t m.byte va (inPage va (n + 1))
        · obtain ⟨k, hk, htext, hz, htake⟩ := takeWhile_bytesVa t m.byte va hnul
          refine ⟨k, 0, .ends (Nat.lt_of_lt_of_le hk (inPage_le va (n + 1))) (fun i hi => ?_) htext hz, ?_⟩
          · exact accessible_inPage hacc (Nat.lt_of_le_of_lt hi hk)
          · rw [if_pos hnul, htake]
            rfl
        · have hpos : 0 < inPage va (n + 1) := inPage_pos va (Nat.succ_pos n)
          obtain ⟨k, r, hreach, hrun⟩ := @ih (n + 1 - inPage va (n + 1)) (word (PGROUNDDOWN va + PGSIZE)) (by omega)
          have htext : ∀ i < inPage va (n + 1), m.byte (translate t (va + i)) ≠ 0 := fun i hi hz =>
            hnul (List.mem_map.2 ⟨i, List.mem_range.2 hi, hz⟩)
          refine ⟨inPage va (n + 1) + k, r, .page hacc htext hreach, ?_⟩
          rw [if_neg hnul]
          refine (bind_ok hrun).trans ?_
          rw [← bytesVa_page hacc hreach.le]
          rfl
      · refine ⟨0, -1, .stops (.none hacc) (by rintro _ ⟨⟩), (bind_ok (walkaddr_page t va m)).trans ?_⟩
        rw [if_neg hacc]
        rfl

/-- `copyinstr` reads byte by byte, up to the first NUL or the first byte that is not accessible. -/
theorem copyinstr_eq (t : Pagetable) (va max : Nat) (m : Mem) :
    ∃ k r, StringReach t m.byte va max k r ∧ copyinstr t va max m = .ok ((r, bytesVa t m.byte va k), m) :=
  copyinstrLoop_eq va (Nat.le_refl max) m

/-! ## copyout -/

/-- The byte-wise copy to user memory, at addresses that do not wrap. -/
theorem copyBytes_reach (t : Pagetable) (va : Nat) (src : List UInt8) (byte : Nat → UInt8) :
    ∃ k, Reach t va src.length k ∧
      copyBytes t va src byte = (if k = src.length then 0 else -1, stores t (((List.range k).map (va + ·)).zip src) byte) := by
  induction src generalizing va byte with
  | nil => exact ⟨0, .zero t va, rfl⟩
  | cons x xs ih =>
    by_cases hacc : Accessible t va
    · have hword : word (va + 1) = va + 1 := Nat.mod_eq_of_lt (Nat.lt_of_le_of_lt hacc.1 (by decide))
      obtain ⟨k, hreach, hrun⟩ := ih (va + 1) (Function.update byte (translate t va) x)
      refine ⟨k + 1, ⟨Nat.succ_le_succ hreach.le, fun i hi => ?_, fun hlt => ?_⟩, ?_⟩
      · cases i with
        | zero => exact hacc
        | succ i =>
          have := hreach.accessible i (by omega)
          rwa [show va + 1 + i = va + (i + 1) by omega] at this
      · have := hreach.stops (Nat.lt_of_succ_lt_succ hlt)
        rwa [show va + 1 + k = va + (k + 1) by omega] at this
      · have hmap : (List.range (k + 1)).map (va + ·) = va :: (List.range k).map (va + 1 + ·) := by
          rw [List.range_succ_eq_map, List.map_cons, List.map_map]
          congr 1
          refine List.map_congr_left fun i _ => ?_
          show va + (i + 1) = va + 1 + i
          omega
        rw [copyBytes, if_pos hacc, hword, hrun, hmap, List.zip_cons_cons, stores, List.length_cons,
          if_congr (Nat.succ_inj (a := k) (b := xs.length)) rfl rfl]
    · exact ⟨0, .none hacc, by rw [copyBytes, if_neg hacc]; rfl⟩

end Xv6.Vm
