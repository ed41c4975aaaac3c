import Xv6.Vm.Reads

/-!
# User copies are byte-wise copies

`copyout`, `copyin` and `copyinstr` do for every page table, address and length what a copy does
that looks at one byte at a time, if no user page is the physical page 0: `walkaddr` uses that
address for "not mapped".
-/
namespace Xv6.Guarantees.UserCopies

open Xv6.Source.Vm Xv6.Vm

variable {t : Pagetable} {va n k : Nat} {byte : Nat → UInt8}

/-- The address lies in a valid user page. -/
def UserPage (t : Pagetable) (va : Nat) : Prop :=
  va < MAXVA ∧ t.get (index va) &&& PTE_V ≠ 0 ∧ t.get (index va) &&& PTE_U ≠ 0

/-- No user page is the physical page 0. -/
def Backed (t : Pagetable) : Prop := ∀ va, UserPage t va → PTE2PA (t.get (index va)) ≠ 0

/-- `k` of `n` bytes from `va` on are copied: all of them, or those before the first that is in no
user page. -/
structure Transfers (t : Pagetable) (va n : Nat) (r : Int) (k : Nat) : Prop where
  le : k ≤ n
  valid : ∀ i < k, UserPage t (va + i)
  zero_iff : r = 0 ↔ ∀ i < n, UserPage t (va + i)
  all : r = 0 → k = n
  part : r ≠ 0 → r = -1 ∧ k < n ∧ ¬ UserPage t (va + k)

/-- What `copyinstr` has stored: it ends the string that it has found. -/
def stored (r : Int) (bytes : List UInt8) : List UInt8 := if r = 0 then bytes ++ [0] else bytes

/-- The `k` bytes before the NUL are copied, and the NUL; or there is no string. -/
structure TransfersString (t : Pagetable) (byte : Nat → UInt8) (va max : Nat) (r : Int) (k : Nat) : Prop where
  valid : ∀ i < k, UserPage t (va + i)
  zero_iff : r = 0 ↔ ∃ i < max, byte (translate t (va + i)) = 0 ∧ ∀ j ≤ i, UserPage t (va + j)
  text : (0 : UInt8) ∉ bytesVa t byte va k
  string : r = 0 → stored r (bytesVa t byte va k) = bytesVa t byte va (k + 1)
  room : (stored r (bytesVa t byte va k)).length ≤ max
  part : r ≠ 0 → r = -1

theorem accessible_iff (h : Backed t) (va : Nat) : Accessible t va ↔ UserPage t va :=
  ⟨fun hacc => ⟨hacc.1, hacc.2.1, hacc.2.2.1⟩, fun huser => ⟨huser.1, huser.2.1, huser.2.2, h va huser⟩⟩

theorem transfers_of_reach (h : Backed t) (hreach : Reach t va n k) : Transfers t va n (if k = n then 0 else -1) k := by
  have hall : k = n ↔ ∀ i < n, UserPage t (va + i) := by
    rw [hreach.eq_iff]
    simp only [accessible_iff h]
  refine ⟨hreach.le, fun i hi => (accessible_iff h _).1 (hreach.accessible i hi), ?_, ?_, ?_⟩
  · rw [← hall]
    exact ⟨fun hr => by_contra fun hk => absurd ((if_neg hk).symm.trans hr) (by decide), fun hk => if_pos hk⟩
  · exact fun hr => by_contra fun hk => absurd ((if_neg hk).symm.trans hr) (by decide)
  · intro hne
    have hk : k ≠ n := fun hk => hne (if_pos hk)
    have hlt : k < n := Nat.lt_of_le_of_ne hreach.le hk
    exact ⟨if_neg hk, hlt, fun huser => hreach.stops hlt ((accessible_iff h _).2 huser)⟩

theorem bytesVa_length (t : Pagetable) (byte : Nat → UInt8) (va n : Nat) : (bytesVa t byte va n).length = n := by
  rw [bytesVa, List.length_map, List.length_range]

theorem transfersString_of_reach (h : Backed t) {r : Int} {max : Nat} (hreach : StringReach t byte va max k r) :
    TransfersString t byte va max r k := by
  have hnul {k' : Nat} (htext : ∀ i < k', byte (translate t (va + i)) ≠ 0) : (0 : UInt8) ∉ bytesVa t byte va k' := by
    intro hmem
    obtain ⟨i, hi, hz⟩ := List.mem_map.1 hmem
    exact htext i (List.mem_range.1 hi) hz
  cases hreach with
  | ends lt accessible text nul =>
    refine ⟨fun i hi => (accessible_iff h _).1 (accessible i (Nat.le_of_lt hi)), ?_, hnul text, fun _ => ?_, ?_,
      fun hne => absurd rfl hne⟩
    · exact iff_of_true rfl ⟨k, lt, nul, fun j hj => (accessible_iff h _).1 (accessible j hj)⟩
    · rw [stored, if_pos rfl, ← bytesVa_append t byte va k 1, ← nul]
      rfl
    · rw [stored, if_pos rfl, List.length_append, bytesVa_length]
      exact lt
  | stops reach text =>
    refine ⟨fun i hi => (accessible_iff h _).1 (reach.accessible i hi), iff_of_false (by decide) ?_, hnul text,
      fun hz => absurd hz (by decide), ?_, fun _ => rfl⟩
    · rintro ⟨i, hi, hz, huser⟩
      -- The NUL would come after the bytes that are read, at an address that is reached.
      have hki : k ≤ i := Nat.le_of_not_lt fun hlt => text i hlt hz
      exact reach.stops (Nat.lt_of_le_of_lt hki hi) ((accessible_iff h _).2 (huser k hki))
    · rw [stored, if_neg (by decide), bytesVa_length]
      exact reach.le

/-- The three copies, for every address and length. -/
theorem copies_bytewise (h : Backed t) (va : UInt64) (m : Mem) :
    (∀ src, ∃ r k, copyout t va.toNat src m =
        .ok (r, { m with byte := stores t (((List.range k).map (va.toNat + ·)).zip src) m.byte }) ∧
      Transfers t va.toNat src.length r k) ∧
    (∀ n, ∃ r k, copyin t va.toNat n m = .ok ((r, bytesVa t m.byte va.toNat k), m) ∧ Transfers t va.toNat n r k) ∧
    ∀ max, ∃ r k, copyinstr t va.toNat max m = .ok ((r, bytesVa t m.byte va.toNat k), m) ∧
      TransfersString t m.byte va.toNat max r k := by
  refine ⟨fun src => ?_, fun n => ?_, fun max => ?_⟩
  · obtain ⟨k, hreach, hrun⟩ := copyBytes_reach t va.toNat src m.byte
    exact ⟨_, k, (copyout_eq t va.toNat src m).trans (by rw [hrun]), transfers_of_reach h hreach⟩
  · obtain ⟨k, hreach, hrun⟩ := copyin_eq t va.toNat n m
    exact ⟨_, k, hrun, transfers_of_reach h hreach⟩
  · obtain ⟨k, r, hreach, hrun⟩ := copyinstr_eq t va.toNat max m
    exact ⟨r, k, hrun, transfersString_of_reach h hreach⟩

theorem entries_pos : 0 < 512 := by decide

/-- A table whose first page is mapped by `pte`, and no other. -/
def onePage (pte : UInt64) : Pagetable :=
  ⟨0x1000, Function.update (fun _ => none) ⟨0, entries_pos⟩ (some ⟨0x2000, Function.update (fun _ => none) ⟨0, entries_pos⟩
    (some ⟨0x3000, Function.update (fun _ => 0) ⟨0, entries_pos⟩ pte⟩)⟩)⟩

theorem get_onePage (pte : UInt64) (i : Index) : (onePage pte).get i = if i = ⟨0, 0, 0⟩ then pte else 0 := by
  obtain ⟨two, one, zero⟩ := i
  by_cases htwo : two = 0
  · subst htwo
    by_cases hone : one = 0
    · subst hone
      by_cases hzero : zero = 0
      · subst hzero
        rfl
      · rw [if_neg (by simpa using hzero)]
        simp [Pagetable.get, onePage, Function.update_of_ne hzero]
    · rw [if_neg (by simp [hone])]
      simp [Pagetable.get, onePage, Function.update_of_ne hone]
  · rw [if_neg (by simp [htwo])]
    simp [Pagetable.get, onePage, Function.update_of_ne htwo]

/-- One page for the user at 0x80001000. -/
def userPte : UInt64 := PA2PTE 0x80001000 ||| PTE_R ||| PTE_W ||| PTE_U ||| PTE_V

def zeroMem : Mem where
  ram := ⟨0x80000000, 0x88000000, 0x80000000, by decide, by decide⟩
  freelist := []
  byte := fun _ => 0
  fails := []

theorem backed_onePage : Backed (onePage userPte) := by
  intro va huser
  rw [UserPage, get_onePage] at huser
  rw [get_onePage]
  split at huser
  · rw [if_pos ‹_›]
    decide
  · exact absurd huser.2.1 (by decide)

theorem copies_bytewise_page : Backed (onePage userPte) ∧
    (∀ src, ∃ r k, copyout (onePage userPte) (4090 : UInt64).toNat src zeroMem =
        .ok (r, { zeroMem with byte := stores (onePage userPte) (((List.range k).map ((4090 : UInt64).toNat + ·)).zip src) zeroMem.byte }) ∧
      Transfers (onePage userPte) (4090 : UInt64).toNat src.length r k) ∧
    (∀ n, ∃ r k, copyin (onePage userPte) (4090 : UInt64).toNat n zeroMem =
        .ok ((r, bytesVa (onePage userPte) zeroMem.byte (4090 : UInt64).toNat k), zeroMem) ∧
      Transfers (onePage userPte) (4090 : UInt64).toNat n r k) ∧
    ∀ max, ∃ r k, copyinstr (onePage userPte) (4090 : UInt64).toNat max zeroMem =
        .ok ((r, bytesVa (onePage userPte) zeroMem.byte (4090 : UInt64).toNat k), zeroMem) ∧
      TransfersString (onePage userPte) zeroMem.byte (4090 : UInt64).toNat max r k :=
  ⟨backed_onePage, copies_bytewise backed_onePage 4090 zeroMem⟩

/-- A user page that is the physical page 0 is taken for none. -/
theorem physical_page_zero : UserPage (onePage (PTE_R ||| PTE_W ||| PTE_U ||| PTE_V)) 0 ∧
    copyin (onePage (PTE_R ||| PTE_W ||| PTE_U ||| PTE_V)) 0 1 zeroMem = .ok ((-1, []), zeroMem) := by
  refine ⟨?_, rfl⟩
  rw [UserPage, get_onePage]
  decide

end Xv6.Guarantees.UserCopies
