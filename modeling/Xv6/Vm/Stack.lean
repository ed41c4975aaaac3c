import Xv6.Vm.Forking
import Xv6.Vm.Loading
import Xv6.Vm.Reads

/-!
# The stack of a new program

`exec` allocates two pages, takes the first from the user and pushes the arguments to the second, from
its top. Sizes are arbitrary: a string that does not fit ends below the page, where the check of the
stack pointer fails, or wraps to an address that is not mapped, where the copy fails.
-/
namespace Xv6.Vm

open Xv6.Library.Total Xv6.Source.Vm
open Xv6.Source.Exec (MAXARG le push pushStrings vector pushArgs)
open Xv6.Source.System (leBytes)

variable {m m' : Mem} {t t' : Pagetable} {k va used : Nat} {a b : UInt64} {argv : List (List UInt8)}

/-! ## The stack page -/

/-- From page `k + 1` on, the user has this page only. -/
structure StackPage (t : Pagetable) (k : Nat) : Prop where
  small : k + 2 ≤ userPages
  accessible : ∀ va, (k + 1) * PGSIZE ≤ va → (Accessible t va ↔ va < (k + 2) * PGSIZE)

/-- The image after `uvmclear`. -/
structure Cleared (m : Mem) (t : Pagetable) (k : Nat) (a b : UInt64) : Prop where
  owns : Space m t ((k + 2) * PGSIZE) a b
  guarded : pte t k &&& PTE_U = 0
  stack : StackPage t k

theorem entry_not_user (pa : Nat) {perm : UInt64} (hperm : perm.toNat < 1024) (hu : (perm ||| PTE_V) &&& PTE_U = 0) :
    (PA2PTE pa ||| perm ||| PTE_V) &&& PTE_U = 0 := by
  rw [← flags_and _ (by decide), flags_entry pa hperm]
  exact hu

theorem trampolinePte_not_user (ram : Ram) : trampolinePte ram &&& PTE_U = 0 := entry_not_user _ (by decide) (by decide)

theorem trapframePte_not_user (tf : Nat) : trapframePte tf &&& PTE_U = 0 := entry_not_user _ (by decide) (by decide)

theorem kernelPte_not_user (ha : a &&& PTE_U = 0) (hb : b &&& PTE_U = 0) (v : Nat) : kernelPte a b v &&& PTE_U = 0 := by
  rw [kernelPte]
  split_ifs
  · exact ha
  · exact hb
  · rfl

theorem page_count_two (k : Nat) : pageCount ((k + 2) * PGSIZE) = k + 2 := pageCount_mul (k + 2)

theorem clear_user (p : UInt64) : p &&& ~~~PTE_U &&& PTE_U = 0 := by
  rw [UInt64.and_assoc, show ~~~PTE_U &&& PTE_U = 0 by decide, UInt64.and_zero]

/-- The page below the top one is taken from the user. -/
theorem uvmclear_spec (h : Image m t ((k + 2) * PGSIZE) a b) (ha : a &&& PTE_U = 0) (hb : b &&& PTE_U = 0) :
    Ends (uvmclear t (k * PGSIZE)) m fun t' m' => m' = m ∧ space t' (k + 2) = space t (k + 2) ∧ Cleared m t' k a b := by
  have hcount := page_count_two k
  have hmaps := h.owns.maps
  have huser := h.user
  rw [hcount] at hmaps huser
  have hsmall := hmaps.small
  have hleaf : Leaf (pte t k) := hmaps.user k (by omega)
  have hk : k < pages := lt_pages (by omega)
  have hstep := walk_mapped (lt_vaPages (v := k) (by omega)) hleaf.ne_zero m
  have hget : (t.put (entryOf k) (pte t k &&& ~~~PTE_U)).get = Function.update t.get (entryOf k) (pte t k &&& ~~~PTE_U) :=
    get_put (has_of_get_ne hleaf.ne_zero) _
  refine .step hstep (.ret ⟨rfl, ?_⟩)
  show space (t.put (entryOf k) (pte t k &&& ~~~PTE_U)) (k + 2) = _ ∧ Cleared m (t.put (entryOf k) (pte t k &&& ~~~PTE_U)) k a b
  generalize htables : t.put (entryOf k) (pte t k &&& ~~~PTE_U) = t' at hget
  have hpte : ∀ w < pages, pte t' w = if w = k then pte t k &&& ~~~PTE_U else pte t w := fun w hw => pte_of_update hget hk hw
  have hframe : ∀ w < pages, frame t' w = frame t w := fun w hw => by
    rw [frame, frame, hpte w hw]
    split_ifs with heq
    · rw [heq, pte2pa_clear]
    · rfl
  have hspace : space t' (k + 2) = space t (k + 2) := by
    rw [space, space, ← htables, tables_put, htables, frames_congr fun v _ hv => hframe v (lt_pages (by omega))]
  have hmaps' : Maps t' (k + 2) a b := by
    refine ⟨hsmall, fun v hv => ?_, fun v hv hlt => ?_⟩
    · rw [hpte v (lt_pages (by omega))]
      split_ifs with heq
      · exact hleaf.clear
      · exact hmaps.user v hv
    · rw [hpte v hlt, if_neg (by omega)]
      exact hmaps.rest v hv hlt
  refine ⟨hspace, ⟨?_, ?_, ?_⟩, ?_, hsmall, fun va hva => ?_⟩
  · rwa [hcount]
  · rw [hcount, hspace, ← hcount]
    exact h.owns.sound
  · rw [hcount, hspace, ← hcount]
    exact h.owns.apart
  · rw [hpte k hk, if_pos rfl]
    exact clear_user _
  · have hpage : k + 1 ≤ va / PGSIZE := (Nat.le_div_iff_mul_le pgsize_pos).2 hva
    have hentry : t'.get (index va) = pte t' (va / PGSIZE) := by rw [index_eq, pte]
    constructor
    · intro hacc
      by_contra hge
      have hge' : k + 2 ≤ va / PGSIZE := (Nat.le_div_iff_mul_le pgsize_pos).2 (Nat.le_of_not_lt hge)
      have hlt : va / PGSIZE < pages := by
        have := hacc.1
        simp only [MAXVA, pages, PGSIZE] at this ⊢
        omega
      refine hacc.2.2.1 ?_
      rw [hentry, hmaps'.rest _ hge' hlt]
      exact kernelPte_not_user ha hb _
    · intro hlt
      have hva' : va / PGSIZE = k + 1 := Nat.le_antisymm (Nat.lt_succ_iff.1 ((Nat.div_lt_iff_lt_mul pgsize_pos).2 hlt)) hpage
      have hacc := (h.accessible hlt).1
      have hsame : t'.get (index va) = t.get (index va) := by
        rw [hentry, hva', hpte (k + 1) (lt_pages (by omega)), if_neg (by omega), index_eq, hva', pte]
      rwa [Accessible, hsame]

theorem translate_stack (t : Pagetable) (hva : (k + 1) * PGSIZE ≤ va) (hlt : va < (k + 2) * PGSIZE) :
    translate t va = frame t (k + 1) + (va - (k + 1) * PGSIZE) := by
  have hpage : va / PGSIZE = k + 1 :=
    Nat.le_antisymm (Nat.lt_succ_iff.1 ((Nat.div_lt_iff_lt_mul pgsize_pos).2 hlt)) ((Nat.le_div_iff_mul_le pgsize_pos).2 hva)
  have hmod : va % PGSIZE = va - (k + 1) * PGSIZE := by
    have := Nat.div_add_mod va PGSIZE
    rw [hpage, Nat.mul_comm] at this
    omega
  rw [translate, index_eq, hpage, hmod]
  rfl

/-! ## Copies to the stack page -/

/-- A copy that begins in the stack page or above changes this page only, and succeeds only if it ends
in the page. -/
theorem copyout_stack (h : StackPage t k) (hva : (k + 1) * PGSIZE ≤ va) {src : List UInt8} (hsrc : src ≠ []) (m : Mem) :
    Ends (copyout t va src) m fun r m' => Writes (frame t (k + 1)) m m' ∧
      (r = -1 ∨ r = 0 ∧ va + src.length ≤ (k + 2) * PGSIZE ∧
        m'.byte = write (frame t (k + 1) + (va - (k + 1) * PGSIZE)) src m.byte) := by
  have hsmall := h.small
  have hwrite : ∀ bytes : List UInt8, va + bytes.length ≤ (k + 2) * PGSIZE →
      Writes (frame t (k + 1)) m { m with byte := write (frame t (k + 1) + (va - (k + 1) * PGSIZE)) bytes m.byte } := by
    intro bytes hfit
    refine writes_write ?_ m (frame t (k + 1))
    simp only [PGSIZE] at hfit hva ⊢
    omega
  by_cases hlt : va < (k + 2) * PGSIZE
  swap
  · have hacc : ¬ Accessible t va := fun hacc => hlt ((h.accessible va hva).1 hacc)
    obtain ⟨x, xs, rfl⟩ := List.exists_cons_of_ne_nil hsrc
    refine .of_eq (copyout_eq t va (x :: xs) m) ?_
    rw [copyBytes, if_neg hacc]
    exact ⟨.refl _ _, .inl rfl⟩
  have hacc : Accessible t va := (h.accessible va hva).2 hlt
  have hva64 : va < 2 ^ 64 := Nat.lt_trans hacc.1 (by decide)
  have hoff : va % PGSIZE = va - (k + 1) * PGSIZE := by
    simp only [PGSIZE] at hva hlt ⊢
    omega
  by_cases hfit : va + src.length ≤ (k + 2) * PGSIZE
  · have hcopy := copyBytes_append src [] hva64 (fun _ => hacc) (by
      rw [hoff]
      simp only [PGSIZE] at hfit hva ⊢
      omega) m.byte
    rw [List.append_nil, copyBytes_nil, translate_stack t hva hlt] at hcopy
    refine .of_eq (copyout_eq t va src m) ?_
    rw [hcopy]
    exact ⟨hwrite src hfit, .inr ⟨rfl, hfit, rfl⟩⟩
  · -- The part that fits is copied, and the next page is not the user's.
    have hlen : (src.take ((k + 2) * PGSIZE - va)).length = (k + 2) * PGSIZE - va := by
      rw [List.length_take]
      omega
    have hcopy := copyBytes_append (src.take ((k + 2) * PGSIZE - va)) (src.drop ((k + 2) * PGSIZE - va)) hva64
      (fun _ => hacc) (by
        rw [hoff, hlen]
        simp only [PGSIZE] at hva hlt ⊢
        omega) m.byte
    have hend : word (va + ((k + 2) * PGSIZE - va)) = (k + 2) * PGSIZE := by
      rw [word]
      simp only [PGSIZE, userPages_eq] at hsmall hlt ⊢
      omega
    have hnot : ¬ Accessible t ((k + 2) * PGSIZE) := fun hacc' =>
      Nat.lt_irrefl _ ((h.accessible _ (Nat.mul_le_mul_right _ (by omega))).1 hacc')
    obtain ⟨x, xs, hrest⟩ : ∃ x xs, src.drop ((k + 2) * PGSIZE - va) = x :: xs :=
      List.exists_cons_of_ne_nil fun hnil => by
        rw [List.drop_eq_nil_iff] at hnil
        omega
    rw [List.take_append_drop, hlen, hend, translate_stack t hva hlt, hrest, copyBytes, if_neg hnot] at hcopy
    refine .of_eq (copyout_eq t va src m) ?_
    rw [hcopy]
    exact ⟨hwrite _ (by rw [hlen]; omega), .inl rfl⟩

theorem bytesVa_congr {byte byte' : Nat → UInt8} {n : Nat} (h : ∀ i < n, byte' (translate t (va + i)) = byte (translate t (va + i))) :
    bytesVa t byte' va n = bytesVa t byte va n :=
  List.map_congr_left fun i hi => h i (List.mem_range.1 hi)

/-- What has been copied to the stack page is read back. -/
theorem bytesVa_write (t : Pagetable) (hva : (k + 1) * PGSIZE ≤ va) {src : List UInt8} (hfit : va + src.length ≤ (k + 2) * PGSIZE)
    (byte : Nat → UInt8) :
    bytesVa t (write (frame t (k + 1) + (va - (k + 1) * PGSIZE)) src byte) va src.length = src := by
  refine List.ext_getElem (by rw [bytesVa, List.length_map, List.length_range]) fun i hi hi' => ?_
  simp only [bytesVa, List.getElem_map, List.getElem_range]
  rw [translate_stack t (show (k + 1) * PGSIZE ≤ va + i by omega) (by omega), show va + i - (k + 1) * PGSIZE = va - (k + 1) * PGSIZE + i by omega, ← Nat.add_assoc]
  exact write_inside hi' byte

/-! ## The layout -/

/-- `n`, and what it takes to come to a multiple of 16. -/
def roundup16 (n : Nat) : Nat := (n + 15) / 16 * 16

/-- How much of the stack is in use after the strings. -/
def stringBytes (used : Nat) : List (List UInt8) → Nat
  | [] => used
  | arg :: argv => stringBytes (roundup16 (used + (arg.length + 1))) argv

/-- Where the strings are. -/
def addresses (top used : Nat) : List (List UInt8) → List Nat
  | [] => []
  | arg :: argv => (top - roundup16 (used + (arg.length + 1))) :: addresses top (roundup16 (used + (arg.length + 1))) argv

/-- How much of the stack is in use after the vector. -/
def stackBytes (argv : List (List UInt8)) : Nat := roundup16 (stringBytes 0 argv + (argv.length + 1) * 8)

theorem le_roundup16 (n : Nat) : n ≤ roundup16 n := by
  rw [roundup16]
  omega

theorem le_stringBytes (argv : List (List UInt8)) (used : Nat) : used ≤ stringBytes used argv := by
  induction argv generalizing used with
  | nil => exact Nat.le_refl _
  | cons arg argv ih =>
    have := le_roundup16 (used + (arg.length + 1))
    exact Nat.le_trans (by omega) (ih _)

theorem length_addresses (top : Nat) (argv : List (List UInt8)) (used : Nat) : (addresses top used argv).length = argv.length := by
  induction argv generalizing used with
  | nil => rfl
  | cons arg argv ih => rw [addresses, List.length_cons, List.length_cons, ih]

/-- One subtraction and alignment of the stack pointer, where there is room. -/
theorem push_eq {n : Nat} (hsmall : k + 2 ≤ userPages) (hfit : roundup16 (used + n) ≤ PGSIZE) :
    push ((k + 2) * PGSIZE - used) n = (k + 2) * PGSIZE - roundup16 (used + n) := by
  simp only [push, word, roundup16, PGSIZE, userPages_eq] at hsmall hfit ⊢
  omega

/-- Where the pushed bytes end in the page, there was room. -/
theorem room_of_push {n : Nat} (hsmall : k + 2 ≤ userPages) (hused : used ≤ PGSIZE)
    (hbase : ¬ push ((k + 2) * PGSIZE - used) n < (k + 1) * PGSIZE)
    (hend : push ((k + 2) * PGSIZE - used) n + n ≤ (k + 2) * PGSIZE) : roundup16 (used + n) ≤ PGSIZE := by
  simp only [push, word, roundup16, PGSIZE, userPages_eq] at hsmall hused hbase hend ⊢
  omega

/-- What the strings have become on the stack. -/
structure Pushed (t : Pagetable) (k : Nat) (argv : List (List UInt8)) (used : Nat) (ustack : List Nat) (m m' : Mem)
    (sp : Nat) (us : List Nat) : Prop where
  fits : stringBytes used argv ≤ PGSIZE
  sp : sp = (k + 2) * PGSIZE - stringBytes used argv
  ustack : us = ustack ++ addresses ((k + 2) * PGSIZE) used argv
  strings : List.Forall₂ (fun arg addr => bytesVa t m'.byte addr (arg.length + 1) = arg ++ [0]) argv
    (addresses ((k + 2) * PGSIZE) used argv)
  kept : ∀ va, (k + 2) * PGSIZE - used ≤ va → va < (k + 2) * PGSIZE → m'.byte (translate t va) = m.byte (translate t va)

theorem pushStrings_spec (h : StackPage t k) (argv : List (List UInt8)) (hused : used ≤ PGSIZE) (ustack : List Nat) (m : Mem) :
    Ends (pushStrings t ((k + 1) * PGSIZE) argv ((k + 2) * PGSIZE - used) ustack) m fun r m' =>
      Writes (frame t (k + 1)) m m' ∧
        ∀ sp us, r = some (sp, us) → Pushed t k argv used ustack m m' sp us := by
  induction argv generalizing used ustack m with
  | nil =>
    refine .ret ⟨.refl _ _, ?_⟩
    rintro sp us ⟨⟩
    exact ⟨hused, rfl, (List.append_nil _).symm, .nil, fun _ _ _ => rfl⟩
  | cons arg argv ih =>
    rw [pushStrings]
    by_cases hmax : MAXARG ≤ ustack.length
    · rw [if_pos hmax]
      exact .ret ⟨.refl _ _, by rintro _ _ ⟨⟩⟩
    rw [if_neg hmax]
    by_cases hlow : push ((k + 2) * PGSIZE - used) (arg.length + 1) < (k + 1) * PGSIZE
    · dsimp only
      rw [if_pos hlow]
      exact .ret ⟨.refl _ _, by rintro _ _ ⟨⟩⟩
    dsimp only
    rw [if_neg hlow]
    refine .bind (copyout_stack h (Nat.le_of_not_lt hlow) (List.append_ne_nil_of_right_ne_nil _ (List.cons_ne_nil _ _)) m) ?_
    rintro r m₁ ⟨hmoves, rfl | ⟨rfl, hend, hbyte⟩⟩
    · exact .ret ⟨hmoves, by rintro _ _ ⟨⟩⟩
    rw [List.length_append, List.length_singleton] at hend
    have hroom := room_of_push h.small hused hlow hend
    have hle := le_roundup16 (used + (arg.length + 1))
    have htop : PGSIZE ≤ (k + 2) * PGSIZE := Nat.le_mul_of_pos_left _ (by omega)
    have hbase : (k + 1) * PGSIZE = (k + 2) * PGSIZE - PGSIZE := by
      simp only [PGSIZE]
      omega
    rw [push_eq h.small hroom] at hbyte hend ⊢
    rw [if_neg (by decide)]
    refine (ih hroom _ m₁).mono ?_
    rintro r m' ⟨hmoves', hpushed⟩
    refine ⟨hmoves.trans hmoves', fun sp us hr => ?_⟩
    obtain ⟨hfits, hsp, hus, hstrings, hkept⟩ := hpushed sp us hr
    have hstring := bytesVa_write t (show (k + 1) * PGSIZE ≤ (k + 2) * PGSIZE - roundup16 (used + (arg.length + 1)) by omega)
      (show _ + (arg ++ [0]).length ≤ _ by rwa [List.length_append, List.length_singleton]) m.byte
    refine ⟨hfits, hsp, by rw [hus, addresses, List.append_assoc, List.singleton_append], .cons ?_ hstrings, fun va hva hlt => ?_⟩
    · rw [← hbyte, List.length_append, List.length_singleton] at hstring
      rw [← hstring]
      exact bytesVa_congr fun i hi => hkept _ (by omega) (by omega)
    · rw [hkept va (by omega) hlt, hbyte]
      refine write_outside (.inr ?_) _
      rw [translate_stack t (by omega) hlt, List.length_append, List.length_singleton]
      omega

/-! ## The vector -/

theorem length_leBytes (n v : Nat) : (leBytes n v).length = n := by
  induction n generalizing v with
  | zero => rfl
  | succ n ih => rw [leBytes, List.length_cons, ih]

theorem le_leBytes {n v : Nat} (h : v < 256 ^ n) : le (leBytes n v) = v := by
  induction n generalizing v with
  | zero =>
    rw [Nat.pow_zero] at h
    exact (Nat.lt_one_iff.1 h).symm
  | succ n ih =>
    rw [pow_succ] at h
    rw [leBytes, le, ih (by omega), UInt8.toNat_ofNat']
    omega

theorem length_vector (us : List Nat) : (vector us).length = (us.length + 1) * 8 := by
  rw [vector, List.length_flatMap, List.map_congr_left fun v _ => length_leBytes 8 v, List.map_const', List.sum_replicate,
    List.length_append, List.length_singleton]
  rfl

/-- A vector of words is read back word by word. -/
theorem bytesVa_words {byte : Nat → UInt8} (words : List Nat) (h : bytesVa t byte va (words.length * 8) = words.flatMap (leBytes 8))
    {i : Nat} (hi : i < words.length) : bytesVa t byte (va + 8 * i) 8 = leBytes 8 words[i] := by
  induction words generalizing va i with
  | nil => exact absurd hi (Nat.not_lt_zero i)
  | cons w words ih =>
    rw [List.length_cons, Nat.succ_mul, Nat.add_comm, ← bytesVa_append, List.flatMap_cons] at h
    have hlen : (bytesVa t byte va 8).length = (leBytes 8 w).length := by
      rw [length_leBytes, bytesVa, List.length_map, List.length_range]
    obtain ⟨hfirst, hrest⟩ := List.append_inj h hlen
    cases i with
    | zero => exact hfirst
    | succ i =>
      rw [show va + 8 * (i + 1) = va + 8 + 8 * i by omega]
      exact ih hrest (Nat.lt_of_succ_lt_succ hi)

/-! ## All of the arguments -/

/-- The arguments on a stack that goes from `base` to `top`: at `sp` a vector of pointers with a null
pointer at its end, above it the strings. -/
structure Arguments (t : Pagetable) (byte : Nat → UInt8) (argv : List (List UInt8)) (base top sp : Nat)
    (addr : Fin argv.length → Nat) : Prop where
  pointer : ∀ i : Fin argv.length, le (bytesVa t byte (sp + 8 * i) 8) = addr i
  null : le (bytesVa t byte (sp + 8 * argv.length) 8) = 0
  string : ∀ i, bytesVa t byte (addr i) ((argv.get i).length + 1) = argv.get i ++ [0]
  inside : base ≤ sp ∧ sp + 8 * (argv.length + 1) ≤ top ∧ ∀ i, base ≤ addr i ∧ addr i + ((argv.get i).length + 1) ≤ top
  below : ∀ i, sp + 8 * (argv.length + 1) ≤ addr i
  apart : ∀ i j, i < j → addr j + ((argv.get j).length + 1) ≤ addr i
  aligned : sp % 16 = 0 ∧ ∀ i, addr i % 16 = 0

/-- Where a string is: below what was in use before it, and above what is in use after all. -/
structure Placed (top used : Nat) (argv : List (List UInt8)) (addr : Nat) (len : Nat) : Prop where
  low : top - stringBytes used argv ≤ addr
  high : addr + (len + 1) ≤ top - used
  aligned : addr % 16 = 0

theorem placed_addresses {top : Nat} (htop : top % 16 = 0) (argv : List (List UInt8)) (hfits : stringBytes used argv ≤ top) {i : Nat}
    (hi : i < argv.length) :
    Placed top used argv ((addresses top used argv).getD i 0) argv[i].length := by
  induction argv generalizing used i with
  | nil => exact absurd hi (Nat.not_lt_zero i)
  | cons arg argv ih =>
    have hle := le_roundup16 (used + (arg.length + 1))
    have hrest := le_stringBytes argv (roundup16 (used + (arg.length + 1)))
    rw [stringBytes] at hfits
    cases i with
    | zero =>
      refine ⟨?_, ?_, ?_⟩
      · rw [stringBytes]
        exact Nat.sub_le_sub_left hrest top
      · show top - _ + (arg.length + 1) ≤ top - used
        omega
      · show (top - roundup16 _) % 16 = 0
        rw [roundup16] at hrest ⊢
        omega
    | succ i =>
      obtain ⟨hlow, hhigh, haligned⟩ := ih hfits (Nat.lt_of_succ_lt_succ hi)
      exact ⟨hlow, Nat.le_trans hhigh (by omega), haligned⟩

theorem apart_addresses {top : Nat} (htop : top % 16 = 0) (argv : List (List UInt8)) (hfits : stringBytes used argv ≤ top) {i j : Nat}
    (hij : i < j) (hj : j < argv.length) :
    (addresses top used argv).getD j 0 + (argv[j].length + 1) ≤ (addresses top used argv).getD i 0 := by
  induction argv generalizing used i j with
  | nil => exact absurd hj (Nat.not_lt_zero j)
  | cons arg argv ih =>
    rw [stringBytes] at hfits
    cases j with
    | zero => exact absurd hij (Nat.not_lt_zero i)
    | succ j =>
      cases i with
      | zero => exact (placed_addresses htop argv hfits (Nat.lt_of_succ_lt_succ hj)).high
      | succ i => exact ih hfits (Nat.lt_of_succ_lt_succ hij) (Nat.lt_of_succ_lt_succ hj)

theorem string_of_forall₂ {R : List UInt8 → Nat → Prop} {argv : List (List UInt8)} {addrs : List Nat}
    (h : List.Forall₂ R argv addrs) {i : Nat} (hi : i < argv.length) : R argv[i] (addrs.getD i 0) := by
  induction h generalizing i with
  | nil => exact absurd hi (Nat.not_lt_zero i)
  | cons hr _ ih =>
    cases i with
    | zero => exact hr
    | succ i => exact ih (Nat.lt_of_succ_lt_succ hi)

/-- Where the strings and the vector fit, they are laid out; where they do not, `pushArgs` gives up. -/
structure LaidOut (t : Pagetable) (k : Nat) (argv : List (List UInt8)) (byte : Nat → UInt8) (sp : Nat) : Prop where
  fits : stackBytes argv ≤ PGSIZE
  top : sp = (k + 2) * PGSIZE - stackBytes argv
  arguments : Arguments t byte argv ((k + 1) * PGSIZE) ((k + 2) * PGSIZE) sp
    fun i => (addresses ((k + 2) * PGSIZE) 0 argv).getD i 0

/-- The strings, and the vector below them. -/
theorem laidOut_of_pushed {m₁ : Mem} {sp : Nat} {us : List Nat} (h : StackPage t k) (hpushed : Pushed t k argv 0 [] m m₁ sp us)
    (hfits : stackBytes argv ≤ PGSIZE)
    (hbyte : m'.byte = write (frame t (k + 1) + ((k + 2) * PGSIZE - stackBytes argv - (k + 1) * PGSIZE)) (vector us) m₁.byte) :
    LaidOut t k argv m'.byte ((k + 2) * PGSIZE - stackBytes argv) := by
  obtain ⟨hstrings, -, hus, hstr, -⟩ := hpushed
  rw [List.nil_append] at hus
  have hsmall := h.small
  have hlen : us.length = argv.length := by rw [hus, length_addresses]
  have hvlen : (vector us).length = (argv.length + 1) * 8 := by rw [length_vector, hlen]
  have hle : stringBytes 0 argv + (argv.length + 1) * 8 ≤ stackBytes argv := le_roundup16 _
  have hbase : (k + 1) * PGSIZE + PGSIZE = (k + 2) * PGSIZE := by
    simp only [PGSIZE]
    omega
  have haligned : (k + 2) * PGSIZE % 16 = 0 := by
    simp only [PGSIZE]
    omega
  have hplaced : ∀ i : Fin argv.length, Placed ((k + 2) * PGSIZE) 0 argv ((addresses ((k + 2) * PGSIZE) 0 argv).getD i 0) (argv.get i).length :=
    fun i => placed_addresses haligned argv (by omega) i.isLt
  have hvector : bytesVa t m'.byte ((k + 2) * PGSIZE - stackBytes argv) ((us ++ [0]).length * 8) = (us ++ [0]).flatMap (leBytes 8) := by
    have hread := bytesVa_write t (show (k + 1) * PGSIZE ≤ (k + 2) * PGSIZE - stackBytes argv by omega)
      (show _ + (vector us).length ≤ _ by rw [hvlen]; omega) m₁.byte
    rw [← hbyte, length_vector] at hread
    rw [List.length_append, List.length_singleton]
    exact hread
  have hword : ∀ i v, (us ++ [0])[i]? = some v → v < 2 ^ 64 →
      le (bytesVa t m'.byte ((k + 2) * PGSIZE - stackBytes argv + 8 * i) 8) = v := by
    intro i v hget hv
    obtain ⟨hi, rfl⟩ := List.getElem?_eq_some_iff.1 hget
    rw [bytesVa_words _ hvector hi]
    exact le_leBytes hv
  refine ⟨hfits, rfl, ⟨fun i => ?_, ?_, fun i => ?_, ⟨by omega, by omega, fun i => ?_⟩, fun i => ?_, fun i j hij => ?_, ?_, fun i => ?_⟩⟩
  · have hi : i.val < us.length := by
      rw [hlen]
      exact i.isLt
    refine hword i _ ?_ ?_
    · rw [List.getElem?_append_left hi, List.getElem?_eq_getElem hi, ← hus, List.getD_eq_getElem _ _ hi]
    · have := (hplaced i).high
      simp only [PGSIZE, userPages_eq] at hsmall this ⊢
      omega
  · refine hword argv.length 0 ?_ (by decide)
    rw [List.getElem?_append_right (by omega), hlen, Nat.sub_self]
    rfl
  · have hstring : bytesVa t m₁.byte _ _ = _ := string_of_forall₂ hstr i.isLt
    have hi := hplaced i
    refine Eq.trans (bytesVa_congr fun j hj => ?_) hstring
    have hlow := hi.low
    have hhigh := hi.high
    have hpage : (k + 1) * PGSIZE ≤ (addresses ((k + 2) * PGSIZE) 0 argv).getD i 0 + j := by omega
    rw [hbyte, translate_stack t hpage (by omega)]
    exact write_outside (.inr (by rw [hvlen]; omega)) _
  · have hlow := (hplaced i).low
    have hhigh := (hplaced i).high
    omega
  · have hlow := (hplaced i).low
    omega
  · exact apart_addresses haligned argv (by omega) hij j.isLt
  · rw [stackBytes, roundup16] at hfits ⊢
    omega
  · exact (hplaced i).aligned

/-- The layout is in the stack page. -/
theorem LaidOut.congr {byte byte' : Nat → UInt8} {sp : Nat} (h : LaidOut t k argv byte sp)
    (hsame : ∀ x, InPage (frame t (k + 1)) x → byte' x = byte x) : LaidOut t k argv byte' sp := by
  have hread : ∀ va n, (k + 1) * PGSIZE ≤ va → va + n ≤ (k + 2) * PGSIZE → bytesVa t byte' va n = bytesVa t byte va n := by
    intro va n hlow hhigh
    refine bytesVa_congr fun i hi => hsame _ ?_
    rw [translate_stack t (show (k + 1) * PGSIZE ≤ va + i by omega) (by omega)]
    refine inPage_add ?_
    simp only [PGSIZE] at hhigh hlow ⊢
    omega
  obtain ⟨hbase, htop, hinside⟩ := h.arguments.inside
  refine ⟨h.fits, h.top, ⟨fun i => ?_, ?_, fun i => ?_, h.arguments.inside, h.arguments.below, h.arguments.apart, h.arguments.aligned⟩⟩
  · rw [hread _ _ (by omega) (by omega)]
    exact h.arguments.pointer i
  · rw [hread _ _ (by omega) (by omega)]
    exact h.arguments.null
  · rw [hread _ _ (hinside i).1 (hinside i).2]
    exact h.arguments.string i

theorem pushArgs_spec (h : StackPage t k) (hargc : argv.length < MAXARG) (m : Mem) :
    Ends (pushArgs t ((k + 2) * PGSIZE) argv) m fun r m' => Writes (frame t (k + 1)) m m' ∧
      ∀ sp, r = some sp → LaidOut t k argv m'.byte sp := by
  have hbase : (k + 2) * PGSIZE - PGSIZE = (k + 1) * PGSIZE := by
    simp only [PGSIZE]
    omega
  rw [pushArgs, hbase]
  refine .bind (pushStrings_spec h argv (Nat.zero_le PGSIZE) [] m) ?_
  rintro (_ | ⟨sp, us⟩) m₁ ⟨hmoves, hpushed⟩
  · exact .ret ⟨hmoves, by rintro _ ⟨⟩⟩
  have hp := hpushed sp us rfl
  have hus := hp.ustack
  rw [List.nil_append] at hus
  have hlen : (vector us).length = (argv.length + 1) * 8 := by rw [length_vector, hus, length_addresses]
  have hne : vector us ≠ [] := fun hnil => by
    rw [hnil, List.length_nil] at hlen
    omega
  have hcount : ¬ MAXARG ≤ us.length := by
    rw [hus, length_addresses]
    exact Nat.not_le_of_lt hargc
  rw [hp.sp]
  dsimp only
  rw [if_neg hcount]
  by_cases hlow : push ((k + 2) * PGSIZE - stringBytes 0 argv) ((argv.length + 1) * 8) < (k + 1) * PGSIZE
  · rw [if_pos hlow]
    exact .ret ⟨hmoves, by rintro _ ⟨⟩⟩
  rw [if_neg hlow]
  refine .bind (copyout_stack h (Nat.le_of_not_lt hlow) hne m₁) ?_
  rintro r m₂ ⟨hmoves₂, rfl | ⟨rfl, hend, hbyte⟩⟩
  · exact .ret ⟨hmoves.trans hmoves₂, by rintro _ ⟨⟩⟩
  rw [hlen] at hend
  have hfits := room_of_push h.small hp.fits hlow hend
  rw [push_eq h.small hfits] at hbyte ⊢
  refine .ret ⟨hmoves.trans hmoves₂, ?_⟩
  rintro _ ⟨⟩
  exact laidOut_of_pushed h hp hfits hbyte

end Xv6.Vm
