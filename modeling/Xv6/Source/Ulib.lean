import Mathlib.Algebra.Group.Nat.Defs
import Mathlib.Data.List.DropRight
import Mathlib.Data.List.TakeWhile
import Mathlib.Tactic.Common

/-!
# user/ulib.c

The string functions of the user programs over one buffer of bytes. A pointer is an
offset into the buffer, which may point outside of it; `none` is an access there.
-/
namespace Xv6.Source.Ulib

abbrev Bytes := List UInt8

/-- The bytes that are there are checked, not all 256. -/
instance decidableForallByte {p : UInt8 → Prop} [DecidablePred p] (s : Bytes) : Decidable (∀ c ∈ s, p c) :=
  List.decidableBAll p s

/-- The bytes of a string literal. -/
def literal (s : List Char) : Bytes := s.map Char.toUInt8

/-- What a pointer points at. -/
def deref (m : Bytes) (p : Int) : Option Bytes :=
  if 0 ≤ p ∧ p ≤ m.length then some (m.drop p.toNat) else none

def load (m : Bytes) (p : Int) : Option UInt8 := (deref m p).bind List.head?

def store (m : Bytes) (p : Int) (c : UInt8) : Option Bytes :=
  if 0 ≤ p ∧ p < m.length then some (m.set p.toNat c) else none

/-- `for(n = 0; s[n]; n++)`. -/
def length : Bytes → Option Nat
  | [] => none
  | c :: s => if c = 0 then some 0 else (length s).map (· + 1)

def strlen (m : Bytes) (s : Int) : Option UInt32 :=
  (deref m s).bind fun s => (length s).map UInt32.ofNat

/-- `for(; *s; s++) if(*s == c)`. -/
def find (c : UInt8) : Bytes → Option (Option Nat)
  | [] => none
  | d :: s => if d = 0 then some none else if d = c then some (some 0)
    else (find c s).map (Option.map (· + 1))

/-- The inner `none` is the null pointer. -/
def strchr (m : Bytes) (s : Int) (c : UInt8) : Option (Option Int) :=
  (deref m s).bind fun t => (find c t).map (Option.map fun i : Nat => s + i)

/-- `while(*p && *p == *q) p++, q++`, with `q` a literal. -/
def compare : Bytes → Bytes → Option Int
  | [], _ => none
  | c :: p, q => if c ≠ 0 ∧ c = q.headD 0 then compare p q.tail
    else some (c.toNat - (q.headD 0).toNat)

def strcmp (m : Bytes) (p : Int) (q : Bytes) : Option Int :=
  (deref m p).bind fun p => compare p q

/-- `while(n > 0 && *p && *p == *q) n--, p++, q++`. -/
def compareN : Nat → Bytes → Bytes → Option Int
  | 0, _, _ => some 0
  | _ + 1, [], _ => none
  | n + 1, c :: p, q => if c ≠ 0 ∧ c = q.headD 0 then compareN n p q.tail
    else some (c.toNat - (q.headD 0).toNat)

def strncmp (m : Bytes) (p : Int) (q : Bytes) (n : Nat) : Option Int :=
  (deref m p).bind fun p => compareN n p q

/-- The string at a pointer, as the kernel copies it. -/
def cstring (m : Bytes) (s : Int) : Option Bytes :=
  (deref m s).bind fun t => (length t).map t.take

/-- How `gets` ends: outside its buffer, still waiting for input, or with a line. -/
inductive Got where
  | fault
  | waiting
  | line (m : Bytes) (input : List (Option UInt8))
  deriving DecidableEq, Repr

/-- `buf[i] = '\0'`. -/
def getsEnd (m : Bytes) (i : Nat) (input : List (Option UInt8)) : Got :=
  match store m i 0 with
  | none => .fault
  | some m => .line m input

/-- The loop of `gets`. The input holds what the calls of `read(0, &c, 1)` give: a
byte, or `none` when `read` returns less than one. -/
def gets (max : Nat) : List (Option UInt8) → Bytes → Nat → Got
  | [], m, i => if i + 1 < max then .waiting else getsEnd m i []
  | none :: input, m, i => if i + 1 < max then getsEnd m i input else getsEnd m i (none :: input)
  | some c :: input, m, i =>
    if i + 1 < max then
      match store m i c with
      | none => .fault
      | some m =>
        if c = '\n'.toUInt8 ∨ c = '\r'.toUInt8 then getsEnd m (i + 1) input
        else gets max input m (i + 1)
    else getsEnd m i (some c :: input)

/-- `while(n-- > 0) *dst++ = *src++`. -/
def copyUp : Nat → Bytes → Int → Int → Option Bytes
  | 0, m, _, _ => some m
  | n + 1, m, dst, src =>
    (load m src).bind fun c => (store m dst c).bind fun m => copyUp n m (dst + 1) (src + 1)

/-- `while(n-- > 0) *--dst = *--src`. -/
def copyDown : Nat → Bytes → Int → Int → Option Bytes
  | 0, m, _, _ => some m
  | n + 1, m, dst, src =>
    (load m (src - 1)).bind fun c => (store m (dst - 1) c).bind fun m => copyDown n m (dst - 1) (src - 1)

def memmove (m : Bytes) (dst src n : Int) : Option Bytes :=
  if src > dst then copyUp n.toNat m dst src else copyDown n.toNat m (dst + n) (src + n)

/-- A pointer to a string: the bytes `w`, none of them zero, and the terminator. -/
structure Holds (m : Bytes) (p : Int) (w : Bytes) : Prop where
  layout : ∃ pre post, m = pre ++ (w ++ 0 :: post) ∧ p = pre.length
  clean : (0 : UInt8) ∉ w

section strings
variable {w post : Bytes}

theorem length_terminated (h : (0 : UInt8) ∉ w) : length (w ++ 0 :: post) = some w.length := by
  induction w with
  | nil => simp [length]
  | cons c w ih =>
    simp only [List.mem_cons, not_or] at h
    rw [List.cons_append, length, if_neg (Ne.symm h.1), ih h.2]
    rfl

theorem find_terminated {c : UInt8} (hc : c ≠ 0) (h : (0 : UInt8) ∉ w) :
    find c (w ++ 0 :: post) = some (if c ∈ w then some (w.idxOf c) else none) := by
  induction w with
  | nil => simp [find]
  | cons d w ih =>
    simp only [List.mem_cons, not_or] at h
    rw [List.cons_append, find, if_neg (Ne.symm h.1)]
    by_cases hd : d = c
    · subst hd
      simp
    · have hd' : c ≠ d := fun e => hd e.symm
      rw [if_neg hd, ih h.2]
      by_cases hm : c ∈ w
      · simp [hm, List.idxOf_cons_ne _ hd]
      · simp [hm, hd']

theorem compare_terminated (h : (0 : UInt8) ∉ w) {q : Bytes} (hq : (0 : UInt8) ∉ q) :
    ∃ r, compare (w ++ 0 :: post) q = some r ∧ (r = 0 ↔ w = q) := by
  induction w generalizing q with
  | nil =>
    cases q with
    | nil => exact ⟨0, by simp [compare], by simp⟩
    | cons d q =>
      refine ⟨(0 : UInt8).toNat - d.toNat, by simp [compare], ?_⟩
      have hd : d ≠ 0 := by
        rintro rfl
        simp at hq
      have hpos : 0 < d.toNat := by
        rw [Nat.pos_iff_ne_zero]
        intro h0
        exact hd (UInt8.toNat_inj.mp h0)
      constructor
      · intro h0
        simp at h0
        omega
      · intro h0
        cases h0
  | cons c w ih =>
    simp only [List.mem_cons, not_or] at h
    have hc : c ≠ 0 := Ne.symm h.1
    cases q with
    | nil =>
      refine ⟨c.toNat, by simp [compare, hc], ?_⟩
      have hpos : c.toNat ≠ 0 := fun h0 => hc (UInt8.toNat_inj.mp h0)
      simpa using hpos
    | cons d q =>
      simp only [List.mem_cons, not_or] at hq
      by_cases hcd : c = d
      · subst hcd
        obtain ⟨r, hr, hiff⟩ := ih h.2 hq.2
        exact ⟨r, by simp [compare, hc, hr], by simp [hiff]⟩
      · refine ⟨c.toNat - d.toNat, by simp [compare, hcd], ?_⟩
        have hne : c.toNat ≠ d.toNat := fun e => hcd (UInt8.toNat_inj.mp e)
        simp only [List.cons.injEq, hcd, false_and, iff_false]
        omega

theorem compareN_terminated (h : (0 : UInt8) ∉ w) {q : Bytes} (hq : (0 : UInt8) ∉ q) :
    ∃ r, compareN q.length (w ++ 0 :: post) q = some r ∧ (r = 0 ↔ q <+: w) := by
  induction q generalizing w with
  | nil => exact ⟨0, by simp [compareN], by simp⟩
  | cons d q ih =>
    simp only [List.mem_cons, not_or] at hq
    have hd : d.toNat ≠ 0 := fun h0 => hq.1 (UInt8.toNat_inj.mp h0).symm
    cases w with
    | nil =>
      refine ⟨(0 : UInt8).toNat - d.toNat, by simp [compareN], ?_⟩
      simpa using hd
    | cons c w =>
      simp only [List.mem_cons, not_or] at h
      have hc : c ≠ 0 := Ne.symm h.1
      by_cases hcd : c = d
      · subst hcd
        obtain ⟨r, hr, hiff⟩ := ih h.2 hq.2
        exact ⟨r, by simp [compareN, hc, hr], by simp [hiff]⟩
      · refine ⟨c.toNat - d.toNat, by simp [compareN, hcd], ?_⟩
        have hne : c.toNat ≠ d.toNat := fun e => hcd (UInt8.toNat_inj.mp e)
        simp only [List.cons_prefix_cons, Ne.symm hcd, false_and, iff_false]
        omega

end strings

section pointers
variable {m m' w u v : Bytes} {p q : Int} {c : UInt8}

theorem deref_append (pre rest : Bytes) : deref (pre ++ rest) pre.length = some rest := by
  have hle : (pre.length : Int) ≤ ((pre ++ rest).length : Int) := by
    simp only [List.length_append]
    omega
  rw [deref, if_pos ⟨by omega, hle⟩]
  simp

theorem store_append (pre rest : Bytes) (d : UInt8) :
    store (pre ++ c :: rest) pre.length d = some (pre ++ d :: rest) := by
  have hlt : (pre.length : Int) < ((pre ++ c :: rest).length : Int) := by
    simp only [List.length_append, List.length_cons]
    omega
  rw [store, if_pos ⟨by omega, hlt⟩]
  simp

namespace Holds

theorem nonneg (h : Holds m p w) : 0 ≤ p := by
  obtain ⟨⟨pre, post, _, rfl⟩, _⟩ := h
  omega

theorem end_lt (h : Holds m p w) : p + w.length < m.length := by
  obtain ⟨⟨pre, post, rfl, rfl⟩, _⟩ := h
  rw [List.length_append, List.length_append, List.length_cons]
  omega

theorem deref (h : Holds m p w) : ∃ post, Ulib.deref m p = some (w ++ 0 :: post) := by
  obtain ⟨⟨pre, post, rfl, rfl⟩, _⟩ := h
  exact ⟨post, deref_append pre _⟩

theorem strlen (h : Holds m p w) : Ulib.strlen m p = some (UInt32.ofNat w.length) := by
  obtain ⟨post, hd⟩ := h.deref
  simp [Ulib.strlen, hd, length_terminated h.clean]

theorem strchr (h : Holds m p w) (hc : c ≠ 0) :
    Ulib.strchr m p c = some (if c ∈ w then some (p + w.idxOf c) else none) := by
  obtain ⟨post, hd⟩ := h.deref
  rw [Ulib.strchr, hd, Option.bind_some, find_terminated hc h.clean]
  split <;> rfl

theorem strcmp (h : Holds m p w) {q : Bytes} (hq : (0 : UInt8) ∉ q) :
    ∃ r, Ulib.strcmp m p q = some r ∧ (r = 0 ↔ w = q) := by
  obtain ⟨post, hd⟩ := h.deref
  rw [Ulib.strcmp, hd]
  exact compare_terminated h.clean hq

theorem strncmp (h : Holds m p w) {q : Bytes} (hq : (0 : UInt8) ∉ q) :
    ∃ r, Ulib.strncmp m p q q.length = some r ∧ (r = 0 ↔ q <+: w) := by
  obtain ⟨post, hd⟩ := h.deref
  rw [Ulib.strncmp, hd]
  exact compareN_terminated h.clean hq

theorem cstring (h : Holds m p w) : Ulib.cstring m p = some w := by
  obtain ⟨post, hd⟩ := h.deref
  simp [Ulib.cstring, hd, length_terminated h.clean]

theorem suffix (h : Holds m p (u ++ v)) : Holds m (p + u.length) v := by
  obtain ⟨⟨pre, post, rfl, rfl⟩, hclean⟩ := h
  refine ⟨⟨pre ++ u, post, by simp, by simp⟩, ?_⟩
  exact fun hv => hclean (List.mem_append_right u hv)

theorem load_here (h : Holds m p (c :: v)) : load m p = some c := by
  obtain ⟨post, hd⟩ := h.deref
  simp [load, hd]

theorem load_nil (h : Holds m p []) : load m p = some 0 := by
  obtain ⟨post, hd⟩ := h.deref
  simp [load, hd]

theorem load (h : Holds m p (u ++ c :: v)) : load m (p + u.length) = some c :=
  h.suffix.load_here

/-- Writing the terminator into a string leaves two strings. -/
theorem cut (h : Holds m p (u ++ c :: v)) :
    ∃ m', store m (p + u.length) 0 = some m' ∧ Holds m' p u ∧ Holds m' (p + u.length + 1) v ∧
      m'.length = m.length := by
  obtain ⟨⟨pre, post, rfl, rfl⟩, hclean⟩ := h
  refine ⟨(pre ++ u) ++ 0 :: (v ++ 0 :: post), ?_, ⟨⟨pre, v ++ 0 :: post, by simp, rfl⟩, ?_⟩,
    ⟨⟨pre ++ u ++ [0], post, by simp, by simp [Int.add_assoc]⟩, ?_⟩, by simp⟩
  · have hs := store_append (c := c) (pre ++ u) (v ++ 0 :: post) 0
    simpa using hs
  · exact fun hu => hclean (List.mem_append_left _ hu)
  · exact fun hv => hclean (List.mem_append_right _ (List.mem_cons_of_mem _ hv))

/-- A write behind a string does not change it. -/
theorem frame (h : Holds m p w) (hq : p + w.length < q) (hs : store m q c = some m') :
    Holds m' p w := by
  obtain ⟨⟨pre, post, rfl, rfl⟩, hclean⟩ := h
  rw [store] at hs
  split at hs
  · cases hs
    refine ⟨⟨pre, post.set (q.toNat - (pre.length + w.length + 1)) c, ?_, rfl⟩, hclean⟩
    have hge : pre.length + w.length + 1 ≤ q.toNat := by omega
    rw [List.set_append_right _ _ (by omega), List.set_append_right _ _ (by omega)]
    obtain ⟨k, hk⟩ := Nat.exists_eq_add_of_le hge
    have hk' : q.toNat - pre.length - w.length = k + 1 := by omega
    rw [hk', List.set_cons_succ, hk]
    simp
  · cases hs

end Holds
end pointers

section copies
variable {m m' : Bytes} {dst src n : Nat}

theorem load_nat (m : Bytes) (i : Nat) : load m i = m[i]? := by
  unfold load deref
  split
  · simp
  · rw [List.getElem?_eq_none (by omega)]
    rfl

theorem store_nat (c : UInt8) {i : Nat} (h : i < m.length) : store m i c = some (m.set i c) := by
  simp [store, h]

/-- `n` bytes at `dst` are what was at `src`, and all others are what they were. -/
structure Copied (m m' : Bytes) (dst src n : Nat) : Prop where
  length : m'.length = m.length
  get : ∀ i, m'[i]? = if dst ≤ i ∧ i < dst + n then m[src + (i - dst)]? else m[i]?

theorem Copied.refl (m : Bytes) (dst src : Nat) : Copied m m dst src 0 := by
  refine ⟨rfl, fun i => ?_⟩
  rw [if_neg (by omega)]

/-- Upwards, a byte is stored where nothing is read from any more. -/
theorem copyUp_copied (hd : dst + n ≤ m.length) (hs : src + n ≤ m.length) (h : dst ≤ src ∨ src + n ≤ dst) :
    ∃ m', copyUp n m dst src = some m' ∧ Copied m m' dst src n := by
  induction n generalizing m dst src with
  | zero => exact ⟨m, rfl, .refl m dst src⟩
  | succ n ih =>
    have hload : load m src = some m[src] := by rw [load_nat, List.getElem?_eq_getElem]
    have hlen : (m.set dst m[src]).length = m.length := List.length_set
    obtain ⟨m', hcopy, hm'⟩ := @ih (m.set dst m[src]) (dst + 1) (src + 1) (by omega) (by omega) (by omega)
    refine ⟨m', ?_, hm'.length.trans hlen, fun i => ?_⟩
    · rw [copyUp, hload, Option.bind_some, store_nat _ (by omega), Option.bind_some]
      exact_mod_cast hcopy
    · rw [hm'.get i]
      split
      · rw [if_pos (by omega), List.getElem?_set_ne (by omega)]
        congr 1
        omega
      · by_cases hi : i = dst
        · subst hi
          rw [if_pos (by omega), List.getElem?_set_self (by omega), Nat.sub_self, Nat.add_zero, List.getElem?_eq_getElem]
        · rw [if_neg (by omega), List.getElem?_set_ne (by omega)]

theorem copyDown_copied (hd : dst + n ≤ m.length) (hs : src + n ≤ m.length) (h : src ≤ dst ∨ dst + n ≤ src) :
    ∃ m', copyDown n m (dst + n : Nat) (src + n : Nat) = some m' ∧ Copied m m' dst src n := by
  induction n generalizing m with
  | zero => exact ⟨m, rfl, .refl m dst src⟩
  | succ n ih =>
    have hload : load m ((src + (n + 1) : Nat) - 1 : Int) = some m[src + n] := by
      rw [show ((src + (n + 1) : Nat) - 1 : Int) = (src + n : Nat) by omega, load_nat, List.getElem?_eq_getElem]
    have hstore : store m ((dst + (n + 1) : Nat) - 1 : Int) m[src + n] = some (m.set (dst + n) m[src + n]) := by
      rw [show ((dst + (n + 1) : Nat) - 1 : Int) = (dst + n : Nat) by omega, store_nat _ (by omega)]
    have hlen : (m.set (dst + n) m[src + n]).length = m.length := List.length_set
    obtain ⟨m', hcopy, hm'⟩ := ih (m := m.set (dst + n) m[src + n]) (by omega) (by omega) (by omega)
    refine ⟨m', ?_, hm'.length.trans hlen, fun i => ?_⟩
    · rw [copyDown, hload, Option.bind_some, hstore, Option.bind_some, ← hcopy]
      congr 1 <;> omega
    · rw [hm'.get i]
      split
      · rw [if_pos (by omega), List.getElem?_set_ne (by omega)]
      · by_cases hi : i = dst + n
        · subst hi
          rw [if_pos (by omega), List.getElem?_set_self (by omega), Nat.add_sub_cancel_left, List.getElem?_eq_getElem]
        · rw [if_neg (by omega), List.getElem?_set_ne (by omega)]

theorem memmove_copied (hd : dst + n ≤ m.length) (hs : src + n ≤ m.length) :
    ∃ m', memmove m dst src n = some m' ∧ Copied m m' dst src n := by
  unfold memmove
  split
  · exact copyUp_copied hd hs (by omega)
  · exact copyDown_copied hd hs (by omega)

end copies
end Xv6.Source.Ulib
