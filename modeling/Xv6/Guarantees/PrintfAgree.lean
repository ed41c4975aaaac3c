import Mathlib.Data.List.Forall2
import Xv6.Source.Printf

/-!
# The two printfs

A call is a sequence of pieces: literal text, directives with their arguments, and perhaps a `%` at the
end. Both functions print it without leaving the digit buffer. They print the same but for the case of
digits, unless a `%x` has a negative argument: the kernel prints a sign there.
-/
namespace Xv6.Guarantees.PrintfAgree

open Xv6.Source Xv6.Source.Ulib Xv6.Source.Printf

/-- The letters that one of the functions knows as a directive. -/
def known : Bytes := literal ['d', 'l', 'x', 'p', 's', 'c', '%']

/-- A part of a format, with its argument. -/
inductive Piece where
  | text (c : UInt8) (h : c ≠ percent)
  | decimal (x : Int32)
  | hex (x : Int32)
  | pointer (x : UInt64)
  | string (s : Option Bytes)
  | percent
  | unknown (c : UInt8) (h : c ∉ known)

def Piece.fmt : Piece → Bytes
  | .text c _ => [c]
  | .decimal _ => literal ['%', 'd']
  | .hex _ => literal ['%', 'x']
  | .pointer _ => literal ['%', 'p']
  | .string _ => literal ['%', 's']
  | .percent => literal ['%', '%']
  | .unknown c _ => [Printf.percent, c]

def Piece.args : Piece → List Arg
  | .decimal x | .hex x => [.int x]
  | .pointer x => [.long x]
  | .string s => [.string s]
  | .text .. | .percent | .unknown .. => []

/-- The format of the pieces, with a `%` at its end or without. -/
def format (ps : List Piece) (trailing : Bool) : Bytes :=
  ps.flatMap Piece.fmt ++ if trailing then [Printf.percent] else []

def args (ps : List Piece) : List Arg := ps.flatMap Piece.args

/-- The same character, or the same digit in the two tables. -/
def SameChar (a b : UInt8) : Prop := a = b ∨ ∃ i : Nat, Kernel.digits[i]? = some a ∧ User.digits[i]? = some b

abbrev Same : Bytes → Bytes → Prop := List.Forall₂ SameChar

/-! ## Numbers -/

/-- The digits of a number are found in the table by their values, and there are at most `n` of them. -/
theorem digitLoop_spec (base : UInt32) (hbase : 2 ≤ base.toNat) : ∀ (n room : Nat) (x : UInt32), n ≤ room → 0 < n →
    x.toNat < base.toNat ^ n → ∃ is : List Nat, is ≠ [] ∧ is.length ≤ n ∧ (∀ i ∈ is, i < base.toNat) ∧
      ∀ digits buf, digitLoop digits base room x buf = some (buf ++ is.map (digits.getD · 0)) := by
  intro n
  induction n with
  | zero => intro room x _ h; omega
  | succ n ih =>
    intro room x hroom _ hx
    obtain ⟨room, rfl⟩ : ∃ k, room = k + 1 := ⟨room - 1, by omega⟩
    have hmod : (x % base).toNat < base.toNat := by
      rw [UInt32.toNat_mod]
      exact Nat.mod_lt _ (by omega)
    by_cases hdiv : x / base = 0
    · refine ⟨[(x % base).toNat], by simp, by simp, by simpa using hmod, fun digits buf => ?_⟩
      rw [digitLoop, if_pos hdiv]
      rfl
    · have hnat : (x / base).toNat = x.toNat / base.toNat := UInt32.toNat_div ..
      have hpos : 0 < x.toNat / base.toNat := by
        rw [← hnat, Nat.pos_iff_ne_zero]
        exact fun h => hdiv (UInt32.toNat_inj.mp h)
      have hlt : x.toNat / base.toNat < base.toNat ^ n := by
        rw [Nat.div_lt_iff_lt_mul (by omega), ← Nat.pow_succ]
        exact hx
      have hn : 0 < n := by
        rw [Nat.pos_iff_ne_zero]
        rintro rfl
        rw [Nat.pow_zero] at hlt
        omega
      obtain ⟨is, -, hlen, his, hloop⟩ := ih room (x / base) (by omega) hn (by rw [hnat]; exact hlt)
      refine ⟨(x % base).toNat :: is, by simp, by simpa using hlen, List.forall_mem_cons.mpr ⟨hmod, his⟩, fun digits buf => ?_⟩
      rw [digitLoop, if_neg hdiv, hloop]
      simp

/-- A number with these values of its digits. -/
def number (digits : Bytes) (neg : Bool) (is : List Nat) : Bytes :=
  (if neg then [minus] else []) ++ is.map (digits.getD · 0)

/-- What `printint` prints in base 10 or 16. -/
theorem printint_spec (xx : Int32) (base : UInt32) (hbase : base = 10 ∨ base = 16) (sign : Bool) :
    ∃ is : List Nat, is ≠ [] ∧ (∀ i ∈ is, i < 16) ∧
      ∀ digits, printint digits xx base sign = some (number digits (sign && decide (xx < 0)) is) := by
  have h2 : 10 ≤ base.toNat ∧ base.toNat ≤ 16 := by rcases hbase with rfl | rfl <;> decide
  generalize hx : (if sign && decide (xx < 0) then (-xx).toUInt32 else xx.toUInt32) = x
  have hlt : x.toNat < base.toNat ^ 10 := by
    have hpow : 10 ^ 10 ≤ base.toNat ^ 10 := Nat.pow_le_pow_left h2.1 10
    have := x.toNat_lt
    omega
  obtain ⟨is, hne, hlen, his, hloop⟩ := digitLoop_spec base (by omega) 10 bufSize x (by decide) (by decide) hlt
  refine ⟨is.reverse, by simpa using hne, fun i hi => ?_, fun digits => ?_⟩
  · have := his i (List.mem_reverse.mp hi)
    omega
  · have hroom : is.length < bufSize := Nat.lt_of_le_of_lt hlen (by decide)
    simp only [printint, number, hx, hloop, Option.bind_some, List.nil_append]
    split
    · simp [hroom]
    · simp

theorem same_digit {i : Nat} (h : i < 16) : SameChar (Kernel.digits.getD i 0) (User.digits.getD i 0) := by
  have hk : i < Kernel.digits.length := h
  have hu : i < User.digits.length := h
  refine .inr ⟨i, ?_, ?_⟩
  · simp [List.getElem?_eq_getElem hk]
  · simp [List.getElem?_eq_getElem hu]

theorem same_refl (w : Bytes) : Same w w := by
  induction w with
  | nil => exact .nil
  | cons c w ih => exact .cons (.inl rfl) ih

theorem same_number (neg : Bool) {is : List Nat} (h : ∀ i ∈ is, i < 16) :
    Same (number Kernel.digits neg is) (number User.digits neg is) := by
  apply List.rel_append (same_refl _)
  induction is with
  | nil => exact .nil
  | cons i is ih =>
    obtain ⟨hi, his⟩ := List.forall_mem_cons.mp h
    exact .cons (same_digit hi) (ih his)

theorem same_ptr (n : Nat) (x : UInt64) : Same (ptrLoop Kernel.digits n x) (ptrLoop User.digits n x) := by
  induction n generalizing x with
  | zero => exact .nil
  | succ n ih =>
    refine .cons (same_digit ?_) (ih _)
    have hlt := x.toNat_lt
    have hshift : (x >>> 60).toNat = x.toNat / 2 ^ 60 := by simp [Nat.shiftRight_eq_div_pow]
    omega

/-! ## Pieces -/

/-- What a piece prints in the kernel and in a user program. -/
structure Prints (p : Piece) (k u : Bytes) : Prop where
  kernel : ∀ fmt ap, Kernel.printf (p.fmt ++ fmt) (p.args ++ ap) = (Kernel.printf fmt ap).map (k ++ ·)
  user : ∀ fmt ap, User.vprintf false (p.fmt ++ fmt) (p.args ++ ap) = (User.vprintf false fmt ap).map (u ++ ·)

/-- A directive that both functions print without an argument of the other's. -/
theorem prints_directive {p : Piece} {c : UInt8} {k u : Bytes} (hfmt : p.fmt = [Printf.percent, c])
    (hk : ∀ ap, Kernel.directive c (p.args ++ ap) = some (k, ap)) (hu : ∀ ap, User.directive c (p.args ++ ap) = some (u, ap)) :
    Prints p k u := by
  constructor
  · intro fmt ap
    rw [hfmt, List.cons_append, List.singleton_append, Kernel.printf, if_neg (by simp), hk]
    rfl
  · intro fmt ap
    rw [hfmt, List.cons_append, List.singleton_append, User.vprintf, if_pos rfl, User.vprintf, hu]
    rfl

theorem prints_int {p : Piece} {c : UInt8} {x : Int32} {pk pu : Option Bytes} {k u : Bytes}
    (hfmt : p.fmt = [Printf.percent, c]) (hargs : p.args = [.int x])
    (hk : ∀ ap, Kernel.directive c (.int x :: ap) = pk.map (·, ap)) (hu : ∀ ap, User.directive c (.int x :: ap) = pu.map (·, ap))
    (hpk : pk = some k) (hpu : pu = some u) : Prints p k u := by
  subst hpk hpu
  apply prints_directive hfmt
  · intro ap
    rw [hargs]
    exact hk ap
  · intro ap
    rw [hargs]
    exact hu ap

theorem kernel_text {c : UInt8} (h : c ≠ Printf.percent) (fmt : Bytes) (ap : List Arg) :
    Kernel.printf (c :: fmt) ap = (Kernel.printf fmt ap).map (c :: ·) := by
  cases fmt with
  | nil => simp [Kernel.printf, h]
  | cons d fmt => simp [Kernel.printf, h]

/-- The kernel prints a sign where the user's function prints a digit. -/
def Signed (k u : Bytes) : Prop := ∃ i k' u', i < 16 ∧ k = minus :: k' ∧ u = User.digits.getD i 0 :: u'

/-- Both functions print every piece, and the same but for a negative `%x`. -/
theorem piece_prints (p : Piece) : ∃ k u, Prints p k u ∧
    ((∀ x, p = .hex x → 0 ≤ x) ∧ Same k u ∨ (∃ x, p = .hex x ∧ x < 0) ∧ Signed k u) := by
  cases p with
  | text c h =>
    refine ⟨[c], [c], ⟨fun fmt ap => kernel_text h fmt ap, fun fmt ap => ?_⟩, .inl ⟨nofun, same_refl _⟩⟩
    simp [Piece.fmt, Piece.args, User.vprintf, h]
  | decimal x =>
    obtain ⟨is, -, his, hprint⟩ := printint_spec x 10 (.inl rfl) true
    refine ⟨_, _, prints_int (c := 'd'.toUInt8) rfl rfl (fun ap => rfl) (fun ap => rfl) (hprint _) (hprint _), .inl ⟨nofun, ?_⟩⟩
    exact same_number _ his
  | hex x =>
    obtain ⟨is, -, his, hkernel⟩ := printint_spec x 16 (.inr rfl) true
    obtain ⟨js, hjs, hlt, huser⟩ := printint_spec x 16 (.inr rfl) false
    have hprints : ∀ k u, printint Kernel.digits x 16 true = some k → printint User.digits x 16 false = some u →
        Prints (.hex x) k u :=
      fun _ _ => prints_int (c := 'x'.toUInt8) rfl rfl (fun ap => rfl) (fun ap => rfl)
    by_cases hx : x < 0
    · refine ⟨_, _, hprints _ _ (hkernel _) (huser _), .inr ⟨⟨x, rfl, hx⟩, ?_⟩⟩
      obtain ⟨j, js, rfl⟩ := List.exists_cons_of_ne_nil hjs
      refine ⟨j, is.map (Kernel.digits.getD · 0), js.map (User.digits.getD · 0), hlt j List.mem_cons_self, ?_, rfl⟩
      simp [number, hx]
    · have hsame : printint User.digits x 16 false = printint User.digits x 16 true := by
        simp [printint, hx]
      refine ⟨_, _, hprints _ _ (hkernel _) (hsame.trans (hkernel _)), .inl ⟨?_, same_number _ his⟩⟩
      intro y hy
      cases hy
      exact Int32.not_lt.mp hx
  | pointer x =>
    exact ⟨_, _, prints_directive (c := 'p'.toUInt8) rfl (fun ap => rfl) (fun ap => rfl),
      .inl ⟨nofun, List.rel_append (same_refl _) (same_ptr 16 x)⟩⟩
  | string s =>
    exact ⟨_, _, prints_directive (c := 's'.toUInt8) rfl (fun ap => rfl) (fun ap => rfl), .inl ⟨nofun, same_refl _⟩⟩
  | percent =>
    exact ⟨_, _, prints_directive (c := '%'.toUInt8) rfl (fun ap => rfl) (fun ap => rfl), .inl ⟨nofun, same_refl _⟩⟩
  | unknown c h =>
    simp only [known, literal, List.map_cons, List.map_nil, List.mem_cons, List.not_mem_nil, not_or] at h
    refine ⟨_, _, prints_directive (c := c) rfl (fun ap => ?_) (fun ap => ?_), .inl ⟨nofun, same_refl [Printf.percent, c]⟩⟩
    · simp [Kernel.directive, Piece.args, h]
    · simp [User.directive, Piece.args, h]

/-! ## Calls -/

theorem signed_not_same {k u k' u' : Bytes} (h : Signed k u) : ¬ Same (k ++ k') (u ++ u') := by
  obtain ⟨i, k, u, hi, rfl, rfl⟩ := h
  intro hsame
  rcases (List.forall₂_cons.mp hsame).1 with heq | ⟨j, hj, -⟩
  · have hmem : User.digits.getD i 0 ∈ User.digits := by
      have hlen : i < User.digits.length := hi
      simp [List.getElem?_eq_getElem hlen]
    rw [← heq] at hmem
    exact absurd hmem (by decide)
  · exact absurd (List.mem_of_getElem? hj) (by decide)

theorem same_append_iff {k₁ u₁ k u : Bytes} (h : Same k₁ u₁) : Same (k₁ ++ k) (u₁ ++ u) ↔ Same k u := by
  induction h with
  | nil => exact Iff.rfl
  | cons hchar _ ih => simp [hchar, ih]

/-- Every call is printed by both functions, and they print the same up to the case of digits if and only
if no `%x` has a negative argument. -/
theorem printf_agree_iff (ps : List Piece) (trailing : Bool) :
    ∃ k u, Kernel.printf (format ps trailing) (args ps) = some k ∧
      User.vprintf false (format ps trailing) (args ps) = some u ∧ (Same k u ↔ ∀ x, .hex x ∈ ps → 0 ≤ x) := by
  induction ps with
  | nil =>
    refine ⟨[], [], ?_, ?_, iff_of_true .nil (by simp)⟩
    · cases trailing <;> rfl
    · cases trailing <;> rfl
  | cons p ps ih =>
    obtain ⟨k, u, hk, hu, hiff⟩ := ih
    obtain ⟨k₁, u₁, hprints, hcase⟩ := piece_prints p
    have hformat : format (p :: ps) trailing = p.fmt ++ format ps trailing := by simp [format]
    have hargs : args (p :: ps) = p.args ++ args ps := by simp [args]
    refine ⟨k₁ ++ k, u₁ ++ u, ?_, ?_, ?_⟩
    · rw [hformat, hargs, hprints.kernel, hk]
      rfl
    · rw [hformat, hargs, hprints.user, hu]
      rfl
    · rcases hcase with ⟨hpos, hsame⟩ | ⟨⟨x, rfl, hx⟩, hsigned⟩
      · rw [same_append_iff hsame, hiff]
        constructor
        · intro h x hx
          rcases List.mem_cons.mp hx with hp | hx
          · exact hpos x hp.symm
          · exact h x hx
        · exact fun h x hx => h x (List.mem_cons_of_mem _ hx)
      · refine iff_of_false (signed_not_same hsigned) fun h => ?_
        exact Int32.not_lt.mpr (h x List.mem_cons_self) hx

/-- `%x` of -1. -/
theorem hex_of_minus_one_differs : Kernel.printf (literal ['%', 'x']) [.int (-1)] = some (literal ['-', '1']) ∧
    User.vprintf false (literal ['%', 'x']) [.int (-1)] = some (literal ['F', 'F', 'F', 'F', 'F', 'F', 'F', 'F']) ∧
    ¬ Same (literal ['-', '1']) (literal ['F', 'F', 'F', 'F', 'F', 'F', 'F', 'F']) := by
  refine ⟨by decide, by decide, fun h => ?_⟩
  exact absurd h.length_eq (by decide)

end Xv6.Guarantees.PrintfAgree
