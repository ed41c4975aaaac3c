import Mathlib.Data.Nat.ModEq
import Mathlib.Logic.Function.Basic

/-!
# Queues in a circular buffer with wrapping counters

A buffer of `n` cells is filled at a counter `wr` and emptied at a counter `rd`. Both only
count up, wrap at `2 ^ w`, and select a cell modulo `n`. As long as `n` divides `2 ^ w` and
is smaller, the buffer holds a queue of at most `n` elements, whichever counters have wrapped.
-/
namespace Xv6.Library.Fifo

variable {α : Type} {n w : Nat}

/-- Counters that are at most `n` apart are told apart by their difference. -/
theorem ofNat_inj (hw : n < 2 ^ w) {i : BitVec w} {j k : Nat} (hj : j ≤ n) (hk : k ≤ n)
    (h : i + BitVec.ofNat w j = i + BitVec.ofNat w k) : j = k := by
  have heq : (BitVec.ofNat w j).toNat = (BitVec.ofNat w k).toNat :=
    congrArg BitVec.toNat (BitVec.add_right_inj i |>.mp h)
  rwa [BitVec.toNat_ofNat, BitVec.toNat_ofNat, Nat.mod_eq_of_lt (by omega),
    Nat.mod_eq_of_lt (by omega)] at heq

theorem add_ofNat_succ (i : BitVec w) (k : Nat) :
    i + BitVec.ofNat w (k + 1) = i + BitVec.ofNat w k + 1 := by
  rw [BitVec.ofNat_add, BitVec.add_assoc]
  rfl

variable [NeZero n]

/-- The cell a counter selects. -/
def cell (n : Nat) [NeZero n] (i : BitVec w) : Fin n := Fin.ofNat n i.toNat

/-- The buffer holds the queue `q`, its oldest element first. -/
structure Holds (data : Fin n → α) (rd wr : BitVec w) (q : List α) : Prop where
  length : q.length ≤ n
  count : wr = rd + BitVec.ofNat w q.length
  get : ∀ k (h : k < q.length), data (cell n (rd + BitVec.ofNat w k)) = q[k]

theorem Holds.nil {data : Fin n → α} {i : BitVec w} : Holds data i i [] where
  length := Nat.zero_le _
  count := by simp
  get k h := absurd h (by simp)

variable {data : Fin n → α} {rd wr : BitVec w} {q : List α}

theorem Holds.empty_iff (h : Holds data rd wr q) (hw : n < 2 ^ w) : rd = wr ↔ q = [] := by
  rw [h.count]
  constructor
  · intro heq
    have hzero := ofNat_inj hw (j := 0) (Nat.zero_le n) h.length (i := rd) (by simpa using heq)
    exact List.length_eq_zero_iff.mp hzero.symm
  · rintro rfl
    simp

theorem Holds.full_iff (h : Holds data rd wr q) (hw : n < 2 ^ w) :
    wr = rd + BitVec.ofNat w n ↔ q.length = n := by
  rw [h.count]
  exact ⟨ofNat_inj hw h.length le_rfl, fun heq => by rw [heq]⟩

theorem Holds.sub_eq (h : Holds data rd wr q) (hw : n < 2 ^ w) : (wr - rd).toNat = q.length := by
  have hlen := h.length
  rw [h.count, BitVec.add_comm, BitVec.add_sub_cancel, BitVec.toNat_ofNat, Nat.mod_eq_of_lt (by omega)]

/-- Where the counter wraps makes no difference to the cell. -/
theorem cell_add (hdvd : n ∣ 2 ^ w) (i : BitVec w) (k : Nat) :
    (cell n (i + BitVec.ofNat w k)).val = (i.toNat + k) % n := by
  simp only [cell, Fin.ofNat, BitVec.toNat_add, BitVec.toNat_ofNat, Nat.mod_mod_of_dvd _ hdvd]
  rw [Nat.add_mod, Nat.mod_mod_of_dvd _ hdvd, ← Nat.add_mod]

/-- The cells of a queue are different ones. -/
theorem cell_inj (hdvd : n ∣ 2 ^ w) {i : BitVec w} {j k : Nat} (hj : j < n) (hk : k < n)
    (h : cell n (i + BitVec.ofNat w j) = cell n (i + BitVec.ofNat w k)) : j = k := by
  have hval := congrArg Fin.val h
  rw [cell_add hdvd, cell_add hdvd] at hval
  have hmod : j ≡ k [MOD n] := Nat.ModEq.add_left_cancel' i.toNat hval
  exact Nat.ModEq.eq_of_lt_of_lt hmod hj hk

/-- Writing the next free cell does not touch the queue. -/
theorem Holds.store (h : Holds data rd wr q) (hdvd : n ∣ 2 ^ w) (hroom : q.length < n) (a : α) :
    Holds (Function.update data (cell n wr) a) rd wr q where
  length := h.length
  count := h.count
  get k hk := by
    have hne : cell n (rd + BitVec.ofNat w k) ≠ cell n wr := by
      rw [h.count]
      exact fun heq => absurd (cell_inj hdvd (by omega) hroom heq) (by omega)
    rw [Function.update_of_ne hne, h.get k hk]

/-- Counting up makes the next cell part of the queue. -/
theorem Holds.advance (h : Holds data rd wr q) (hroom : q.length < n) :
    Holds data rd (wr + 1) (q ++ [data (cell n wr)]) where
  length := by rw [List.length_append]; exact hroom
  count := by rw [List.length_append, List.length_singleton, add_ofNat_succ, ← h.count]
  get k hk := by
    rw [List.length_append, List.length_singleton] at hk
    by_cases hlast : k = q.length
    · subst hlast
      rw [← h.count]
      simp
    · have hlt : k < q.length := by omega
      rw [h.get k hlt, List.getElem_append_left hlt]

theorem Holds.push (h : Holds data rd wr q) (hdvd : n ∣ 2 ^ w) (hroom : q.length < n) (a : α) :
    Holds (Function.update data (cell n wr) a) rd (wr + 1) (q ++ [a]) := by
  have hpush := (h.store hdvd hroom a).advance hroom
  rwa [Function.update_self] at hpush

theorem Holds.head {a : α} (h : Holds data rd wr (a :: q)) : data (cell n rd) = a := by
  have hget := h.get 0 (by simp)
  rw [BitVec.add_zero] at hget
  exact hget

theorem Holds.pop {a : α} (h : Holds data rd wr (a :: q)) : Holds data (rd + 1) wr q where
  length := Nat.le_of_succ_le (by simpa using h.length)
  count := by rw [h.count, List.length_cons, add_ofNat_succ, BitVec.add_assoc, BitVec.add_assoc,
    BitVec.add_comm 1]
  get k hk := by
    have hget := h.get (k + 1) (by simpa using hk)
    rw [add_ofNat_succ, BitVec.add_assoc, BitVec.add_comm _ 1, ← BitVec.add_assoc] at hget
    exact hget

/-- Counting down takes the newest element back. -/
theorem Holds.unpush {a : α} (h : Holds data rd wr (q ++ [a])) :
    Holds data rd (wr - 1) q ∧ data (cell n (wr - 1)) = a := by
  have hlen := h.length
  have hcount : wr - 1 = rd + BitVec.ofNat w q.length := by
    rw [h.count, List.length_append, List.length_singleton, add_ofNat_succ, BitVec.add_sub_cancel]
  rw [List.length_append, List.length_singleton] at hlen
  refine ⟨⟨by omega, hcount, fun k hk => ?_⟩, ?_⟩
  · rw [h.get k (by rw [List.length_append]; omega), List.getElem_append_left hk]
  · rw [hcount, h.get q.length (by simp), List.getElem_append_right (Nat.le_refl _)]
    simp

end Xv6.Library.Fifo
