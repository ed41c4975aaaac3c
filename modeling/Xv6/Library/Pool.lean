import Mathlib.Algebra.Order.Group.Multiset
import Mathlib.Algebra.BigOperators.Group.Finset.Basic

/-!
# Things that move between a pool and their owners

A state has a pool of free things, and cells of memory that lie inside things. A program that
takes from the pool, gives back and hands on what it owns keeps the balance of free and owned
things, and changes no cell that lies in none of them.
-/
namespace Xv6.Library

/-- What a pool is made of; `fixed` is the part of the state that never changes. -/
structure Pool (σ α κ β γ : Type) where
  free : σ → Multiset α
  cell : σ → κ → β
  inside : α → κ → Prop
  fixed : σ → γ

namespace Pool

variable {σ α κ β γ : Type} {P : Pool σ α κ β γ} {s s' s'' : σ} {a b c : Multiset α}

/-- From `s`, with `a` owned, to `s'`, with `b` owned. -/
structure Moves (P : Pool σ α κ β γ) (s : σ) (a : Multiset α) (s' : σ) (b : Multiset α) : Prop where
  balance : P.free s' + b = P.free s + a
  kept : ∀ k, (∀ x ∈ P.free s + a, ¬ P.inside x k) → P.cell s' k = P.cell s k
  fixed : P.fixed s' = P.fixed s

theorem Moves.refl (s : σ) (a : Multiset α) : P.Moves s a s a := ⟨rfl, fun _ _ => rfl, rfl⟩

theorem Moves.trans (h : P.Moves s a s' b) (h' : P.Moves s' b s'' c) : P.Moves s a s'' c where
  balance := h'.balance.trans h.balance
  kept k hk := (h'.kept k (by rwa [h.balance])).trans (h.kept k hk)
  fixed := h'.fixed.trans h.fixed

/-- What somebody else owns stays. -/
theorem Moves.frame (h : P.Moves s a s' b) (c : Multiset α) : P.Moves s (a + c) s' (b + c) where
  balance := by rw [← add_assoc, h.balance, add_assoc]
  kept k hk := h.kept k fun x hx => hk x (by rw [← add_assoc]; exact Multiset.mem_add.2 (.inl hx))
  fixed := h.fixed

theorem Moves.frame_left (h : P.Moves s a s' b) (c : Multiset α) : P.Moves s (c + a) s' (c + b) := by
  rw [add_comm c a, add_comm c b]
  exact h.frame c

/-- A part of what is owned comes back to where it was. -/
theorem Moves.congr {a' b' : Multiset α} (h : P.Moves s a s' b) (ha : a = a') (hb : b = b') : P.Moves s a' s' b' := by
  rw [← ha, ← hb]
  exact h

/-- What changes inside a part of what is owned. -/
theorem Moves.within {a : Multiset α} (h : P.Moves s a s' a) (hle : a ≤ b) : P.Moves s b s' b := by
  obtain ⟨c, rfl⟩ := Multiset.le_iff_exists_add.1 hle
  exact h.frame c

theorem Moves.mem_iff (h : P.Moves s a s' b) {x : α} : x ∈ P.free s' + b ↔ x ∈ P.free s + a := by
  rw [h.balance]

theorem Moves.card (h : P.Moves s a s' b) :
    (P.free s').card + b.card = (P.free s).card + a.card := by
  rw [← Multiset.card_add, ← Multiset.card_add, h.balance]

/-- Nothing gained means nothing lost. -/
theorem Moves.free_eq (h : P.Moves s a s' a) : P.free s' = P.free s := add_right_cancel h.balance

end Pool

end Xv6.Library
