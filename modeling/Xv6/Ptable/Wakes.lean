import Xv6.Ptable.Family

/-!
# Wakeups

A process that sleeps on a channel, or is in `sleep` and will, has released its lock there
after every `wakeup` of the channel that is over began. A `wakeup` that is going on has the
same for the processes it has seen to. Only the process itself can begin to sleep, and it
counts the time.
-/
namespace Xv6.Ptable

open Xv6.Library Xv6.Source.Ptable

variable {Cpu : Type} {s s' : State Cpu} {g : Ghost Cpu} {t : Thread Cpu} {ℓ : Local}

structure Wakes (s : State Cpu) (g : Ghost Cpu) : Prop where
  begun : ∀ t p, s.begun t p ≤ s.sleeps p
  woken : ∀ p chan, s.woken p chan ≤ s.sleeps p
  outstanding : ∀ p chan, Pending s g p chan → s.woken p chan < s.sleeps p
  wake : ∀ t chan ps p, (g t).wake = some (chan, ps) → p ∈ ps → Pending s g p chan →
    s.begun t p < s.sleeps p

/-- What a step leaves alone that begins and ends no sleep and no wakeup. -/
structure Unwoken (s s' : State Cpu) : Prop where
  begun : s'.begun = s.begun
  woken : s'.woken = s.woken
  sleeps : s'.sleeps = s.sleeps

variable [DecidableEq Cpu]

/-- The thread may have seen to more processes. -/
theorem Wakes.keep (h : Wakes s g) (hu : Unwoken s s')
    (hpending : ∀ p chan, Pending s' (Function.update g t ℓ) p chan → Pending s g p chan)
    (hwake : ∀ chan ps p, ℓ.wake = some (chan, ps) → p ∈ ps →
      Pending s' (Function.update g t ℓ) p chan → s.begun t p < s.sleeps p) :
    Wakes s' (Function.update g t ℓ) := by
  refine ⟨?_, ?_, ?_, ?_⟩
  · rw [hu.begun, hu.sleeps]
    exact h.begun
  · rw [hu.woken, hu.sleeps]
    exact h.woken
  · rw [hu.woken, hu.sleeps]
    exact fun p chan hp => h.outstanding p chan (hpending p chan hp)
  · intro t' chan ps p hw hmem hp
    rw [hu.begun, hu.sleeps]
    by_cases ht : t' = t
    · subst ht
      rw [Function.update_self] at hw
      exact hwake chan ps p hw hmem hp
    · rw [Function.update_of_ne ht] at hw
      exact h.wake t' chan ps p hw hmem (hpending p chan hp)

/-- The wakeup goes on. -/
theorem Wakes.same (h : Wakes s g) (hu : Unwoken s s')
    (hpending : ∀ p chan, Pending s' (Function.update g t ℓ) p chan → Pending s g p chan)
    (hwake : ℓ.wake = (g t).wake) : Wakes s' (Function.update g t ℓ) :=
  h.keep hu hpending fun chan ps p hw hmem hp =>
    h.wake t chan ps p (hwake ▸ hw) hmem (hpending p chan hp)

/-- A process releases its lock in `sleep`. -/
theorem Wakes.sleep (h : Wakes s g) {me : Slot} (hbegun : s'.begun = s.begun) (hwoken : s'.woken = s.woken)
    (hsleeps : s'.sleeps = Function.update s.sleeps me (s.sleeps me + 1))
    (hpending : ∀ p chan, p ≠ me → Pending s' (Function.update g t ℓ) p chan → Pending s g p chan)
    (hwake : ℓ.wake = (g t).wake) : Wakes s' (Function.update g t ℓ) := by
  have hle : ∀ p, s.sleeps p ≤ s'.sleeps p := by
    intro p
    rw [hsleeps]
    by_cases hp : p = me
    · subst hp
      rw [Function.update_self]
      omega
    · rw [Function.update_of_ne hp]
  have hme : s'.sleeps me = s.sleeps me + 1 := by rw [hsleeps, Function.update_self]
  refine ⟨?_, ?_, ?_, ?_⟩
  · intro t' p
    rw [hbegun]
    exact (h.begun t' p).trans (hle p)
  · intro p chan
    rw [hwoken]
    exact (h.woken p chan).trans (hle p)
  · intro p chan hp
    rw [hwoken]
    by_cases hpm : p = me
    · subst hpm
      have := h.woken p chan
      omega
    · exact (h.outstanding p chan (hpending p chan hpm hp)).trans_le (hle p)
  · intro t' chan ps p hw hmem hp
    rw [hbegun]
    by_cases hpm : p = me
    · subst hpm
      have := h.begun t' p
      omega
    · refine (h.wake t' chan ps p ?_ hmem (hpending p chan hpm hp)).trans_le (hle p)
      by_cases ht : t' = t
      · subst ht
        rw [Function.update_self] at hw
        rw [← hwake, hw]
      · rwa [Function.update_of_ne ht] at hw

theorem Wakes.begin (h : Wakes s g) {chan : Chan} :
    Wakes { s with begun := Function.update s.begun t s.sleeps }
      (Function.update g t { g t with wake := some (chan, []) }) := by
  have hpending : ∀ p ch, Pending { s with begun := Function.update s.begun t s.sleeps }
      (Function.update g t { g t with wake := some (chan, []) }) p ch → Pending s g p ch :=
    fun p ch hp => hp.of_same rfl rfl rfl
  refine ⟨?_, h.woken, fun p ch hp => h.outstanding p ch (hpending p ch hp), ?_⟩
  · intro t' p
    by_cases ht : t' = t
    · subst ht
      simp
    · dsimp only
      rw [Function.update_of_ne ht]
      exact h.begun t' p
  · intro t' ch ps p hw hmem hp
    by_cases ht : t' = t
    · subst ht
      rw [Function.update_self] at hw
      cases hw
      exact nomatch hmem
    · dsimp only
      rw [Function.update_of_ne ht] at hw ⊢
      exact h.wake t' ch ps p hw hmem (hpending p ch hp)

/-- A wakeup is over when it has seen to every process that sleeps on the channel. -/
theorem Wakes.finish (h : Wakes s g) {chan : Chan} {ps : List Slot}
    (hwake : (g t).wake = some (chan, ps)) (hall : ∀ p, p ∉ ps → ¬ Pending s g p chan)
    (hwork : ℓ.work = (g t).work) (hnone : ℓ.wake = none) :
    Wakes { s with woken := fun p ch => if ch = chan then max (s.begun t p) (s.woken p ch) else s.woken p ch }
      (Function.update g t ℓ) := by
  have hpending : ∀ p ch, Pending { s with
        woken := fun p ch => if ch = chan then max (s.begun t p) (s.woken p ch) else s.woken p ch }
      (Function.update g t ℓ) p ch → Pending s g p ch :=
    fun p ch hp => hp.of_same rfl rfl hwork
  refine ⟨h.begun, ?_, ?_, ?_⟩
  · intro p ch
    have h₁ := h.begun t p
    have h₂ := h.woken p ch
    dsimp only
    split <;> omega
  · intro p ch hp
    have hp' := hpending p ch hp
    have h₂ := h.outstanding p ch hp'
    dsimp only
    split
    · rename_i hch
      subst hch
      by_cases hmem : p ∈ ps
      · have := h.wake t ch ps p hwake hmem hp'
        omega
      · exact absurd hp' (hall p hmem)
    · exact h₂
  · intro t' ch ps' p hw hmem hp
    by_cases ht : t' = t
    · subst ht
      rw [Function.update_self, hnone] at hw
      exact nomatch hw
    · rw [Function.update_of_ne ht] at hw
      exact h.wake t' ch ps' p hw hmem (hpending p ch hp)

end Xv6.Ptable
