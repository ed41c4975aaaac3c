import Mathlib.Algebra.BigOperators.Fin
import Mathlib.Algebra.Order.BigOperators.Group.Finset

/-!
# Labelled transition systems

Runs, the induction rule for invariants, and the rule that carries a run of one
system to a run of another along a simulation. The rules ask for the facts about
one step only. The last section counts over a table of processes of which one
entry changes.
-/
namespace Xv6.Library.Transition

variable {σ τ ℓ : Type}

/-- The labels of a run, oldest first, and the state it ends in. -/
inductive Run (step : σ → ℓ → σ → Prop) (s₀ : σ) : List ℓ → σ → Prop
  | nil : Run step s₀ [] s₀
  | snoc {tr : List ℓ} {s s' : σ} {l : ℓ} :
      Run step s₀ tr s → step s l s' → Run step s₀ (tr ++ [l]) s'

variable {step : σ → ℓ → σ → Prop} {step' : τ → ℓ → τ → Prop} {s₀ : σ} {t₀ : τ}

/-- A run may also be taken apart at its first step. -/
theorem Run.cons {s₁ : σ} {l : ℓ} (first : step s₀ l s₁) {tr : List ℓ} {s : σ}
    (h : Run step s₁ tr s) : Run step s₀ (l :: tr) s := by
  induction h with
  | nil => exact Run.nil.snoc first
  | snoc _ hs ih => exact ih.snoc hs

theorem Run.append {tr tr' : List ℓ} {s s' : σ} (h : Run step s₀ tr s) (h' : Run step s tr' s') :
    Run step s₀ (tr ++ tr') s' := by
  induction h' with
  | nil => rwa [List.append_nil]
  | snoc _ hs ih =>
    rw [← List.append_assoc]
    exact ih.snoc hs

theorem Run.of_nil {s : σ} (h : Run step s₀ [] s) : s = s₀ := by
  generalize hnil : ([] : List ℓ) = tr at h
  cases h with
  | nil => rfl
  | snoc => simp at hnil

theorem Run.of_append {tr tr' : List ℓ} {s : σ} (h : Run step s₀ (tr ++ tr') s) :
    ∃ s₁, Run step s₀ tr s₁ ∧ Run step s₁ tr' s := by
  induction tr' using List.reverseRecOn generalizing s with
  | nil =>
    rw [List.append_nil] at h
    exact ⟨s, h, .nil⟩
  | append_singleton tr' l ih =>
    rw [← List.append_assoc] at h
    generalize hall : tr ++ tr' ++ [l] = all at h
    cases h with
    | nil => simp at hall
    | snoc hrun hs =>
      obtain ⟨rfl, hl⟩ := List.append_inj' hall rfl
      cases hl
      obtain ⟨s₁, h₁, h₂⟩ := ih hrun
      exact ⟨s₁, h₁, h₂.snoc hs⟩

theorem Run.of_cons {tr : List ℓ} {l : ℓ} {s : σ} (h : Run step s₀ (l :: tr) s) :
    ∃ s₁, step s₀ l s₁ ∧ Run step s₁ tr s := by
  obtain ⟨s₁, h₁, h₂⟩ := (show Run step s₀ ([l] ++ tr) s from h).of_append
  generalize hone : [l] = one at h₁
  cases h₁ with
  | nil => exact nomatch hone
  | @snoc tr' s' _ l' hrun hs =>
    obtain ⟨hnil, hl⟩ := List.append_inj' (show [] ++ [l] = tr' ++ [l'] from hone) rfl
    cases hl
    subst hnil
    cases hrun.of_nil
    exact ⟨s₁, hs, h₂⟩

theorem Run.mono {step' : σ → ℓ → σ → Prop} (hstep : ∀ s l s', step s l s' → step' s l s')
    {tr : List ℓ} {s : σ} (h : Run step s₀ tr s) : Run step' s₀ tr s := by
  induction h with
  | nil => exact .nil
  | snoc _ hs ih => exact ih.snoc (hstep _ _ _ hs)

theorem Run.invariant {I : σ → Prop} (init : I s₀)
    (next : ∀ s l s', I s → step s l s' → I s') {tr : List ℓ} {s : σ}
    (h : Run step s₀ tr s) : I s := by
  induction h with
  | nil => exact init
  | snoc _ hs ih => exact next _ _ _ ih hs

/-- The invariant rule for a run with labels of one kind only. -/
theorem Run.segment {I : σ → Prop} {ok : ℓ → Prop} (init : I s₀)
    (next : ∀ s l s', ok l → I s → step s l s' → I s') {tr : List ℓ} {s : σ} (h : Run step s₀ tr s)
    (admitted : ∀ l ∈ tr, ok l) : I s := by
  induction h with
  | nil => exact init
  | snoc _ hs ih =>
    exact next _ _ _ (admitted _ (by simp)) (ih fun l hl => admitted l (List.mem_append_left _ hl)) hs

/-- A run of the first system is matched, label by label, by a run of the second. -/
theorem Run.simulation {R : σ → τ → Prop} (init : R s₀ t₀)
    (next : ∀ s t l s', R s t → step s l s' → ∃ t', step' t l t' ∧ R s' t')
    {tr : List ℓ} {s : σ} (h : Run step s₀ tr s) : ∃ t, Run step' t₀ tr t ∧ R s t := by
  induction h with
  | nil => exact ⟨t₀, .nil, init⟩
  | snoc _ hs ih =>
    obtain ⟨t, ht, hR⟩ := ih
    obtain ⟨t', ht', hR'⟩ := next _ _ _ _ hR hs
    exact ⟨t', ht.snoc ht', hR'⟩

/-- The invariant rule for a run with what its labels have recorded. -/
theorem Run.record {β : Type} {I : σ → β → Prop} {upd : β → ℓ → β} {b₀ : β} (init : I s₀ b₀)
    (next : ∀ s b l s', I s b → step s l s' → I s' (upd b l)) {tr : List ℓ} {s : σ}
    (h : Run step s₀ tr s) : I s (tr.foldl upd b₀) := by
  induction h with
  | nil => exact init
  | snoc _ hs ih =>
    rw [List.foldl_append]
    exact next _ _ _ _ ih hs

section epochs
variable {η : Type} {reset : σ → σ} {reset' : τ → τ} {ok : ℓ → Prop} {upd : η → ℓ → η}
  {lose : η → η} {h₀ : η}

/-- Runs with failures: a failure resets the state at any point of the run and
loses part of what the run has recorded. Steps are those with an admitted label. -/
inductive Epochs (step : σ → ℓ → σ → Prop) (reset : σ → σ) (ok : ℓ → Prop) (upd : η → ℓ → η)
    (lose : η → η) (s₀ : σ) (h₀ : η) : σ → η → Prop
  | start : Epochs step reset ok upd lose s₀ h₀ s₀ h₀
  | step {s s' : σ} {h : η} {l : ℓ} : Epochs step reset ok upd lose s₀ h₀ s h → step s l s' →
      ok l → Epochs step reset ok upd lose s₀ h₀ s' (upd h l)
  | fail {s : σ} {h : η} : Epochs step reset ok upd lose s₀ h₀ s h →
      Epochs step reset ok upd lose s₀ h₀ (reset s) (lose h)

theorem Epochs.invariant {I : σ → η → Prop} (init : I s₀ h₀)
    (next : ∀ s h l s', I s h → step s l s' → ok l → I s' (upd h l))
    (crash : ∀ s h, I s h → I (reset s) (lose h)) {s : σ} {h : η}
    (run : Epochs step reset ok upd lose s₀ h₀ s h) : I s h := by
  induction run with
  | start => exact init
  | step _ hs hl ih => exact next _ _ _ _ ih hs hl
  | fail _ ih => exact crash _ _ ih

/-- Between two failures an ordinary run goes on. -/
theorem Epochs.run {s t : σ} {h : η} {tr : List ℓ}
    (before : Epochs step reset ok upd lose s₀ h₀ s h) (run : Run step s tr t)
    (admitted : ∀ l ∈ tr, ok l) : Epochs step reset ok upd lose s₀ h₀ t (tr.foldl upd h) := by
  induction run with
  | nil => exact before
  | snoc _ hs ih =>
    rw [List.foldl_append]
    exact (ih fun l hl => admitted l (List.mem_append_left _ hl)).step hs (admitted _ (by simp))

theorem Epochs.simulation {R : σ → τ → Prop} (init : R s₀ t₀)
    (next : ∀ s t l s', R s t → step s l s' → ∃ t', step' t l t' ∧ R s' t')
    (crash : ∀ s t, R s t → R (reset s) (reset' t)) {s : σ} {h : η}
    (run : Epochs step reset ok upd lose s₀ h₀ s h) :
    ∃ t, Epochs step' reset' ok upd lose t₀ h₀ t h ∧ R s t := by
  induction run with
  | start => exact ⟨t₀, .start, init⟩
  | step _ hs hl ih =>
    obtain ⟨t, ht, hR⟩ := ih
    obtain ⟨t', ht', hR'⟩ := next _ _ _ _ hR hs
    exact ⟨t', ht.step ht' hl, hR'⟩
  | fail _ ih =>
    obtain ⟨t, ht, hR⟩ := ih
    exact ⟨reset' t, ht.fail, crash _ _ hR⟩

end epochs

section count
variable {n : Nat}

/-- Only entry `p` of a table changes its share of a sum. -/
theorem sum_change (f f' : Fin n → Nat) (p : Fin n) (h : ∀ q, q ≠ p → f' q = f q) :
    ∑ q, f' q + f p = ∑ q, f q + f' p := by
  rw [← Finset.add_sum_erase _ f (Finset.mem_univ p), ← Finset.add_sum_erase _ f' (Finset.mem_univ p)]
  have hs : ∑ q ∈ Finset.univ.erase p, f' q = ∑ q ∈ Finset.univ.erase p, f q := by
    apply Finset.sum_congr rfl
    intro q hq
    exact h q (Finset.ne_of_mem_erase hq)
  omega

theorem le_sum (f : Fin n → Nat) (p : Fin n) : f p ≤ ∑ q, f q :=
  Finset.single_le_sum (fun _ _ => Nat.zero_le _) (Finset.mem_univ p)

end count

end Xv6.Library.Transition
