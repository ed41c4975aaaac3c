import Xv6.Ptable.Holders

/-!
# Parents and children

The parent of a process is alive. The process that `fork` makes belongs to it until it is
runnable. While a thread holds `wait_lock` no other thread links a process to a parent, exits
or goes to sleep in `wait`, so that what it has found out stays true; when it gives the lock
back, no process sleeps in `wait` while it has a zombie child.
-/
namespace Xv6.Ptable

open Xv6.Library Xv6.Source.Ptable

variable {Cpu : Type} {s s' : State Cpu} {g g' : Ghost Cpu} {t : Thread Cpu} {ℓ ℓ' : Local}

def Alive (st : ProcState) : Prop := st = .runnable ∨ st = .running ∨ st = .sleeping

structure Parents (s : State Cpu) : Prop where
  alive : ∀ p q, s.parent p = some q → Alive (s.state q)
  init : Alive (s.state init)

structure Children (s : State Cpu) (g : Ghost Cpu) : Prop where
  used : ∀ t p b, (g t).child = some (p, b) → s.state p = .used ∧ (s.parent p).isSome = b
  unique : ∀ t t' p b b', (g t).child = some (p, b) → (g t').child = some (p, b') → t = t'

/-- What a thread that holds `wait_lock` knows. -/
structure Knows (s : State Cpu) (g : Ghost Cpu) (t : Thread Cpu) (ℓ : Local) : Prop where
  parent : ∀ me q, self t = some me → ℓ.parent = some q → s.parent me = q
  kid : ∀ me p, self t = some me → ℓ.kid = some p → s.parent p = some me
  awake : ∀ q, ℓ.awake = some q → ¬ Pending s g q (.proc q)
  wake : ∀ q ps, ℓ.wake = some (.proc q, ps) → q ∈ ps → ¬ Pending s g q (.proc q)
  seen : ∀ me p, self t = some me → p ∈ ℓ.seen → s.parent p = some me → s.state p ≠ .zombie
  cleared : ∀ me p, self t = some me → p ∈ ℓ.cleared → s.parent p ≠ some me

structure Waiting (s : State Cpu) (g : Ghost Cpu) : Prop where
  knows : ∀ t, .wait ∈ (g t).locks → Knows s g t (g t)
  /-- Only init can sleep although it has a zombie child, while it is about to be woken. -/
  asleep : ∀ p q, s.parent p = some q → s.state p = .zombie → Pending s g q (.proc q) →
    q = init ∧ ∃ t, .wait ∈ (g t).locks ∧ (g t).debt = true

theorem Parents.keep (h : Parents s) (hparent : ∀ p q, s'.parent p = some q → s.parent p = some q)
    (halive : ∀ p, Alive (s.state p) → Alive (s'.state p)) : Parents s' :=
  ⟨fun p q hpq => halive q (h.alive p q (hparent p q hpq)), halive _ h.init⟩

theorem Children.keep (h : Children s g) (hchild : ∀ t, (g' t).child = (g t).child)
    (hused : ∀ t p b, (g t).child = some (p, b) → s'.state p = .used ∧
      (s'.parent p).isSome = (s.parent p).isSome) : Children s' g' := by
  refine ⟨fun t p b hc => ?_, fun t t' p b b' hc hc' => ?_⟩
  · rw [hchild] at hc
    obtain ⟨hu, hl⟩ := hused t p b hc
    exact ⟨hu, hl.trans (h.used t p b hc).2⟩
  · rw [hchild] at hc hc'
    exact h.unique t t' p b b' hc hc'

/-- The facts that hold while no process exits, goes to sleep in `wait` or changes its parent. -/
structure Settled (s : State Cpu) (g : Ghost Cpu) (s' : State Cpu) (g' : Ghost Cpu) : Prop where
  parent : s'.parent = s.parent
  zombie : ∀ p, s'.state p = .zombie → s.state p = .zombie
  pending : ∀ p, Pending s' g' p (.proc p) → Pending s g p (.proc p)

theorem Knows.keep (h : Knows s g t ℓ) (hs : Settled s g s' g') (hparent : ℓ'.parent = ℓ.parent)
    (hkid : ℓ'.kid = ℓ.kid) (hawake : ℓ'.awake = ℓ.awake) (hwake : ℓ'.wake = ℓ.wake) (hseen : ℓ'.seen = ℓ.seen)
    (hcleared : ℓ'.cleared = ℓ.cleared) : Knows s' g' t ℓ' := by
  refine ⟨?_, ?_, ?_, ?_, ?_, ?_⟩
  · rw [hparent, hs.parent]
    exact h.parent
  · rw [hkid, hs.parent]
    exact h.kid
  · rw [hawake]
    exact fun q hq hp => h.awake q hq (hs.pending q hp)
  · rw [hwake]
    exact fun q ps hq hmem hp => h.wake q ps hq hmem (hs.pending q hp)
  · rw [hseen, hs.parent]
    exact fun me p hme hmem hp hz => h.seen me p hme hmem hp (hs.zombie p hz)
  · rw [hcleared, hs.parent]
    exact h.cleared

variable [DecidableEq Cpu]

/-- The thread changes its child. -/
theorem Children.set (h : Children s g)
    (hothers : ∀ t' p b, t' ≠ t → (g t').child = some (p, b) → s'.state p = .used ∧
      (s'.parent p).isSome = (s.parent p).isSome)
    (hown : ∀ p b, ℓ.child = some (p, b) → s'.state p = .used ∧ (s'.parent p).isSome = b ∧ ∀ t' b', t' ≠ t → (g t').child ≠ some (p, b')) :
    Children s' (Function.update g t ℓ) := by
  refine ⟨fun t₁ p b hc => ?_, fun t₁ t₂ p b b' hc hc' => ?_⟩
  · by_cases ht : t₁ = t
    · subst ht
      rw [Function.update_self] at hc
      obtain ⟨hu, hl, -⟩ := hown p b hc
      exact ⟨hu, hl⟩
    · rw [Function.update_of_ne ht] at hc
      obtain ⟨hu, hl⟩ := hothers t₁ p b ht hc
      exact ⟨hu, hl.trans (h.used t₁ p b hc).2⟩
  · by_cases ht₁ : t₁ = t
    · subst ht₁
      by_cases ht₂ : t₂ = t₁
      · exact ht₂.symm
      · rw [Function.update_self] at hc
        rw [Function.update_of_ne ht₂] at hc'
        exact absurd hc' ((hown p b hc).2.2 t₂ b' ht₂)
    · rw [Function.update_of_ne ht₁] at hc
      by_cases ht₂ : t₂ = t
      · subst ht₂
        rw [Function.update_self] at hc'
        exact absurd hc ((hown p b' hc').2.2 t₁ b ht₁)
      · rw [Function.update_of_ne ht₂] at hc'
        exact h.unique t₁ t₂ p b b' hc hc'

/-- A step while no process exits, goes to sleep in `wait` or changes its parent. -/
theorem Waiting.keep (h : Waiting s g) (hs : Settled s g s' (Function.update g t ℓ))
    (hwait : .wait ∈ ℓ.locks → .wait ∈ (g t).locks)
    (hknows : .wait ∈ ℓ.locks → Knows s g t (g t) → Knows s' (Function.update g t ℓ) t ℓ)
    (hdebt : .wait ∈ (g t).locks → (g t).debt = true → .wait ∈ ℓ.locks ∧ ℓ.debt = true) :
    Waiting s' (Function.update g t ℓ) := by
  refine ⟨fun t' hw => ?_, fun p q hpq hz hp => ?_⟩
  · by_cases ht : t' = t
    · subst ht
      rw [Function.update_self] at hw ⊢
      exact hknows hw (h.knows t' (hwait hw))
    · rw [Function.update_of_ne ht] at hw ⊢
      exact (h.knows t' hw).keep hs rfl rfl rfl rfl rfl rfl
  · rw [hs.parent] at hpq
    obtain ⟨hq, t', hw, hd⟩ := h.asleep p q hpq (hs.zombie p hz) (hs.pending q hp)
    refine ⟨hq, t', ?_⟩
    by_cases ht : t' = t
    · subst ht
      rw [Function.update_self]
      exact hdebt hw hd
    · rw [Function.update_of_ne ht]
      exact ⟨hw, hd⟩

theorem Waiting.acquire (h : Waiting s g) (hs : Settled s g s' (Function.update g t ℓ))
    (hnot : .wait ∉ (g t).locks) (hparent : ℓ.parent = none) (hkid : ℓ.kid = none) (hawake : ℓ.awake = none)
    (hwake : ℓ.wake = none) (hseen : ℓ.seen = []) (hcleared : ℓ.cleared = []) :
    Waiting s' (Function.update g t ℓ) := by
  refine ⟨fun t' hw => ?_, fun p q hpq hz hp => ?_⟩
  · by_cases ht : t' = t
    · subst ht
      rw [Function.update_self]
      refine ⟨?_, ?_, ?_, ?_, ?_, ?_⟩
      · simp [hparent]
      · simp [hkid]
      · simp [hawake]
      · simp [hwake]
      · simp [hseen]
      · simp [hcleared]
    · rw [Function.update_of_ne ht] at hw ⊢
      exact (h.knows t' hw).keep hs rfl rfl rfl rfl rfl rfl
  · rw [hs.parent] at hpq
    obtain ⟨hq, t', hw, hd⟩ := h.asleep p q hpq (hs.zombie p hz) (hs.pending q hp)
    have ht : t' ≠ t := by
      rintro rfl
      exact hnot hw
    exact ⟨hq, t', by rw [Function.update_of_ne ht]; exact ⟨hw, hd⟩⟩

section holder
variable {strict : Prop} {me : Slot} (hcore : Core strict s g) (hwait : .wait ∈ (g t).locks)
include hcore hwait

/-- With `wait_lock` held, what counts is what its holder knows. -/
theorem Waiting.of_holder
    (hknows : .wait ∈ ℓ.locks → Knows s' (Function.update g t ℓ) t ℓ)
    (hasleep : ∀ p q, s'.parent p = some q → s'.state p = .zombie →
      Pending s' (Function.update g t ℓ) q (.proc q) → q = init ∧ .wait ∈ ℓ.locks ∧ ℓ.debt = true) :
    Waiting s' (Function.update g t ℓ) := by
  refine ⟨fun t' hw => ?_, fun p q hpq hz hp => ?_⟩
  · by_cases ht : t' = t
    · subst ht
      rw [Function.update_self] at hw ⊢
      exact hknows hw
    · rw [Function.update_of_ne ht] at hw
      exact absurd (hcore.wait_exclusive hw hwait) ht
  · obtain ⟨hq, hd⟩ := hasleep p q hpq hz hp
    exact ⟨hq, t, by rwa [Function.update_self]⟩

omit [DecidableEq Cpu] in
/-- A debt is the holder's. -/
theorem Waiting.holder_debt (h : Waiting s g) {p q : Slot} (hpq : s.parent p = some q)
    (hz : s.state p = .zombie) (hp : Pending s g q (.proc q)) : q = init ∧ (g t).debt = true := by
  obtain ⟨hq, t', hw, hd⟩ := h.asleep p q hpq hz hp
  rw [hcore.wait_exclusive hw hwait] at hd
  exact ⟨hq, hd⟩

/-- A process exits after it has woken its parent. -/
theorem Waiting.exit (h : Waiting s g) (hself : self t = some me) (hparent : s'.parent = s.parent)
    (hstate : ∀ p, p ≠ me → s'.state p = s.state p)
    (hpending : ∀ p, Pending s' (Function.update g t ℓ) p (.proc p) → Pending s g p (.proc p))
    (hknown : (g t).parent ≠ none) (hawake : ∀ q, (g t).parent = some (some q) → (g t).awake = some q)
    (hseen : (g t).seen = []) (hwork : ∃ w, ℓ = { g t with work := w }) :
    Waiting s' (Function.update g t ℓ) := by
  have hk := h.knows t hwait
  obtain ⟨w, rfl⟩ := hwork
  refine Waiting.of_holder hcore hwait (fun _ => ⟨?_, ?_, ?_, ?_, ?_, ?_⟩) fun p q hpq hz hp => ?_
  · rw [hparent]
    exact hk.parent
  · rw [hparent]
    exact hk.kid
  · exact fun q hq hp => hk.awake q hq (hpending q hp)
  · exact fun q ps hq hmem hp => hk.wake q ps hq hmem (hpending q hp)
  · simp [hseen]
  · rw [hparent]
    exact hk.cleared
  · rw [hparent] at hpq
    by_cases hpm : p = me
    · subst hpm
      obtain ⟨o, ho⟩ := Option.ne_none_iff_exists'.1 hknown
      have hx := hk.parent p o hself ho
      rw [hpq] at hx
      subst hx
      exact absurd (hpending q hp) (hk.awake q (hawake q ho))
    · rw [hstate p hpm] at hz
      obtain ⟨hq, hd⟩ := h.holder_debt hcore hwait hpq hz (hpending q hp)
      exact ⟨hq, hwait, hd⟩

/-- A child of a process that exits goes to init, which has to be woken. -/
theorem Waiting.adopt (h : Waiting s g) (hself : self t = some me) (hme : me ≠ init) {p : Slot}
    (hnone : (g t).parent = none) (hseen : (g t).seen = []) :
    Waiting { s with parent := Function.update s.parent p (some init) }
      (Function.update g t { g t with debt := true, kid := none, cleared := p :: (g t).cleared }) := by
  have hk := h.knows t hwait
  have hpending : ∀ q, Pending { s with parent := Function.update s.parent p (some init) }
      (Function.update g t { g t with debt := true, kid := none, cleared := p :: (g t).cleared }) q (.proc q) →
      Pending s g q (.proc q) := fun q hq => hq.of_same rfl rfl rfl
  refine Waiting.of_holder hcore hwait (fun _ => ⟨?_, ?_, ?_, ?_, ?_, ?_⟩) fun p' q hpq hz hp => ?_
  · simp [hnone]
  · nofun
  · exact fun q hq hp => hk.awake q hq (hpending q hp)
  · exact fun q ps hq hmem hp => hk.wake q ps hq hmem (hpending q hp)
  · simp [hseen]
  · intro me' p' hself' hmem
    rw [hself] at hself'
    cases hself'
    dsimp only
    by_cases hp' : p' = p
    · subst hp'
      simp [Ne.symm hme]
    · rw [Function.update_of_ne hp']
      exact hk.cleared me p' hself ((List.mem_cons.1 hmem).resolve_left hp')
  · refine ⟨?_, hwait, rfl⟩
    dsimp only at hpq hz
    by_cases hp' : p' = p
    · subst hp'
      simpa [eq_comm] using hpq
    · rw [Function.update_of_ne hp'] at hpq
      exact (h.asleep p' q hpq hz (hpending q hp)).1

/-- `fork` gives the new process its parent. -/
theorem Waiting.link (h : Waiting s g) {p : Slot} (hused : s.state p = .used) {q : Option Slot}
    (hnone : (g t).parent = none) (hkid : (g t).kid = none) (hseen : (g t).seen = []) (hcleared : (g t).cleared = [])
    {child : Option (Slot × Bool)} : Waiting { s with parent := Function.update s.parent p q }
      (Function.update g t { g t with child := child }) := by
  have hk := h.knows t hwait
  have hpending : ∀ q', Pending { s with parent := Function.update s.parent p q }
      (Function.update g t { g t with child := child }) q' (.proc q') → Pending s g q' (.proc q') :=
    fun q' hq => hq.of_same rfl rfl rfl
  refine Waiting.of_holder hcore hwait (fun _ => ⟨?_, ?_, ?_, ?_, ?_, ?_⟩) fun p' q' hpq hz hp => ?_
  · simp [hnone]
  · simp [hkid]
  · exact fun q hq hp => hk.awake q hq (hpending q hp)
  · exact fun q ps hq hmem hp => hk.wake q ps hq hmem (hpending q hp)
  · simp [hseen]
  · simp [hcleared]
  · have hne : p' ≠ p := by
      rintro rfl
      rw [show s.state p' = .zombie from hz] at hused
      exact nomatch hused
    dsimp only at hpq
    rw [Function.update_of_ne hne] at hpq
    obtain ⟨hq, hd⟩ := h.holder_debt hcore hwait hpq hz (hpending q' hp)
    exact ⟨hq, hwait, hd⟩

/-- A process goes to sleep in `wait` after it has seen that it has no zombie child. -/
theorem Waiting.sleep (h : Waiting s g) (hself : self t = some me) (hparent : s'.parent = s.parent)
    (hstate : s'.state = s.state) (hrelease : .wait ∉ ℓ.locks) (hdebt : (g t).debt = false)
    (hpending : ∀ p, p ≠ me → Pending s' (Function.update g t ℓ) p (.proc p) → Pending s g p (.proc p))
    (hseen : ∀ p, p ∈ (g t).seen) : Waiting s' (Function.update g t ℓ) := by
  refine Waiting.of_holder hcore hwait (fun hx => absurd hx hrelease) fun p q hpq hz hp => ?_
  rw [hparent] at hpq
  rw [hstate] at hz
  by_cases hq : q = me
  · subst hq
    exact absurd hz ((h.knows t hwait).seen q p hself (hseen p) hpq)
  · obtain ⟨-, hd⟩ := h.holder_debt hcore hwait hpq hz (hpending q hq hp)
    rw [hdebt] at hd
    exact nomatch hd

end holder

/-- `freeproc` removes the parent of an entry that no process uses. -/
theorem Waiting.unlink {strict : Prop} (h : Waiting s g) (hcore : Core strict s g) {q : Slot}
    (hloc : s.loc q = none) (hheld : s.parent q ≠ none → .wait ∈ (g t).locks)
    (hkid : (g t).kid = none) (hparent : s'.parent = Function.update s.parent q none)
    (hstate : s'.state = s.state)
    (hpending : ∀ p, Pending s' (Function.update g t ℓ) p (.proc p) → Pending s g p (.proc p))
    (hwork : ∃ w, ℓ = { g t with work := w }) : Waiting s' (Function.update g t ℓ) := by
  obtain ⟨w, rfl⟩ := hwork
  have hless : ∀ p r, s'.parent p = some r → s.parent p = some r := by
    intro p r hp
    rw [hparent] at hp
    by_cases hpq : p = q
    · subst hpq
      simp at hp
    · rwa [Function.update_of_ne hpq] at hp
  have hstep : ∀ t', .wait ∈ (g t').locks → ∀ ℓ' : Local, ℓ'.parent = (g t').parent →
      ℓ'.kid = (g t').kid → ℓ'.awake = (g t').awake → ℓ'.wake = (g t').wake → ℓ'.seen = (g t').seen →
      ℓ'.cleared = (g t').cleared → Knows s' (Function.update g t { g t with work := w }) t' ℓ' := by
    intro t' hw ℓ' h₁ h₀ h₂ h₃ h₄ h₅
    have hk := h.knows t' hw
    obtain ⟨c, hm⟩ := hcore.moves_of_lock hw nofun
    refine ⟨?_, ?_, ?_, ?_, ?_, ?_⟩
    · intro me o hself ho
      have hne : me ≠ q := by
        rintro rfl
        rw [(self_top hself hm.hart).1] at hloc
        exact nomatch hloc
      rw [hparent, Function.update_of_ne hne]
      exact hk.parent me o hself (h₁ ▸ ho)
    · intro me p hself hp
      rw [h₀] at hp
      have hpm := hk.kid me p hself hp
      have hne : p ≠ q := by
        rintro rfl
        have ht := hcore.wait_exclusive hw (hheld (by rw [hpm]; nofun))
        rw [ht, hkid] at hp
        exact nomatch hp
      rw [hparent, Function.update_of_ne hne]
      exact hpm
    · exact fun r hr hp => hk.awake r (h₂ ▸ hr) (hpending r hp)
    · exact fun r ps hr hmem hp => hk.wake r ps (h₃ ▸ hr) hmem (hpending r hp)
    · intro me p hself hmem hp hz
      rw [hstate] at hz
      exact hk.seen me p hself (h₄ ▸ hmem) (hless p me hp) hz
    · exact fun me p hself hmem hp => hk.cleared me p hself (h₅ ▸ hmem) (hless p me hp)
  refine ⟨fun t' hw => ?_, fun p r hpr hz hp => ?_⟩
  · by_cases ht : t' = t
    · subst ht
      rw [Function.update_self] at hw ⊢
      exact hstep t' hw _ rfl rfl rfl rfl rfl rfl
    · rw [Function.update_of_ne ht] at hw ⊢
      exact hstep t' hw _ rfl rfl rfl rfl rfl rfl
  · rw [hstate] at hz
    obtain ⟨hr, t', hw, hd⟩ := h.asleep p r (hless p r hpr) hz (hpending r hp)
    refine ⟨hr, t', ?_⟩
    by_cases ht : t' = t
    · subst ht
      rw [Function.update_self]
      exact ⟨hw, hd⟩
    · rw [Function.update_of_ne ht]
      exact ⟨hw, hd⟩

end Xv6.Ptable
