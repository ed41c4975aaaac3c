import Xv6.Ptable.Switch

/-!
# Who holds what

A thread that does not move holds nothing but what it has written down at `swtch`. So a lock
that a thread has beside that is held by the CPU it moves on, and by no other thread. A
process that is loaded and does not hold its own lock is running.
-/
namespace Xv6.Ptable

open Xv6.Library Xv6.Source.Ptable

variable {Cpu : Type} {strict : Prop} {s : State Cpu} {g : Ghost Cpu} {t t' : Thread Cpu} {c c' : Cpu}
  {p : Slot} {st : Stage}

theorem View.Rest.parked {v : View Cpu} (h : v.Rest strict p) (hloc : v.loc = none) :
    v.Resumable p ∨ v.Vacant := by
  simp only [View.Rest] at h
  cases hst : v.state <;> rw [hst] at h
  case unused => exact .inr h.1
  case used => exact .inr h.1.1
  case runnable => exact h.1.imp_right And.left
  case sleeping => exact .inl h.1
  case running =>
    obtain ⟨⟨c, hc, -⟩, -⟩ := h
    rw [hloc] at hc
    cases hc
  case zombie => exact .inr h.1

/-- An entry that is loaded nowhere has a process that will go on, or none. -/
theorem View.Shape.parked {v : View Cpu} (h : v.Shape strict p c st) (hloc : v.loc = none) :
    v.Resumable p ∨ v.Vacant := by
  have hloaded : ¬ v.Loaded c := by
    intro hx
    rw [hx.1] at hloc
    exact nomatch hloc
  cases st with
  | held => exact View.Rest.parked h hloc
  | named pid => exact h.1.parked hloc
  | chose => exact h.2.parked hloc
  | set => exact h.2.1.imp_right And.left
  | armed => exact h.2.1.imp_right And.left
  | back => exact h.2.parked hloc
  | mine => exact absurd h.2.1 hloaded
  | bound chan stored => exact absurd h.1.2.1 hloaded
  | dying status => exact absurd h.1.2.1 hloaded
  | leaving st => exact absurd h.1 hloaded
  | free => exact h.2.parked hloc
  | numbered => exact .inr h.2.1
  | new => exact .inr h.2.1
  | dead pid status => exact h.2.1.parked hloc
  | kept => exact .inr h.2.1.1
  | freeing st n => exact .inr h.2.2.1

theorem Core.parked (h : Core strict s g) (hloc : s.loc p = none) :
    (view s g p).Resumable p ∨ (view s g p).Vacant := by
  have hentry := h.entry p
  simp only [Entry] at hentry
  split at hentry
  · exact hentry.parked hloc
  · obtain ⟨st, -, hshape⟩ := hentry
    exact hshape.parked hloc

/-- What the threads of an unloaded process hold. -/
theorem Core.parked_hold (h : Core strict s g) (hloc : s.loc p = none) :
    ((g (.proc p)).toHold = {} ∨ (g (.proc p)).toHold = .resume p) ∧
      ((g (.trap p)).toHold = {} ∨ (g (.trap p)).toHold = .resume p) := by
  have hparked : (view s g p).parked = some (g (.proc p), g (.trap p)) := by
    simp only [view, hloc, if_true]
  have huntr := h.switching.untrapped p
  rcases h.parked hloc with ⟨-, -, ℓ, ℓ', hp, -, hx, hy⟩ | ⟨-, hutr, ℓ, ℓ', hp, -, hempty⟩
  · rw [hparked] at hp
    cases hp
    rcases Bool.eq_false_or_eq_true (s.trapped p) with htr | htr
    · exact ⟨.inl (hy htr).1, .inr (hy htr).2⟩
    · exact ⟨.inr (hx htr), .inl (huntr htr)⟩
  · rw [hparked] at hp
    cases hp
    exact ⟨.inl hempty, .inl (huntr hutr)⟩

/-- A thread that does not move holds only what it has written down. -/
theorem Core.moves_or (h : Core strict s g) (t : Thread Cpu) : (∃ c, Moves s g t c) ∨
    (g t).toHold = {} ∨ ∃ p, (g t).toHold = .resume p ∨ (g t).toHold = .returned p := by
  have hsw := h.switching
  cases t with
  | sched c =>
    cases hon : s.on c with
    | some p => exact .inr (.inr ⟨p, .inr (hsw.away c p hon)⟩)
    | none =>
      rcases Bool.eq_false_or_eq_true (s.intr c) with hi | hi
      · have hbase : base s c = .sched c := by simp only [base, hon]
        exact .inr (.inl (hbase ▸ (hsw.stopped c hi).1))
      · exact .inl ⟨c, hart_sched.2 ⟨rfl, hon, hi⟩, by rintro _ ⟨⟩⟩
  | irq c =>
    rcases Bool.eq_false_or_eq_true (s.intr c) with hi | hi
    · exact .inl ⟨c, hart_irq.2 ⟨rfl, hi⟩, by rintro _ ⟨⟩⟩
    · exact .inr (.inl (hsw.calm c hi))
  | proc p =>
    cases hloc : s.loc p with
    | none =>
      rcases (h.parked_hold hloc).1 with hx | hx
      · exact .inr (.inl hx)
      · exact .inr (.inr ⟨p, .inl hx⟩)
    | some c =>
      have hon := (hsw.loaded c p).2 hloc
      rcases Bool.eq_false_or_eq_true (s.fresh p) with hf | hf
      · exact .inr (.inl (hsw.fresh c p hon hf).2.2)
      rcases Bool.eq_false_or_eq_true (s.trapped p) with htr | htr
      · exact .inr (.inl (hsw.trapped c p hon htr))
      rcases Bool.eq_false_or_eq_true (s.intr c) with hi | hi
      · have hbase : base s c = .proc p := by simp [base, hon, htr]
        exact .inr (.inl (hbase ▸ (hsw.stopped c hi).1))
      refine .inl ⟨c, hart_proc.2 ⟨hloc, htr, hi⟩, ?_⟩
      rintro _ ⟨⟩
      by_contra hdead
      rw [(hsw.alive c p hon).2 (Bool.eq_false_iff.2 hdead)] at hf
      cases hf
  | trap p =>
    rcases Bool.eq_false_or_eq_true (s.trapped p) with htr | htr
    · cases hloc : s.loc p with
      | none =>
        rcases (h.parked_hold hloc).2 with hx | hx
        · exact .inr (.inl hx)
        · exact .inr (.inr ⟨p, .inl hx⟩)
      | some c =>
        have hon := (hsw.loaded c p).2 hloc
        rcases Bool.eq_false_or_eq_true (s.intr c) with hi | hi
        · have hbase : base s c = .trap p := by simp [base, hon, htr]
          exact .inr (.inl (hbase ▸ (hsw.stopped c hi).1))
        · exact .inl ⟨c, hart_trap.2 ⟨hloc, htr, hi⟩, by rintro _ ⟨⟩⟩
    · exact .inr (.inl (hsw.untrapped p htr))

/-- Two threads that move do not hold the same lock. -/
theorem Core.exclusive {l : Lock} (h : Core strict s g) (hm : Moves s g t c) (hm' : Moves s g t' c')
    (hl : l ∈ (g t).locks) (hl' : l ∈ (g t').locks) : t = t' := by
  have hc := (h.lock_iff hm l).2 hl
  rw [(h.lock_iff hm' l).2 hl'] at hc
  cases hc
  rw [← h.switching.hart_iff.1 hm.hart, h.switching.hart_iff.1 hm'.hart]

theorem Core.moves_of_lock {l : Lock} (h : Core strict s g) (hl : l ∈ (g t).locks)
    (hproc : ∀ p, l ≠ .proc p) : ∃ c, Moves s g t c := by
  rcases h.moves_or t with hm | hx | ⟨p, hx | hx⟩
  · exact hm
  · rw [hx] at hl
    exact nomatch hl
  · rw [hx] at hl
    exact absurd (List.mem_singleton.1 hl) (hproc p)
  · rw [hx] at hl
    exact absurd (List.mem_singleton.1 hl) (hproc p)

/-- `wait_lock` has one holder. -/
theorem Core.wait_exclusive (h : Core strict s g) (hl : .wait ∈ (g t).locks)
    (hl' : .wait ∈ (g t').locks) : t = t' := by
  obtain ⟨c, hm⟩ := h.moves_of_lock hl nofun
  obtain ⟨c', hm'⟩ := h.moves_of_lock hl' nofun
  exact h.exclusive hm hm' hl hl'

theorem Core.wait_held (h : Core strict s g) (hl : .wait ∈ (g t).locks) : s.lock .wait ≠ none := by
  obtain ⟨c, hm⟩ := h.moves_of_lock hl nofun
  rw [(h.lock_iff hm _).2 hl]
  exact nofun

theorem Core.moves_of_bound {q : Slot} {chan : Chan} {stored : Bool} (h : Core strict s g)
    (hbound : (g t).work = some (q, .bound chan stored)) : ∃ c, Moves s g t c := by
  rcases h.moves_or t with hm | hx | ⟨p, hx | hx⟩
  · exact hm
  · rw [hx] at hbound
    exact nomatch hbound
  · rw [hx] at hbound
    exact nomatch hbound
  · rw [hx] at hbound
    exact nomatch hbound

/-- A process in `sleep` holds its lock, so no other thread does. -/
theorem Core.not_bound {q : Slot} {chan : Chan} {stored : Bool} (h : Core strict s g) (hm : Moves s g t c)
    (hwork : (g t).work = some (q, st)) (ht : t ≠ .proc q) :
    (g (.proc q)).work ≠ some (q, .bound chan stored) := by
  intro hbound
  obtain ⟨c', hm'⟩ := h.moves_of_bound hbound
  exact ht (h.exclusive hm hm' ((h.work_iff hm q).2 ⟨_, hwork⟩) ((h.work_iff hm' q).2 ⟨_, hbound⟩))

/-- A process that is loaded, and whose lock its CPU does not hold, is running. -/
theorem Core.running (h : Core strict s g) (hloc : s.loc p = some c)
    (hlock : s.lock (.proc p) ≠ some c) : s.state p = .running := by
  have hrest : ∀ v : View Cpu, v.Rest strict p → v.loc = some c → v.state = .running := by
    intro v hr hl
    have hres : ¬ v.Resumable p := fun hx => by simp [hx.1] at hl
    have hvac : ¬ v.Vacant := fun hx => by simp [hx.1] at hl
    simp only [View.Rest] at hr
    cases hst : v.state <;> rw [hst] at hr
    case unused => exact absurd hr.1 hvac
    case used => exact absurd hr.1.1 hvac
    case runnable => exact (hr.1.elim hres fun hx => hvac hx.1).elim
    case sleeping => exact absurd hr.1 hres
    case zombie => exact absurd hr.1 hvac
  have hentry := h.entry p
  simp only [Entry] at hentry
  split at hentry
  · exact hrest _ hentry hloc
  · rename_i c' hc'
    obtain ⟨st, -, hshape⟩ := hentry
    have hne : c' ≠ c := by
      rintro rfl
      exact hlock hc'
    have hres : ¬ (view s g p).Resumable p := fun hx => by
      have := hx.1
      simp [view, hloc] at this
    have hvac : ¬ (view s g p).Vacant := fun hx => by
      have := hx.1
      simp [view, hloc] at this
    have hloaded : ¬ (view s g p).Loaded c' := fun hx => by
      have hl : s.loc p = some c' := hx.1
      rw [hloc] at hl
      exact hne (Option.some.inj hl).symm
    cases st with
    | held => exact hrest _ hshape hloc
    | named pid => exact hrest _ hshape.1 hloc
    | chose => exact hrest _ hshape.2 hloc
    | set => exact hshape.1
    | armed => exact hshape.1
    | back => exact hrest _ hshape.2 hloc
    | mine => exact hshape.1
    | bound chan stored => exact hshape.1.1
    | dying status => exact hshape.1.1
    | leaving st => exact absurd hshape.1 hloaded
    | free => exact hrest _ hshape.2 hloc
    | numbered => exact absurd hshape.2.1 hvac
    | new => exact absurd hshape.2.1 hvac
    | dead pid status => exact hrest _ hshape.2.1 hloc
    | kept => exact absurd hshape.2.1.1 hvac
    | freeing st n => exact absurd hshape.2.2.1 hvac

/-- A process that moves and does not hold its own lock sleeps on no channel. -/
theorem Core.not_pending {q : Slot} (h : Core strict s g) (hm : Moves s g t c) (hon : s.on c = some q)
    (hlock : .proc q ∉ (g t).locks) (chan : Chan) : ¬ Pending s g q chan := by
  have hloc := (h.switching.loaded c q).1 hon
  have hfree : s.lock (.proc q) ≠ some c := fun hx => hlock ((h.lock_iff hm _).1 hx)
  rintro (⟨hsleeping, -⟩ | ⟨stored, hbound⟩)
  · rw [h.running hloc hfree] at hsleeping
    exact nomatch hsleeping
  · obtain ⟨c', hm'⟩ := h.moves_of_bound hbound
    have hl : s.loc q = some c' := (hart_proc.1 hm'.hart).1
    rw [hloc] at hl
    cases hl
    exact hfree ((h.lock_iff hm' _).2 ((h.work_iff hm' q).2 ⟨_, hbound⟩))

section pending
variable [DecidableEq Cpu] {s' : State Cpu} {ℓ : Local} {chan : Chan}

/-- After a step of thread `t`, a process sleeps on a channel only if it did so before. -/
theorem Pending.of_sleeping (h : Pending s' (Function.update g t ℓ) p chan)
    (hsleep : s'.state p = .sleeping → s.state p = .sleeping ∧ s'.chan p = s.chan p)
    (hwork : t = .proc p → ∀ b, ℓ.work = some (p, .bound chan b) →
      ∃ b', (g t).work = some (p, .bound chan b')) : Pending s g p chan := by
  rcases h with ⟨hs, hc⟩ | ⟨b, hx⟩
  · obtain ⟨hs', hc'⟩ := hsleep hs
    exact .inl ⟨hs', hc' ▸ hc⟩
  · by_cases ht : .proc p = t
    · rw [ht, Function.update_self] at hx
      obtain ⟨b', hb'⟩ := hwork ht.symm b hx
      exact .inr ⟨b', ht ▸ hb'⟩
    · rw [Function.update_of_ne ht] at hx
      exact .inr ⟨b, hx⟩

theorem Pending.of_update (h : Pending s' (Function.update g t ℓ) p chan)
    (hstate : s'.state p = s.state p) (hchan : s'.chan p = s.chan p)
    (hwork : t = .proc p → ∀ b, ℓ.work = some (p, .bound chan b) →
      ∃ b', (g t).work = some (p, .bound chan b')) : Pending s g p chan :=
  h.of_sleeping (fun hs => ⟨hstate ▸ hs, hchan⟩) hwork

theorem Pending.of_same (h : Pending s' (Function.update g t ℓ) p chan)
    (hstate : s'.state p = s.state p) (hchan : s'.chan p = s.chan p) (hwork : ℓ.work = (g t).work) :
    Pending s g p chan :=
  h.of_update hstate hchan fun _ b hb => ⟨b, hwork ▸ hb⟩

end pending

end Xv6.Ptable
