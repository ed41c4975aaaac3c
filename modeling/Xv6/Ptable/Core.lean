import Xv6.Ptable.Ghost

/-!
# Steps that switch no context

A CPU runs one thread. A step of that thread changes what it knows and at most the entry of
the process whose lock it holds, so that the entries of all other processes, and what the
other CPUs hold, stay as they are.
-/
namespace Xv6.Ptable

open Xv6.Library Xv6.Source.Ptable

variable {Cpu : Type} {s s' : State Cpu} {g : Ghost Cpu} {t : Thread Cpu} {c : Cpu} {ℓ : Local}

/-- The kernel side of a process moves only after `forkret`. -/
def Live (t : Thread Cpu) (ℓ : Local) : Prop := ∀ p, t = .proc p → ℓ.alive = true

/-- The same contexts are loaded, and the same interrupts are being handled. -/
structure Placed (s s' : State Cpu) : Prop where
  on : s'.on = s.on
  loc : s'.loc = s.loc
  fresh : s'.fresh = s.fresh
  trapped : s'.trapped = s.trapped
  intr : s'.intr = s.intr

theorem Placed.rfl : Placed s s := ⟨Eq.refl _, Eq.refl _, Eq.refl _, Eq.refl _, Eq.refl _⟩

theorem Placed.base (h : Placed s s') (c : Cpu) : base s' c = base s c := by
  simp only [Ptable.base, h.on, h.trapped]

theorem Placed.top (h : Placed s s') (c : Cpu) : top s' c = top s c := by
  simp only [Ptable.top, h.intr, h.base]

theorem Placed.holds (h : Placed s s') (g : Ghost Cpu) (c : Cpu) : holds s' g c = holds s g c := by
  simp only [Ptable.holds, h.on, h.fresh, h.top]

section active

theorem Placed.hart (h : Placed s s') (t : Thread Cpu) : hart s' t = hart s t := by
  cases t <;> simp only [Source.Ptable.hart, h.on, h.loc, h.trapped, h.intr]

theorem hart_proc {p : Slot} : hart s (.proc p) = some c ↔
    s.loc p = some c ∧ s.trapped p = false ∧ s.intr c = false := by
  cases hl : s.loc p <;> simp only [hart, hl, Option.filter] <;> grind

theorem hart_trap {p : Slot} : hart s (.trap p) = some c ↔
    s.loc p = some c ∧ s.trapped p = true ∧ s.intr c = false := by
  cases hl : s.loc p <;> simp only [hart, hl, Option.filter] <;> grind

theorem hart_sched {c' : Cpu} : hart s (.sched c') = some c ↔
    c' = c ∧ s.on c = none ∧ s.intr c = false := by
  simp only [hart]
  split <;> grind

theorem hart_irq {c' : Cpu} : hart s (.irq c') = some c ↔ c' = c ∧ s.intr c = true := by
  simp only [hart]
  split <;> grind

/-- A thread can move on a CPU exactly if the CPU runs it. -/
theorem Switching.hart_iff (h : Switching s g) : hart s t = some c ↔ top s c = t := by
  have hon := h.loaded c
  cases t with
  | sched c' =>
    rw [hart_sched]
    simp only [top, base]
    cases s.on c <;> cases s.intr c <;> grind
  | proc p =>
    rw [hart_proc, ← hon]
    simp only [top, base]
    cases s.on c <;> cases s.intr c <;> grind
  | trap p =>
    rw [hart_trap, ← hon]
    simp only [top, base]
    cases s.on c <;> cases s.intr c <;> grind
  | irq c' =>
    rw [hart_irq]
    simp only [top, base]
    cases s.on c <;> cases s.intr c <;> grind

/-- A CPU holds what its thread holds. -/
theorem Switching.holds_eq (h : Switching s g) (ht : hart s t = some c) (hlive : Live t (g t)) :
    holds s g c = (g t).toHold := by
  have htop := h.hart_iff.1 ht
  simp only [holds]
  cases hon : s.on c with
  | none => rw [htop]
  | some p =>
    dsimp only
    split
    · rename_i hfresh
      obtain ⟨htrap, hintr, -⟩ := h.fresh c p hon hfresh
      have hproc : t = .proc p := by
        rw [← htop]
        simp [top, base, hintr, hon, htrap]
      have hdead := (h.alive c p hon).1 hfresh
      rw [← hproc, hlive p hproc] at hdead
      exact nomatch hdead
    · rw [htop]

/-- The thread below a device interrupt does not move. -/
theorem Switching.base_stopped (h : Switching s g) (hintr : s.intr c = true) {c' : Cpu} :
    hart s (base s c) ≠ some c' := by
  intro hmove
  simp only [base] at hmove
  split at hmove
  · obtain ⟨rfl, -, hcalm⟩ := hart_sched.1 hmove
    rw [hintr] at hcalm
    exact nomatch hcalm
  · rename_i p hon
    have hl := (h.loaded c p).1 hon
    split at hmove
    · obtain ⟨hl', -, hcalm⟩ := hart_trap.1 hmove
      rw [hl] at hl'
      cases hl'
      rw [hintr] at hcalm
      exact nomatch hcalm
    · obtain ⟨hl', -, hcalm⟩ := hart_proc.1 hmove
      rw [hl] at hl'
      cases hl'
      rw [hintr] at hcalm
      exact nomatch hcalm

variable [DecidableEq Cpu]

/-- What the other CPUs hold does not depend on the thread. -/
theorem Switching.holds_other (h : Switching s g) (ht : hart s t = some c) {c' : Cpu} (hc : c' ≠ c) :
    holds s (Function.update g t ℓ) c' = holds s g c' := by
  have hne : top s c' ≠ t := by
    intro htop
    have := h.hart_iff.2 htop
    rw [ht] at this
    exact hc (Option.some.inj this).symm
  simp only [holds, Function.update_of_ne hne]

variable (ht : hart s t = some c) (hlive : Live t (g t))
include ht

omit [DecidableEq Cpu] in
/-- A thread that moves is not parked. -/
theorem hart_not_parked {p : Slot} (hloc : s.loc p = none) : t ≠ .proc p ∧ t ≠ .trap p := by
  constructor
  · rintro rfl
    rw [hart_proc, hloc] at ht
    exact nomatch ht.1
  · rintro rfl
    rw [hart_trap, hloc] at ht
    exact nomatch ht.1

theorem view_update (p : Slot) : view s (Function.update g t ℓ) p = view s g p := by
  simp only [view]
  congr 1
  by_cases hloc : s.loc p = none
  · obtain ⟨hp, htr⟩ := hart_not_parked ht hloc
    rw [if_pos hloc, if_pos hloc, Function.update_of_ne (Ne.symm hp), Function.update_of_ne (Ne.symm htr)]
  · rw [if_neg hloc, if_neg hloc]

include hlive

/-- The contexts stay as they are. -/
theorem Switching.keep (h : Switching s g) (hp : Placed s s') (halive : ℓ.alive = (g t).alive)
    (hme : ℓ.me = (g t).me)
    (hcproc : ∀ c', s'.cproc c' = Ptable.assigned (Function.update g t ℓ (.sched c')).work) :
    Switching s' (Function.update g t ℓ) := by
  have htop := h.hart_iff.1 ht
  refine ⟨?_, ?_, ?_, ?_, ?_, ?_, ?_, ?_, hcproc⟩
  · rw [hp.on, hp.loc]
    exact h.loaded
  · intro c' p hon
    rw [hp.on] at hon
    rw [Function.update_of_ne ?_]
    · exact h.away c' p hon
    rintro rfl
    obtain ⟨rfl, hnone, -⟩ := hart_sched.1 ht
    rw [hon] at hnone
    exact nomatch hnone
  · intro c' p hon
    rw [hp.on] at hon
    rw [hp.fresh, h.alive c' p hon]
    by_cases htp : .proc p = t
    · rw [htp, Function.update_self, halive]
    · rw [Function.update_of_ne htp]
  · intro c' p hon hfresh
    rw [hp.on] at hon
    rw [hp.fresh] at hfresh
    rw [hp.trapped, hp.intr]
    obtain ⟨htr, hintr, hhold⟩ := h.fresh c' p hon hfresh
    refine ⟨htr, hintr, ?_⟩
    rw [Function.update_of_ne ?_]
    · exact hhold
    intro htp
    have hdead := (h.alive c' p hon).1 hfresh
    rw [htp, hlive p htp.symm] at hdead
    exact nomatch hdead
  · intro c' p hon htr
    rw [hp.on] at hon
    rw [hp.trapped] at htr
    rw [Function.update_of_ne ?_]
    · exact h.trapped c' p hon htr
    rintro rfl
    rw [(hart_proc.1 ht).2.1] at htr
    exact nomatch htr
  · intro p htr
    rw [hp.trapped] at htr
    rw [Function.update_of_ne ?_]
    · exact h.untrapped p htr
    rintro rfl
    rw [(hart_trap.1 ht).2.1] at htr
    exact nomatch htr
  · intro c' hintr
    rw [hp.intr] at hintr
    rw [hp.base, hp.on]
    obtain ⟨hbase, hon⟩ := h.stopped c' hintr
    constructor
    · rw [Function.update_of_ne ?_]
      · exact hbase
      intro hb
      rw [← hb] at ht
      exact h.base_stopped hintr ht
    · by_cases htp : .irq c' = t
      · rw [htp, Function.update_self, hme, ← htp]
        exact hon
      · rw [Function.update_of_ne htp]
        exact hon
  · intro c' hintr
    rw [hp.intr] at hintr
    rw [Function.update_of_ne ?_]
    · exact h.calm c' hintr
    rintro rfl
    obtain ⟨rfl, hi⟩ := hart_irq.1 ht
    rw [hintr] at hi
    exact nomatch hi

omit ht hlive in
/-- `c->proc` is written by the scheduler only. -/
theorem Switching.keep_cproc (h : Switching s g) (hc : s'.cproc = s.cproc)
    (hwork : (∃ c', t = .sched c') → Ptable.assigned ℓ.work = Ptable.assigned (g t).work) (c' : Cpu) :
    s'.cproc c' = Ptable.assigned (Function.update g t ℓ (.sched c')).work := by
  rw [hc, h.assigned c']
  by_cases htp : .sched c' = t
  · rw [htp, Function.update_self, hwork ⟨c', htp.symm⟩]
  · rw [Function.update_of_ne htp]

omit hlive in
/-- What the CPUs hold once the thread knows `ℓ`. -/
theorem Switching.holds_update (h : Switching s g) (hp : Placed s s')
    (h' : Switching s' (Function.update g t ℓ)) (hlive' : Live t ℓ) (c' : Cpu) :
    holds s' (Function.update g t ℓ) c' = if c' = c then ℓ.toHold else holds s g c' := by
  split
  · rename_i hc
    subst hc
    have heq := h'.holds_eq (t := t) ((hp.hart t).trans ht) (by rwa [Function.update_self])
    rwa [Function.update_self] at heq
  · rename_i hc
    rw [hp.holds, h.holds_other ht hc]

end active

section steps
variable {strict : Prop}

/-- An entry that is not touched, and whose holder goes on as before. -/
theorem Entry.keep {g' : Ghost Cpu} {p : Slot} (h : Entry strict s g p)
    (hlock : s'.lock (.proc p) = s.lock (.proc p)) (hview : view s' g' p = view s g p)
    (hwork : ∀ c st, s.lock (.proc p) = some c → (holds s g c).work = some (p, st) →
      (holds s' g' c).work = some (p, st)) : Entry strict s' g' p := by
  simp only [Entry, hlock, hview] at h ⊢
  split
  · rename_i hnone
    rwa [hnone] at h
  · rename_i c hc
    rw [hc] at h
    obtain ⟨st, hst, hshape⟩ := h
    exact ⟨st, hwork c st hc hst, hshape⟩

theorem Entry.of_free {p : Slot} (hlock : s.lock (.proc p) = none)
    (h : (view s g p).Rest strict p) : Entry strict s g p := by
  simp only [Entry, hlock]
  exact h

theorem Entry.of_held {p : Slot} {st : Stage} (hlock : s.lock (.proc p) = some c)
    (hwork : (holds s g c).work = some (p, st)) (h : (view s g p).Shape strict p c st) :
    Entry strict s g p := by
  simp only [Entry, hlock]
  exact ⟨st, hwork, h⟩

theorem Entry.rest {p : Slot} (h : Entry strict s g p) (hlock : s.lock (.proc p) = none) :
    (view s g p).Rest strict p := by
  simpa only [Entry, hlock] using h

/-- The entry that a CPU works on. -/
theorem Core.shape {p : Slot} {st : Stage} (h : Core strict s g)
    (hwork : (holds s g c).work = some (p, st)) :
    s.lock (.proc p) = some c ∧ (view s g p).Shape strict p c st := by
  have hlock : s.lock (.proc p) = some c := (h.locks.lock c _).2 ((h.locks.work c p).2 ⟨st, hwork⟩)
  have hentry := h.entry p
  simp only [Entry, hlock] at hentry
  obtain ⟨st', hst', hshape⟩ := hentry
  rw [hwork] at hst'
  cases hst'
  exact ⟨hlock, hshape⟩

/-- A thread that moves, and what it holds. -/
structure Moves (s : State Cpu) (g : Ghost Cpu) (t : Thread Cpu) (c : Cpu) : Prop where
  hart : hart s t = some c
  live : Live t (g t)

theorem Core.holds_eq (h : Core strict s g) (hm : Moves s g t c) : holds s g c = (g t).toHold :=
  h.switching.holds_eq hm.hart hm.live

theorem Core.lock_iff (h : Core strict s g) (hm : Moves s g t c) (l : Lock) :
    s.lock l = some c ↔ l ∈ (g t).locks := by
  rw [h.locks.lock, h.holds_eq hm]

theorem Core.noff_eq (h : Core strict s g) (hm : Moves s g t c) : s.noff c = (g t).locks.length := by
  rw [h.locks.noff, h.holds_eq hm]

theorem Core.nodup (h : Core strict s g) (hm : Moves s g t c) : (g t).locks.Nodup := by
  rw [← h.holds_eq hm]
  exact h.locks.nodup c

theorem Core.work_iff (h : Core strict s g) (hm : Moves s g t c) (p : Slot) :
    .proc p ∈ (g t).locks ↔ ∃ st, (g t).work = some (p, st) := by
  have := h.locks.work c p
  rwa [h.holds_eq hm] at this

theorem Core.own_shape {p : Slot} {st : Stage} (h : Core strict s g) (hm : Moves s g t c)
    (hwork : (g t).work = some (p, st)) :
    s.lock (.proc p) = some c ∧ (view s g p).Shape strict p c st := by
  apply h.shape
  rw [h.holds_eq hm]
  exact hwork

variable [DecidableEq Cpu]

/-- Nothing that concerns the table changes, except the entry that the thread works on. -/
theorem Core.change {q : Slot} {st st' : Stage} (h : Core strict s g) (hm : Moves s g t c)
    (hp : Placed s s') (hlock : s'.lock = s.lock) (hnoff : s'.noff = s.noff)
    (hcproc : ∀ c', s'.cproc c' = assigned (Function.update g t ℓ (.sched c')).work)
    (halive : ℓ.alive = (g t).alive) (hme : ℓ.me = (g t).me) (hlocks : ℓ.locks = (g t).locks)
    (hold : (g t).work = some (q, st)) (hnew : ℓ.work = some (q, st'))
    (hview : ∀ p, p ≠ q → view s' g p = view s g p)
    (hshape : (view s g q).Shape strict q c st → (view s' g q).Shape strict q c st') :
    Core strict s' (Function.update g t ℓ) := by
  have hsw := h.switching.keep hm.hart hm.live hp halive hme hcproc
  have hholds := h.switching.holds_update hm.hart hp hsw fun p htp => by rw [halive, hm.live p htp]
  have heq := h.holds_eq hm
  have hart' : Source.Ptable.hart s' t = some c := (hp.hart t).trans hm.hart
  obtain ⟨hq, hshape₀⟩ := h.own_shape hm hold
  refine ⟨hsw, ⟨?_, ?_, ?_, ?_⟩, ?_⟩
  · intro c' l
    rw [hlock, hholds]
    split
    · rename_i hc
      rw [hc, h.lock_iff hm, hlocks]
    · exact h.locks.lock c' l
  · intro c'
    rw [hnoff, hholds]
    split
    · rename_i hc
      rw [hc, h.noff_eq hm, hlocks]
    · exact h.locks.noff c'
  · intro c'
    rw [hholds]
    split
    · rw [hlocks]
      exact h.nodup hm
    · exact h.locks.nodup c'
  · intro c' p
    rw [hholds]
    split
    · rw [hlocks, h.work_iff hm, hold, hnew]
      constructor <;> (rintro ⟨_, hx⟩; cases hx; exact ⟨_, rfl⟩)
    · exact h.locks.work c' p
  · intro p
    by_cases hpq : p = q
    · subst hpq
      have hwork : (holds s' (Function.update g t ℓ) c).work = some (p, st') := by
        rw [hholds, if_pos rfl, hnew]
      refine Entry.of_held (by rw [hlock, hq]) hwork ?_
      rw [view_update hart']
      exact hshape hshape₀
    · refine (h.entry p).keep (by rw [hlock]) ?_ ?_
      · rw [view_update hart', hview p hpq]
      · intro c' st₀ hc' hst₀
        rw [hholds]
        split
        · rename_i hcc
          subst hcc
          rw [heq, hold] at hst₀
          cases hst₀
          exact absurd rfl hpq
        · exact hst₀

/-- Entry `q` changes in a way that does not matter to whoever holds its lock. -/
theorem Core.touch {q : Slot} (h : Core strict s g) (hm : Moves s g t c)
    (hp : Placed s s') (hlock : s'.lock = s.lock) (hnoff : s'.noff = s.noff)
    (hcproc : s'.cproc = s.cproc) (halive : ℓ.alive = (g t).alive) (hme : ℓ.me = (g t).me)
    (hhold : ℓ.toHold = (g t).toHold) (hview : ∀ p, p ≠ q → view s' g p = view s g p)
    (hrest : (view s g q).Rest strict q → (view s' g q).Rest strict q)
    (hshape : ∀ c st, (view s g q).Shape strict q c st → (view s' g q).Shape strict q c st) :
    Core strict s' (Function.update g t ℓ) := by
  have hsw := h.switching.keep hm.hart hm.live hp halive hme
    (h.switching.keep_cproc hcproc fun _ => by rw [hhold])
  have hholds : ∀ c', holds s' (Function.update g t ℓ) c' = holds s g c' := by
    intro c'
    rw [h.switching.holds_update hm.hart hp hsw fun p htp => by rw [halive, hm.live p htp]]
    split
    · rename_i hc
      rw [hc, h.holds_eq hm, hhold]
    · rfl
  have hart' : Source.Ptable.hart s' t = some c := (hp.hart t).trans hm.hart
  refine ⟨hsw, ⟨?_, ?_, ?_, ?_⟩, fun p => ?_⟩
  · simpa only [hlock, hholds] using h.locks.lock
  · simpa only [hnoff, hholds] using h.locks.noff
  · simpa only [hholds] using h.locks.nodup
  · simpa only [hholds] using h.locks.work
  · by_cases hpq : p = q
    · subst hpq
      have hentry := h.entry p
      simp only [Entry, hlock, hholds, view_update hart'] at hentry ⊢
      split
      · rename_i hnone
        rw [hnone] at hentry
        exact hrest hentry
      · rename_i c' hc'
        rw [hc'] at hentry
        obtain ⟨st, hst, hs⟩ := hentry
        exact ⟨st, hst, hshape c' st hs⟩
    · refine (h.entry p).keep (by rw [hlock]) ?_ fun c' st₀ _ hst₀ => ?_
      · rw [view_update hart', hview p hpq]
      · rwa [hholds]

/-- Nothing that concerns the table changes. -/
theorem Core.same (h : Core strict s g) (hm : Moves s g t c)
    (hp : Placed s s') (hlock : s'.lock = s.lock) (hnoff : s'.noff = s.noff)
    (hcproc : s'.cproc = s.cproc) (halive : ℓ.alive = (g t).alive) (hme : ℓ.me = (g t).me)
    (hhold : ℓ.toHold = (g t).toHold) (hview : ∀ p, view s' g p = view s g p) :
    Core strict s' (Function.update g t ℓ) :=
  h.touch (q := init) hm hp hlock hnoff hcproc halive hme hhold (fun p _ => hview p)
    (by rw [hview]; exact id) (by rw [hview]; exact fun _ _ hs => hs)

section lock
variable {l : Lock} {o : Option Cpu} (h : Core strict s g)
  (hholds : ∀ c', holds s' (Function.update g t ℓ) c' = if c' = c then ℓ.toHold else holds s g c')
include h hholds

/-- A lock changes hands; `ℓ` says what the thread then has and works on. -/
theorem Locks.change (hlock : s'.lock = Function.update s.lock l o) (hnoff : s'.noff = Function.update s.noff c ℓ.locks.length)
    (hmine : ∀ l', Function.update s.lock l o l' = some c ↔ l' ∈ ℓ.locks)
    (hothers : ∀ c', c' ≠ c → (o = some c' ↔ s.lock l = some c')) (hnodup : ℓ.locks.Nodup)
    (hwork : ∀ p, .proc p ∈ ℓ.locks ↔ ∃ st, ℓ.work = some (p, st)) : Locks s' (Function.update g t ℓ) := by
  constructor
  · intro c' l'
    rw [hlock, hholds]
    split
    · rename_i hc
      rw [hc]
      exact hmine l'
    · rename_i hc
      rw [← h.locks.lock]
      by_cases hl : l' = l
      · rw [hl, Function.update_self]
        exact hothers c' hc
      · rw [Function.update_of_ne hl]
  · intro c'
    rw [hnoff, hholds]
    split
    · rename_i hc
      rw [hc, Function.update_self]
    · rename_i hc
      rw [Function.update_of_ne hc, h.locks.noff]
  · intro c'
    rw [hholds]
    split
    · exact hnodup
    · exact h.locks.nodup c'
  · intro c' p
    rw [hholds]
    split
    · exact hwork p
    · exact h.locks.work c' p

variable (hm : Moves s g t c)
include hm

/-- The thread takes a lock that is free. -/
theorem Locks.acquire (hfree : s.lock l = none) (hlock : s'.lock = Function.update s.lock l (some c))
    (hnoff : s'.noff = Function.update s.noff c (s.noff c + 1)) (hlocks : ℓ.locks = l :: (g t).locks)
    (hwork : ∀ p, (∃ st, ℓ.work = some (p, st)) ↔ l = .proc p ∨ ∃ st, (g t).work = some (p, st)) :
    Locks s' (Function.update g t ℓ) := by
  apply Locks.change h hholds hlock
  · rw [hnoff, hlocks, List.length_cons, h.noff_eq hm]
  · intro l'
    rw [hlocks, List.mem_cons, ← h.lock_iff hm]
    by_cases hl : l' = l
    · simp [hl]
    · simp [hl]
  · intro c' hc
    rw [hfree]
    simp [Ne.symm hc]
  · rw [hlocks, List.nodup_cons, ← h.lock_iff hm, hfree]
    exact ⟨nofun, h.nodup hm⟩
  · intro p
    rw [hlocks, List.mem_cons, hwork, h.work_iff hm]
    exact or_congr_left eq_comm

/-- The thread gives a lock back. -/
theorem Locks.release (hheld : l ∈ (g t).locks) (hlock : s'.lock = Function.update s.lock l none)
    (hnoff : s'.noff = Function.update s.noff c (s.noff c - 1)) (hlocks : ℓ.locks = (g t).locks.erase l)
    (hwork : ∀ p, (∃ st, ℓ.work = some (p, st)) ↔ l ≠ .proc p ∧ ∃ st, (g t).work = some (p, st)) :
    Locks s' (Function.update g t ℓ) := by
  have hnodup := h.nodup hm
  apply Locks.change h hholds hlock
  · rw [hnoff, hlocks, List.length_erase_of_mem hheld, h.noff_eq hm]
  · intro l'
    rw [hlocks, hnodup.mem_erase_iff, ← h.lock_iff hm]
    by_cases hl : l' = l
    · simp [hl]
    · simp [hl]
  · intro c' hc
    rw [(h.lock_iff hm l).2 hheld]
    simp [Ne.symm hc]
  · rw [hlocks]
    exact hnodup.erase l
  · intro p
    rw [hlocks, hnodup.mem_erase_iff, hwork, h.work_iff hm]
    exact and_congr_left' ne_comm

end lock

/-- What a step of `acquire` or `release` leaves alone. -/
structure LockStep (s s' : State Cpu) (l : Lock) (o : Option Cpu) : Prop where
  placed : Placed s s'
  lock : s'.lock = Function.update s.lock l o
  cproc : s'.cproc = s.cproc
  view : ∀ g p, view s' g p = view s g p

variable {l : Lock}

/-- A lock other than that of a process changes hands. -/
theorem Core.plain {o : Option Cpu} (h : Core strict s g) (hm : Moves s g t c)
    (hstep : LockStep s s' l o) (hl : ∀ p, l ≠ .proc p) (halive : ℓ.alive = (g t).alive)
    (hme : ℓ.me = (g t).me) (hwork : ℓ.work = (g t).work)
    (hlocks : (∀ c', holds s' (Function.update g t ℓ) c' = if c' = c then ℓ.toHold else holds s g c') →
      Locks s' (Function.update g t ℓ)) : Core strict s' (Function.update g t ℓ) := by
  have hsw := h.switching.keep hm.hart hm.live hstep.placed halive hme
    (h.switching.keep_cproc hstep.cproc fun _ => by rw [hwork])
  have hholds := h.switching.holds_update hm.hart hstep.placed hsw fun p htp => by
    rw [halive, hm.live p htp]
  refine ⟨hsw, hlocks hholds, fun p => (h.entry p).keep ?_ ?_ ?_⟩
  · rw [hstep.lock, Function.update_of_ne (Ne.symm (hl p))]
  · rw [view_update ((hstep.placed.hart t).trans hm.hart), hstep.view]
  · intro c' st _ hst
    rw [hholds]
    split
    · rename_i hc
      rwa [hwork, ← h.holds_eq hm, ← hc]
    · exact hst

theorem Core.acquire (h : Core strict s g) (hm : Moves s g t c) (hstep : LockStep s s' l (some c))
    (hl : ∀ p, l ≠ .proc p) (hfree : s.lock l = none)
    (hnoff : s'.noff = Function.update s.noff c (s.noff c + 1)) (halive : ℓ.alive = (g t).alive)
    (hme : ℓ.me = (g t).me) (hwork : ℓ.work = (g t).work) (hlocks : ℓ.locks = l :: (g t).locks) :
    Core strict s' (Function.update g t ℓ) :=
  h.plain hm hstep hl halive hme hwork fun hholds =>
    Locks.acquire h hholds hm hfree hstep.lock hnoff hlocks fun p => by simp [hwork, hl p]

theorem Core.release (h : Core strict s g) (hm : Moves s g t c) (hstep : LockStep s s' l none)
    (hl : ∀ p, l ≠ .proc p) (hheld : l ∈ (g t).locks)
    (hnoff : s'.noff = Function.update s.noff c (s.noff c - 1)) (halive : ℓ.alive = (g t).alive)
    (hme : ℓ.me = (g t).me) (hwork : ℓ.work = (g t).work) (hlocks : ℓ.locks = (g t).locks.erase l) :
    Core strict s' (Function.update g t ℓ) :=
  h.plain hm hstep hl halive hme hwork fun hholds =>
    Locks.release h hholds hm hheld hstep.lock hnoff hlocks fun p => by simp [hwork, hl p]

/-- The lock of a process changes hands; `st` is the stage of the thread that has it. -/
theorem Core.procLock {q : Slot} {o : Option Cpu} (h : Core strict s g) (hm : Moves s g t c)
    (hstep : LockStep s s' (.proc q) o) (halive : ℓ.alive = (g t).alive) (hme : ℓ.me = (g t).me)
    (hassigned : (∃ c', t = .sched c') → assigned ℓ.work = assigned (g t).work)
    (hwork : ∀ p st, (g t).work = some (p, st) → p = q)
    (hlocks : (∀ c', holds s' (Function.update g t ℓ) c' = if c' = c then ℓ.toHold else holds s g c') →
      Locks s' (Function.update g t ℓ))
    (hentry : (∀ c', holds s' (Function.update g t ℓ) c' = if c' = c then ℓ.toHold else holds s g c') →
      view s' (Function.update g t ℓ) q = view s g q → Entry strict s' (Function.update g t ℓ) q) :
    Core strict s' (Function.update g t ℓ) := by
  have hsw := h.switching.keep hm.hart hm.live hstep.placed halive hme
    (h.switching.keep_cproc hstep.cproc hassigned)
  have hholds := h.switching.holds_update hm.hart hstep.placed hsw fun p htp => by
    rw [halive, hm.live p htp]
  have hview : ∀ p, view s' (Function.update g t ℓ) p = view s g p := by
    intro p
    rw [view_update ((hstep.placed.hart t).trans hm.hart), hstep.view]
  refine ⟨hsw, hlocks hholds, fun p => ?_⟩
  by_cases hpq : p = q
  · subst hpq
    exact hentry hholds (hview p)
  · refine (h.entry p).keep ?_ (hview p) ?_
    · rw [hstep.lock, Function.update_of_ne (by simpa using hpq)]
    · intro c' st _ hst
      rw [hholds]
      split
      · rename_i hc
        rw [hc, h.holds_eq hm] at hst
        exact absurd (hwork p st hst) hpq
      · exact hst

/-- The thread takes the lock of a process and finds its entry at rest. -/
theorem Core.acquireProc {q : Slot} {st : Stage} (h : Core strict s g) (hm : Moves s g t c)
    (hstep : LockStep s s' (.proc q) (some c)) (hfree : s.lock (.proc q) = none)
    (hnoff : s'.noff = Function.update s.noff c (s.noff c + 1)) (halive : ℓ.alive = (g t).alive)
    (hme : ℓ.me = (g t).me) (hnone : (g t).work = none) (hwork : ℓ.work = some (q, st))
    (hassigned : (∃ c', t = .sched c') → assigned ℓ.work = none)
    (hlocks : ℓ.locks = .proc q :: (g t).locks)
    (hshape : (view s g q).Rest strict q → (view s g q).Shape strict q c st) :
    Core strict s' (Function.update g t ℓ) := by
  refine h.procLock hm hstep halive hme ?_ ?_ ?_ ?_
  · rw [hnone]
    exact hassigned
  · rw [hnone]
    exact nofun
  · intro hholds
    refine Locks.acquire h hholds hm hfree hstep.lock hnoff hlocks fun p => ?_
    simp [hwork, hnone]
  · intro hholds hview
    have hw : (holds s' (Function.update g t ℓ) c).work = some (q, st) := by
      rw [hholds, if_pos rfl, hwork]
    refine Entry.of_held (by rw [hstep.lock, Function.update_self]) hw ?_
    rw [hview]
    exact hshape ((h.entry q).rest hfree)

/-- The thread gives back the lock of a process whose entry is at rest. -/
theorem Core.releaseProc {q : Slot} {st : Stage} (h : Core strict s g) (hm : Moves s g t c)
    (hstep : LockStep s s' (.proc q) none)
    (hnoff : s'.noff = Function.update s.noff c (s.noff c - 1)) (halive : ℓ.alive = (g t).alive)
    (hme : ℓ.me = (g t).me) (hold : (g t).work = some (q, st)) (hwork : ℓ.work = none)
    (hassigned : (∃ c', t = .sched c') → assigned (g t).work = none)
    (hlocks : ℓ.locks = (g t).locks.erase (.proc q))
    (hshape : (view s g q).Shape strict q c st → (view s g q).Rest strict q) :
    Core strict s' (Function.update g t ℓ) := by
  obtain ⟨-, hshape₀⟩ := h.own_shape hm hold
  refine h.procLock hm hstep halive hme ?_ ?_ ?_ ?_
  · intro hsched
    rw [hwork, hassigned hsched]
    rfl
  · intro p st' hst'
    rw [hold] at hst'
    cases hst'
    rfl
  · intro hholds
    have hheld : .proc q ∈ (g t).locks := (h.work_iff hm q).2 ⟨st, hold⟩
    refine Locks.release h hholds hm hheld hstep.lock hnoff hlocks fun p => ?_
    simp only [hwork, hold]
    constructor
    · rintro ⟨_, hx⟩
      exact nomatch hx
    · rintro ⟨hne, _, hx⟩
      cases hx
      exact absurd rfl hne
  · intro _ hview
    refine Entry.of_free (by rw [hstep.lock, Function.update_self]) ?_
    rw [hview]
    exact hshape hshape₀

end steps

end Xv6.Ptable
