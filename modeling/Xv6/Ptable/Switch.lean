import Xv6.Ptable.Core

/-!
# Steps that switch contexts

At `swtch` the lock of the process passes from the scheduler to the process or back; what the
CPU holds stays the same, and the thread that goes on finds what it has written down. The
thread on top of which an interrupt runs holds nothing.
-/
namespace Xv6.Ptable

open Xv6.Library Xv6.Source.Ptable

variable {Cpu : Type} {strict : Prop} {s s' : State Cpu} {g g' : Ghost Cpu} {c : Cpu} {p : Slot}
  {ℓ : Local}

theorem holds_of_not_fresh (hf : ∀ p, s.on c = some p → s.fresh p = false) :
    holds s g c = (g (top s c)).toHold := by
  simp only [holds]
  split
  · rfl
  · rename_i p hon
    rw [if_neg (by simp [hf p hon])]

theorem holds_congr (hon : s'.on c = s.on c) (hfresh : ∀ p, s.on c = some p → s'.fresh p = s.fresh p)
    (htop : (g' (top s' c)).toHold = (g (top s c)).toHold) : holds s' g' c = holds s g c := by
  simp only [holds, hon, htop]
  split
  · rfl
  · rename_i p hp
    rw [hfresh p hp]

/-- The locks stay with their CPUs. -/
theorem Locks.relabel (h : Locks s g) (hlock : s'.lock = s.lock) (hnoff : s'.noff = s.noff)
    (hlocks : ∀ c, (holds s' g' c).locks = (holds s g c).locks)
    (hwork : ∀ c p, (∃ st, (holds s' g' c).work = some (p, st)) ↔
      ∃ st, (holds s g c).work = some (p, st)) : Locks s' g' := by
  refine ⟨fun c l => ?_, fun c => ?_, fun c => ?_, fun c p => ?_⟩
  · rw [hlock, hlocks]
    exact h.lock c l
  · rw [hnoff, hlocks]
    exact h.noff c
  · rw [hlocks]
    exact h.nodup c
  · rw [hlocks, hwork]
    exact h.work c p

theorem Locks.rehold (h : Locks s g) (hlock : s'.lock = s.lock) (hnoff : s'.noff = s.noff)
    (hholds : ∀ c, holds s' g' c = holds s g c) : Locks s' g' :=
  h.relabel hlock hnoff (fun c => by rw [hholds]) fun c p => by rw [hholds]

/-- A CPU without locks holds nothing. -/
theorem Locks.holds_nothing (h : Locks s g) (hnoff : s.noff c = 0) : holds s g c = {} := by
  have hlocks : (holds s g c).locks = [] := List.length_eq_zero_iff.1 ((h.noff c).symm.trans hnoff)
  have hwork : (holds s g c).work = none := by
    rcases hw : (holds s g c).work with _ | ⟨p, st⟩
    · rfl
    · have hmem := (h.work c p).2 ⟨st, hw⟩
      rw [hlocks] at hmem
      exact nomatch hmem
  generalize holds s g c = x at hlocks hwork
  obtain ⟨locks, work⟩ := x
  cases hlocks
  cases hwork
  rfl

/-- On a CPU without locks no process is about to run `forkret`. -/
theorem Locks.not_fresh (h : Locks s g) (hnoff : s.noff c = 0) (hon : s.on c = some p) :
    s.fresh p = false := by
  have hnothing := h.holds_nothing hnoff
  by_contra hfresh
  simp only [holds, hon, Bool.not_eq_false] at hnothing hfresh
  rw [if_pos hfresh] at hnothing
  cases congrArg Hold.locks hnothing

theorem Locks.top_nothing (h : Locks s g) (hnoff : s.noff c = 0) : (g (top s c)).toHold = {} := by
  rw [← holds_of_not_fresh fun p hon => h.not_fresh hnoff hon]
  exact h.holds_nothing hnoff

/-- A process that is loaded looks the same in a timer interrupt. -/
theorem View.Shape.trap {v : View Cpu} {st : Stage} {c' : Cpu} (h : v.Shape strict p c st)
    (hloc : v.loc = some c') (b : Bool) : ({ v with trapped := b } : View Cpu).Shape strict p c st := by
  have hres : ¬ v.Resumable p := fun hx => by simp [hx.1] at hloc
  have hvac : ¬ v.Vacant := fun hx => by simp [hx.1] at hloc
  have hrest : v.Rest strict p → ({ v with trapped := b } : View Cpu).Rest strict p := by
    simp only [View.Rest, View.Ready, View.Unborn, hres, hvac, false_and, or_self]
    cases v.state <;> first | exact False.elim | exact id
  cases st with
  | held => exact hrest h
  | named pid => exact ⟨hrest h.1, h.2⟩
  | chose => exact ⟨h.1, hrest h.2⟩
  | set => exact (h.2.1.elim hres fun hx => hvac hx.1).elim
  | armed => exact (h.2.1.elim hres fun hx => hvac hx.1).elim
  | back => exact ⟨h.1, hrest h.2⟩
  | mine => exact h
  | bound chan stored => exact h
  | dying status => exact h
  | leaving st => exact h
  | free => exact ⟨h.1, hrest h.2⟩
  | numbered => exact (hvac h.2.1).elim
  | new => exact (hvac h.2.1).elim
  | dead pid status => exact ⟨h.1, hrest h.2.1, h.2.2⟩
  | kept => exact (hvac h.2.1.1).elim
  | freeing st n => exact (hvac h.2.2.1).elim

section interrupts

theorem base_on_other {c' : Cpu} (h : Switching s g) (hon : s.on c = some p) (hne : c' ≠ c)
    (hs : s'.on = s.on) (htr : ∀ q, q ≠ p → s'.trapped q = s.trapped q) : base s' c' = base s c' := by
  simp only [base, hs]
  cases hon' : s.on c' with
  | none => rfl
  | some q =>
    have hqp : q ≠ p := by
      rintro rfl
      have h₁ := (h.loaded c q).1 hon
      rw [(h.loaded c' q).1 hon'] at h₁
      exact hne (Option.some.inj h₁)
    simp only [htr q hqp]

/-- A timer interrupt begins or ends on top of a process that holds nothing. -/
theorem Core.setTrapped {b : Bool} (h : Core strict s g) (hloc : s.loc p = some c)
    (hintr : s.intr c = false) (hnoff : s.noff c = 0) (hproc : (g (.proc p)).toHold = {})
    (htrap : (g (.trap p)).toHold = {}) (hfresh : s.fresh p = false) :
    Core strict { s with trapped := Function.update s.trapped p b } g := by
  have hon := (h.switching.loaded c p).2 hloc
  have hbase : ∀ c', c' ≠ c →
      base { s with trapped := Function.update s.trapped p b } c' = base s c' := fun c' hne =>
    base_on_other h.switching hon hne rfl fun q hq => Function.update_of_ne hq _ _
  have hholds : ∀ c', holds { s with trapped := Function.update s.trapped p b } g c' =
      holds s g c' := by
    intro c'
    by_cases hc : c' = c
    · subst hc
      rw [h.locks.holds_nothing hnoff]
      simp only [holds, hon, hfresh, top, hintr, base, Function.update_self]
      cases b
      · exact hproc
      · exact htrap
    · simp only [holds, top, hbase c' hc]
  have hsw := h.switching
  refine ⟨⟨hsw.loaded, hsw.away, hsw.alive, ?_, ?_, ?_, ?_, hsw.calm, hsw.assigned⟩,
    h.locks.rehold rfl rfl hholds, fun q => ?_⟩
  · intro c' q hon' hf
    by_cases hqp : q = p
    · subst hqp
      dsimp only at hf
      rw [hfresh] at hf
      cases hf
    · dsimp only
      rw [Function.update_of_ne hqp]
      exact hsw.fresh c' q hon' hf
  · intro c' q hon' htr
    by_cases hqp : q = p
    · subst hqp
      exact hproc
    · dsimp only at htr
      rw [Function.update_of_ne hqp] at htr
      exact hsw.trapped c' q hon' htr
  · intro q htr
    by_cases hqp : q = p
    · subst hqp
      exact htrap
    · dsimp only at htr
      rw [Function.update_of_ne hqp] at htr
      exact hsw.untrapped q htr
  · intro c' hi
    have hne : c' ≠ c := by
      rintro rfl
      dsimp only at hi
      rw [hintr] at hi
      cases hi
    rw [hbase c' hne]
    exact hsw.stopped c' hi
  · by_cases hqp : q = p
    · subst hqp
      have hentry := h.entry q
      have hview : view { s with trapped := Function.update s.trapped q b } g q =
          { view s g q with trapped := b } := by
        simp only [view, Function.update_self]
      simp only [Entry, hview, hholds] at hentry ⊢
      split
      · rename_i hnone
        rw [hnone] at hentry
        have hheld : (view s g q).Shape strict q c .held := hentry
        exact hheld.trap hloc b
      · rename_i c' hc'
        rw [hc'] at hentry
        obtain ⟨st, hst, hshape⟩ := hentry
        exact ⟨st, hst, hshape.trap hloc b⟩
    · refine (h.entry q).keep rfl ?_ ?_
      · simp only [view, Function.update_of_ne hqp]
      · intro c' st _ hst
        rwa [hholds]

/-- The process that a CPU without locks runs is its `c->proc`. -/
theorem Core.cproc_eq (h : Core strict s g) (hnoff : s.noff c = 0) (hintr : s.intr c = false) :
    s.cproc c = s.on c := by
  rw [h.switching.assigned c]
  cases hon : s.on c with
  | none =>
    have htop := h.locks.top_nothing hnoff
    simp only [top, hintr, base, hon, Bool.false_eq_true, if_false] at htop
    rw [htop]
    rfl
  | some p =>
    rw [h.switching.away c p hon]
    rfl

variable [DecidableEq Cpu]

/-- A device interrupt begins or ends on a CPU that holds nothing. -/
theorem Core.setIntr {b : Bool} (h : Core strict s g) (hnoff : s.noff c = 0)
    (hbase : (g (base s c)).toHold = {}) (hhold : ℓ.toHold = {}) (hme : b = true → ℓ.me = s.on c) :
    Core strict { s with intr := Function.update s.intr c b } (Function.update g (.irq c) ℓ) := by
  have hsw := h.switching
  have hfresh : ∀ p, s.on c = some p → s.fresh p = false := fun p hon => h.locks.not_fresh hnoff hon
  have hnot : ∀ c', base s c' ≠ .irq c := by
    intro c'
    simp only [base]
    split
    · rintro ⟨⟩
    · split <;> (intro h; cases h)
  have hsame : ∀ c', Function.update g (.irq c) ℓ (base s c') = g (base s c') := fun c' =>
    Function.update_of_ne (hnot c') _ _
  have hholds : ∀ c', holds { s with intr := Function.update s.intr c b }
      (Function.update g (.irq c) ℓ) c' = holds s g c' := by
    intro c'
    by_cases hc : c' = c
    · subst hc
      rw [h.locks.holds_nothing hnoff]
      rw [holds_of_not_fresh (s := { s with intr := Function.update s.intr c' b }) hfresh]
      cases b with
      | false =>
        have htop : top { s with intr := Function.update s.intr c' false } c' = base s c' := by
          simp only [top, Function.update_self, Bool.false_eq_true, if_false]
          rfl
        rw [htop, hsame]
        exact hbase
      | true =>
        have htop : top { s with intr := Function.update s.intr c' true } c' = .irq c' := by
          simp only [top, Function.update_self, if_true]
        rw [htop, Function.update_self]
        exact hhold
    · have htop : top { s with intr := Function.update s.intr c b } c' = top s c' := by
        simp only [top, Function.update_of_ne hc]
        rfl
      refine holds_congr rfl (fun _ _ => rfl) ?_
      rw [htop, Function.update_of_ne]
      simp only [top]
      split
      · simpa using hc
      · exact hnot c'
  refine ⟨⟨hsw.loaded, ?_, ?_, ?_, ?_, ?_, ?_, ?_, ?_⟩, h.locks.rehold rfl rfl hholds, fun q => ?_⟩
  · simpa using hsw.away
  · simpa using hsw.alive
  · intro c' p hon hf
    have hne : c' ≠ c := by
      rintro rfl
      dsimp only at hf hon
      rw [hfresh p hon] at hf
      cases hf
    dsimp only
    rw [Function.update_of_ne hne, Function.update_of_ne (by simp)]
    exact hsw.fresh c' p hon hf
  · simpa using hsw.trapped
  · simpa using hsw.untrapped
  · intro c' hi
    refine ⟨(congrArg Local.toHold (hsame c')).trans ?_, ?_⟩
    · by_cases hc : c' = c
      · rw [hc]
        exact hbase
      · dsimp only at hi
        rw [Function.update_of_ne hc] at hi
        exact (hsw.stopped c' hi).1
    · by_cases hc : c' = c
      · subst hc
        dsimp only at hi
        rw [Function.update_self] at hi ⊢
        exact hme hi
      · dsimp only at hi
        rw [Function.update_of_ne hc] at hi
        rw [Function.update_of_ne (by simpa using hc)]
        exact (hsw.stopped c' hi).2
  · intro c' hi
    by_cases hc : c' = c
    · subst hc
      rw [Function.update_self]
      exact hhold
    · dsimp only at hi
      rw [Function.update_of_ne hc] at hi
      rw [Function.update_of_ne (by simpa using hc)]
      exact hsw.calm c' hi
  · simpa using hsw.assigned
  · refine (h.entry q).keep rfl ?_ ?_
    · simp [view]
    · intro c' st _ hst
      rwa [hholds]

end interrupts

section contexts

/-- What a process that is ready finds when it is switched to. -/
structure Finds (s : State Cpu) (g : Ghost Cpu) (p : Slot) : Prop where
  unloaded : s.loc p = none
  there : s.ctx p ≠ .gone
  alive : s.ctx p = .forkret ↔ (g (.proc p)).alive = false
  fresh : s.ctx p = .forkret → s.trapped p = false ∧ (g (.proc p)).toHold = {}
  trapped : s.trapped p = true → (g (.proc p)).toHold = {}
  resumes : s.ctx p ≠ .forkret → (g (if s.trapped p then .trap p else .proc p)).toHold = .resume p

theorem View.Ready.finds (h : (view s g p).Ready p) : Finds s g p := by
  have hloc : s.loc p = none := h.elim (·.1) (·.1.1)
  have hparked : (view s g p).parked = some (g (.proc p), g (.trap p)) := by
    simp only [view, hloc, if_true]
  rcases h with ⟨-, hctx, ℓ₁, ℓ₂, hp, halive, huntr, htr⟩ | ⟨⟨-, hutr, ℓ₁, ℓ₂, hp, hdead, hempty⟩, hctx⟩
  · rw [hparked] at hp
    cases hp
    have hne : s.ctx p ≠ .forkret := by
      rw [show s.ctx p = .saved from hctx]
      decide
    refine ⟨hloc, ?_, ⟨fun hx => absurd hx hne, fun hx => ?_⟩, fun hx => absurd hx hne,
      fun hx => (htr hx).1, fun _ => ?_⟩
    · rw [show s.ctx p = .saved from hctx]
      decide
    · rw [halive] at hx
      cases hx
    · split
      · rename_i hx
        exact (htr hx).2
      · rename_i hx
        exact huntr (Bool.eq_false_iff.2 hx)
  · rw [hparked] at hp
    cases hp
    have hctx' : s.ctx p = .forkret := hctx
    have hutr' : s.trapped p = false := hutr
    refine ⟨hloc, ?_, ⟨fun _ => hdead, fun _ => hctx'⟩, fun _ => ⟨hutr', hempty⟩, fun _ => hempty,
      fun hx => absurd hctx' hx⟩
    rw [hctx']
    decide

theorem base_ne_sched {c' : Cpu} (hc : c' ≠ c) : base s c' ≠ .sched c := by
  simp only [base]
  split
  · simpa using hc
  · split <;> (intro h; cases h)

theorem Switching.not_on (h : Switching s g) (hloc : s.loc p = none) (c' : Cpu) : s.on c' ≠ some p := by
  intro hon
  rw [(h.loaded c' p).1 hon] at hloc
  exact nomatch hloc

variable [DecidableEq Cpu]

theorem base_load_of_ne {c' : Cpu} (hc : c' ≠ c) : base (load c p s) c' = base s c' := by
  simp only [base, load, Function.update_of_ne hc]
  rfl

theorem Switching.holds_load_of_ne (h : Switching s g) (hloc : s.loc p = none) {c' : Cpu} (hc : c' ≠ c) :
    holds (load c p s) (Function.update g (.sched c) ℓ) c' = holds s g c' := by
  refine holds_congr (Function.update_of_ne hc _ _) ?_ ?_
  · intro q hq
    exact Function.update_of_ne (by rintro rfl; exact h.not_on hloc c' hq) _ _
  · have htop : top (load c p s) c' = top s c' := by
      simp only [top, base_load_of_ne hc]
      rfl
    rw [htop, Function.update_of_ne]
    simp only [top]
    split
    · rintro ⟨⟩
    · exact base_ne_sched hc

theorem Finds.holds_load (h : Finds s g p) (hcalm : s.intr c = false) :
    holds (load c p s) (Function.update g (.sched c) ℓ) c = .resume p := by
  simp only [holds, load, Function.update_self, decide_eq_true_eq]
  split
  · rfl
  · rename_i hctx
    simp only [top, hcalm, Bool.false_eq_true, if_false, base, Function.update_self]
    rw [Function.update_of_ne (by split <;> (intro h; cases h))]
    exact h.resumes hctx

theorem Switching.load (h : Switching s g) (hf : Finds s g p) (hart : hart s (.sched c) = some c)
    (hwork : (g (.sched c)).work = some (p, .armed)) (hℓ : ℓ.toHold = .returned p) :
    Switching (load c p s) (Function.update g (.sched c) ℓ) := by
  obtain ⟨-, hidle, hcalm⟩ := hart_sched.1 hart
  have hnot := h.not_on hf.unloaded
  -- a process that is loaded is `p` here, or another one elsewhere
  have hcases : ∀ c' q, (Source.Ptable.load c p s).on c' = some q →
      c' = c ∧ q = p ∨ c' ≠ c ∧ q ≠ p ∧ s.on c' = some q := by
    intro c' q hon
    by_cases hc : c' = c
    · subst hc
      simp only [Source.Ptable.load, Function.update_self] at hon
      exact .inl ⟨rfl, (Option.some.inj hon).symm⟩
    · simp only [Source.Ptable.load, Function.update_of_ne hc] at hon
      exact .inr ⟨hc, by rintro rfl; exact hnot c' hon, hon⟩
  refine ⟨?_, ?_, ?_, ?_, ?_, ?_, ?_, ?_, ?_⟩
  · intro c' q
    simp only [Source.Ptable.load]
    by_cases hc : c' = c
    · subst hc
      rw [Function.update_self]
      by_cases hq : q = p
      · subst hq
        simp
      · rw [Function.update_of_ne hq, ← h.loaded, hidle]
        simp [Ne.symm hq]
    · rw [Function.update_of_ne hc]
      by_cases hq : q = p
      · subst hq
        simp [hnot c', Ne.symm hc]
      · rw [Function.update_of_ne hq]
        exact h.loaded c' q
  · intro c' q hon
    rcases hcases c' q hon with ⟨rfl, rfl⟩ | ⟨hc, -, hon'⟩
    · rw [Function.update_self]
      exact hℓ
    · rw [Function.update_of_ne (by simpa using hc)]
      exact h.away c' q hon'
  · intro c' q hon
    rw [Function.update_of_ne (by nofun)]
    rcases hcases c' q hon with ⟨rfl, rfl⟩ | ⟨-, hq, hon'⟩
    · simpa [Source.Ptable.load] using hf.alive
    · simp only [Source.Ptable.load, Function.update_of_ne hq]
      exact h.alive c' q hon'
  · intro c' q hon hfresh
    rw [Function.update_of_ne (by nofun)]
    rcases hcases c' q hon with ⟨rfl, rfl⟩ | ⟨-, hq, hon'⟩
    · have hctx : s.ctx q = .forkret := by simpa [Source.Ptable.load] using hfresh
      exact ⟨(hf.fresh hctx).1, hcalm, (hf.fresh hctx).2⟩
    · simp only [Source.Ptable.load, Function.update_of_ne hq] at hfresh
      exact h.fresh c' q hon' hfresh
  · intro c' q hon htr
    rw [Function.update_of_ne (by nofun)]
    rcases hcases c' q hon with ⟨rfl, rfl⟩ | ⟨-, -, hon'⟩
    · exact hf.trapped htr
    · exact h.trapped c' q hon' htr
  · intro q htr
    rw [Function.update_of_ne (by nofun)]
    exact h.untrapped q htr
  · intro c' hi
    have hc : c' ≠ c := by
      rintro rfl
      rw [show s.intr c' = true from hi] at hcalm
      exact nomatch hcalm
    rw [base_load_of_ne hc, Function.update_of_ne (base_ne_sched hc), Function.update_of_ne (by nofun)]
    simp only [Source.Ptable.load, Function.update_of_ne hc]
    exact h.stopped c' hi
  · intro c' hi
    rw [Function.update_of_ne (by nofun)]
    exact h.calm c' hi
  · intro c'
    refine (h.assigned c').trans ?_
    by_cases hc : c' = c
    · subst hc
      rw [Function.update_self, hℓ, hwork]
      rfl
    · rw [Function.update_of_ne (by simpa using hc)]

/-- The scheduler switches to the process it has chosen. -/
theorem Core.load (h : Core strict s g) (hart : hart s (.sched c) = some c)
    (hlocks : (g (.sched c)).locks = [.proc p]) (hwork : (g (.sched c)).work = some (p, .armed))
    (hℓ : ℓ.toHold = .returned p) : Core strict (load c p s) (Function.update g (.sched c) ℓ) := by
  have heq := h.switching.holds_eq hart (g := g) nofun
  obtain ⟨hlock, hstate, hready, hliving⟩ := h.shape (heq ▸ hwork)
  have hf := hready.finds
  have hhere := hf.holds_load (ℓ := ℓ) (hart_sched.1 hart).2.2
  have hother : ∀ c', c' ≠ c → _ = holds s g c' := fun c' hc =>
    h.switching.holds_load_of_ne (ℓ := ℓ) hf.unloaded hc
  refine ⟨h.switching.load hf hart hwork hℓ, h.locks.relabel rfl rfl ?_ ?_, fun q => ?_⟩
  · intro c'
    by_cases hc : c' = c
    · subst hc
      rw [hhere, heq, hlocks]
      rfl
    · rw [hother c' hc]
  · intro c' q
    by_cases hc : c' = c
    · subst hc
      rw [hhere, heq, hwork]
      simp [Hold.resume]
    · rw [hother c' hc]
  · by_cases hq : q = p
    · subst hq
      refine Entry.of_held hlock (show _ = some (_, .mine) from congrArg Hold.work hhere) ?_
      refine ⟨hstate, ⟨?_, ?_⟩, hliving⟩
      · simp only [view, Source.Ptable.load, Function.update_self]
      · simp only [view, Source.Ptable.load, Function.update_self]
    · refine (h.entry q).keep rfl ?_ ?_
      · simp [view, Source.Ptable.load, Function.update_of_ne hq]
      · intro c' st hc' hst
        by_cases hc : c' = c
        · subst hc
          rw [heq, hwork] at hst
          cases hst
          exact absurd rfl hq
        · rwa [hother c' hc]

variable {t : Thread Cpu}

omit [DecidableEq Cpu] in
/-- The thread of a process that is on top. -/
theorem self_top (hself : self t = some p) (hart : hart s t = some c) :
    s.loc p = some c ∧ s.intr c = false ∧ t = if s.trapped p then .trap p else .proc p := by
  cases t with
  | proc q =>
    cases hself
    obtain ⟨hl, htr, hi⟩ := hart_proc.1 hart
    exact ⟨hl, hi, by simp [htr]⟩
  | trap q =>
    cases hself
    obtain ⟨hl, htr, hi⟩ := hart_trap.1 hart
    exact ⟨hl, hi, by simp [htr]⟩
  | sched c' => exact nomatch hself
  | irq c' => exact nomatch hself

omit [DecidableEq Cpu] in
/-- A process whose thread moves has run `forkret`. -/
theorem Switching.alive_of_moves (h : Switching s g) (hm : Moves s g t c) (hself : self t = some p) :
    s.fresh p = false ∧ (g (.proc p)).alive = true := by
  obtain ⟨hloc, -, ht⟩ := self_top hself hm.hart
  have hon := (h.loaded c p).2 hloc
  have hfresh : s.fresh p ≠ true := by
    intro hf
    rw [(h.fresh c p hon hf).1] at ht
    have halive := hm.live p (by simpa using ht)
    rw [ht] at halive
    have hdead := (h.alive c p hon).1 hf
    rw [show (g (.proc p)).alive = true by simpa using halive] at hdead
    exact nomatch hdead
  refine ⟨Bool.eq_false_iff.2 hfresh, ?_⟩
  rcases Bool.eq_false_or_eq_true (g (.proc p)).alive with hx | hx
  · exact hx
  · exact absurd ((h.alive c p hon).2 hx) hfresh

theorem base_save_of_ne {c' : Cpu} (hc : c' ≠ c) : base (save c p s) c' = base s c' := by
  simp only [base, save, Function.update_of_ne hc]
  rfl

theorem Switching.save (h : Switching s g) (hm : Moves s g t c) (hself : self t = some p) :
    Switching (save c p s) (Function.update g t ℓ) := by
  obtain ⟨hloc, hcalm, ht⟩ := self_top hself hm.hart
  have hon := (h.loaded c p).2 hloc
  have hcases : ∀ c' q, (Source.Ptable.save c p s).on c' = some q →
      c' ≠ c ∧ q ≠ p ∧ s.on c' = some q := by
    intro c' q hon'
    by_cases hc : c' = c
    · subst hc
      simp only [Source.Ptable.save, Function.update_self] at hon'
      exact nomatch hon'
    · simp only [Source.Ptable.save, Function.update_of_ne hc] at hon'
      refine ⟨hc, ?_, hon'⟩
      rintro rfl
      have hl := (h.loaded c' q).1 hon'
      rw [hloc] at hl
      exact hc (Option.some.inj hl).symm
  have hproc : ∀ q, q ≠ p → Thread.proc q ≠ t := by
    rintro q hq rfl
    exact hq (Option.some.inj hself)
  have hsched : ∀ c', Thread.sched c' ≠ t := by
    rintro c' rfl
    exact nomatch hself
  have hirq : ∀ c', Thread.irq c' ≠ t := by
    rintro c' rfl
    exact nomatch hself
  refine ⟨?_, ?_, ?_, ?_, ?_, ?_, ?_, ?_, ?_⟩
  · intro c' q
    simp only [Source.Ptable.save]
    by_cases hc : c' = c
    · subst hc
      rw [Function.update_self]
      by_cases hq : q = p
      · subst hq
        simp
      · rw [Function.update_of_ne hq, ← h.loaded, hon]
        simp [Ne.symm hq]
    · rw [Function.update_of_ne hc]
      by_cases hq : q = p
      · subst hq
        rw [Function.update_self, h.loaded, hloc]
        simp [Ne.symm hc]
      · rw [Function.update_of_ne hq]
        exact h.loaded c' q
  · intro c' q hon'
    rw [Function.update_of_ne (hsched c')]
    exact h.away c' q (hcases c' q hon').2.2
  · intro c' q hon'
    obtain ⟨-, hq, hon''⟩ := hcases c' q hon'
    rw [Function.update_of_ne (hproc q hq)]
    exact h.alive c' q hon''
  · intro c' q hon' hf
    obtain ⟨-, hq, hon''⟩ := hcases c' q hon'
    rw [Function.update_of_ne (hproc q hq)]
    exact h.fresh c' q hon'' hf
  · intro c' q hon' htr
    obtain ⟨-, hq, hon''⟩ := hcases c' q hon'
    rw [Function.update_of_ne (hproc q hq)]
    exact h.trapped c' q hon'' htr
  · intro q htr
    rw [Function.update_of_ne ?_]
    · exact h.untrapped q htr
    rintro rfl
    have hx : s.trapped q = false := htr
    rw [(hart_trap.1 hm.hart).2.1] at hx
    exact nomatch hx
  · intro c' hi
    have hc : c' ≠ c := by
      rintro rfl
      rw [show s.intr c' = true from hi] at hcalm
      exact nomatch hcalm
    have hne : base s c' ≠ t := by
      rintro rfl
      exact h.base_stopped hi hm.hart
    rw [base_save_of_ne hc, Function.update_of_ne hne, Function.update_of_ne (hirq c')]
    simp only [Source.Ptable.save, Function.update_of_ne hc]
    exact h.stopped c' hi
  · intro c' hi
    rw [Function.update_of_ne (hirq c')]
    exact h.calm c' hi
  · intro c'
    rw [Function.update_of_ne (hsched c')]
    exact h.assigned c'

/-- What a process leaves behind: where it will go on, or nothing. -/
structure Leaves (t : Thread Cpu) (p : Slot) (st : ProcState) (alive : Bool) (ℓ : Local) : Prop where
  resumes : st ≠ .zombie → ℓ.toHold = .resume p ∧ ℓ.alive = alive
  gone : st = .zombie → t = .proc p ∧ ℓ.toHold = {} ∧ ℓ.alive = false

/-- The entry of a process that has switched to the scheduler. -/
theorem View.back {st : ProcState} (h : Switching s g) (hm : Moves s g t c) (hself : self t = some p)
    (hshape : (view s g p).Shape strict p c (.leaving st)) (hℓ : Leaves t p st (g t).alive ℓ) :
    (view (save c p s) (Function.update g t ℓ) p).Shape strict p c .back := by
  obtain ⟨hloc, -, ht⟩ := self_top hself hm.hart
  have hon := (h.loaded c p).2 hloc
  obtain ⟨-, hstate, hrest⟩ := hshape
  have hstate' : s.state p = st := hstate
  have hview : view (save c p s) (Function.update g t ℓ) p = { view s g p with
      ctx := .saved
      loc := none
      parked := some (Function.update g t ℓ (.proc p), Function.update g t ℓ (.trap p)) } := by
    simp [view, save]
  rw [hview]
  have hresumable : st ≠ .zombie → ({ view s g p with
      ctx := .saved
      loc := none
      parked := some (Function.update g t ℓ (.proc p), Function.update g t ℓ (.trap p)) } :
      View Cpu).Resumable p := by
    intro hst
    obtain ⟨hhold, halive⟩ := hℓ.resumes hst
    refine ⟨rfl, rfl, _, _, rfl, ?_, ?_, ?_⟩
    · by_cases htp : .proc p = t
      · rw [htp, Function.update_self, halive]
        exact hm.live p htp.symm
      · rw [Function.update_of_ne htp]
        exact (h.alive_of_moves hm hself).2
    · intro htr
      have hx : s.trapped p = false := htr
      have htp : t = .proc p := by simpa [hx] using ht
      subst htp
      rw [Function.update_self]
      exact hhold
    · intro htr
      have hx : s.trapped p = true := htr
      have htp : t = .trap p := by simpa [hx] using ht
      subst htp
      rw [Function.update_self, Function.update_of_ne (by intro h; cases h)]
      exact ⟨h.trapped c p hon hx, hhold⟩
  rcases hrest with ⟨rfl | rfl, hliving⟩ | ⟨rfl, hexited⟩
  · refine ⟨by simp [hstate], ?_⟩
    simp only [View.Rest, hstate]
    exact ⟨.inl (hresumable (by rintro ⟨⟩)), hliving⟩
  · refine ⟨by simp [hstate], ?_⟩
    simp only [View.Rest, hstate]
    exact ⟨hresumable (by rintro ⟨⟩), hliving⟩
  · obtain ⟨rfl, hhold, hdead⟩ := hℓ.gone rfl
    refine ⟨by simp [hstate], ?_⟩
    simp only [View.Rest, hstate]
    refine ⟨⟨rfl, (hart_proc.1 hm.hart).2.1, _, _, rfl, ?_, ?_⟩, hexited⟩
    · rw [Function.update_self]
      exact hdead
    · rw [Function.update_self]
      exact hhold

/-- A process that holds its own lock only switches to the scheduler. -/
theorem Core.save {st : ProcState} (h : Core strict s g) (hm : Moves s g t c) (hself : self t = some p)
    (hlocks : (g t).locks = [.proc p]) (hwork : (g t).work = some (p, .leaving st))
    (hℓ : Leaves t p st (g t).alive ℓ) : Core strict (save c p s) (Function.update g t ℓ) := by
  obtain ⟨hloc, hcalm, -⟩ := self_top hself hm.hart
  have hsw := h.switching
  have hon := (hsw.loaded c p).2 hloc
  have heq := h.holds_eq hm
  obtain ⟨hlock, hshape⟩ := h.own_shape hm hwork
  have hhere : holds (Source.Ptable.save c p s) (Function.update g t ℓ) c = .returned p := by
    simp only [holds, top, base, Source.Ptable.save, Function.update_self, hcalm, Bool.false_eq_true, if_false]
    rw [Function.update_of_ne (by rintro rfl; cases hself)]
    exact hsw.away c p hon
  have hother : ∀ c', c' ≠ c → holds (Source.Ptable.save c p s) (Function.update g t ℓ) c' = holds s g c' := by
    intro c' hc
    rw [← hsw.holds_other (ℓ := ℓ) hm.hart hc]
    refine holds_congr (Function.update_of_ne hc _ _) (fun _ _ => rfl) ?_
    have htop : top (Source.Ptable.save c p s) c' = top s c' := by
      simp only [top, base_save_of_ne hc]
      rfl
    rw [htop]
  refine ⟨hsw.save hm hself, h.locks.relabel rfl rfl ?_ ?_, fun q => ?_⟩
  · intro c'
    by_cases hc : c' = c
    · subst hc
      rw [hhere, heq, hlocks]
      rfl
    · rw [hother c' hc]
  · intro c' q
    by_cases hc : c' = c
    · subst hc
      rw [hhere, heq, hwork]
      simp [Hold.returned]
    · rw [hother c' hc]
  · by_cases hq : q = p
    · subst hq
      exact Entry.of_held hlock (show _ = some (_, .back) from congrArg Hold.work hhere) (View.back hsw hm hself hshape hℓ)
    · refine (h.entry q).keep rfl ?_ ?_
      · rw [← view_update (ℓ := ℓ) hm.hart q]
        simp [view, Source.Ptable.save, Function.update_of_ne hq]
      · intro c' st' hc' hst
        by_cases hc : c' = c
        · subst hc
          rw [heq, hwork] at hst
          cases hst
          exact absurd rfl hq
        · rwa [hother c' hc]

/-- A new process runs `forkret`. -/
theorem Core.forkret (h : Core strict s g) (hart : hart s (.proc p) = some c) (hfresh : s.fresh p = true)
    (hhold : ℓ.toHold = .resume p) (halive : ℓ.alive = true) :
    Core strict { s with fresh := Function.update s.fresh p false } (Function.update g (.proc p) ℓ) := by
  obtain ⟨hloc, hutr, hcalm⟩ := hart_proc.1 hart
  have hsw := h.switching
  have hon := (hsw.loaded c p).2 hloc
  have honly : ∀ c', s.on c' = some p → c' = c := by
    intro c' hon'
    have hl := (hsw.loaded c' p).1 hon'
    rw [hloc] at hl
    exact (Option.some.inj hl).symm
  have hproc : ∀ c' q, s.on c' = some q → c' ≠ c → q ≠ p := by
    rintro c' q hon' hc rfl
    exact hc (honly c' hon')
  have hholds : ∀ c', holds { s with fresh := Function.update s.fresh p false }
      (Function.update g (.proc p) ℓ) c' = holds s g c' := by
    intro c'
    by_cases hc : c' = c
    · subst hc
      simp only [holds, hon, hfresh, if_true, Function.update_self, Bool.false_eq_true, if_false, top,
        hcalm, base, hutr]
      exact hhold
    · rw [← hsw.holds_other (ℓ := ℓ) hart hc]
      refine holds_congr rfl ?_ rfl
      intro q hq
      exact Function.update_of_ne (hproc c' q hq hc) _ _
  refine ⟨⟨hsw.loaded, ?_, ?_, ?_, ?_, ?_, ?_, ?_, ?_⟩, h.locks.rehold rfl rfl hholds, fun q => ?_⟩
  · intro c' q hon'
    rw [Function.update_of_ne (by intro h; cases h)]
    exact hsw.away c' q hon'
  · intro c' q hon'
    by_cases hq : q = p
    · subst hq
      simp [halive]
    · dsimp only
      rw [Function.update_of_ne hq, Function.update_of_ne (by simpa using hq)]
      exact hsw.alive c' q hon'
  · intro c' q hon' hf
    by_cases hq : q = p
    · subst hq
      simp at hf
    · dsimp only at hf
      rw [Function.update_of_ne hq] at hf
      rw [Function.update_of_ne (by simpa using hq)]
      exact hsw.fresh c' q hon' hf
  · intro c' q hon' htr
    have hq : q ≠ p := by
      rintro rfl
      rw [show s.trapped q = true from htr] at hutr
      cases hutr
    rw [Function.update_of_ne (by simpa using hq)]
    exact hsw.trapped c' q hon' htr
  · intro q htr
    rw [Function.update_of_ne (by intro h; cases h)]
    exact hsw.untrapped q htr
  · intro c' hi
    have hne : base s c' ≠ .proc p := by
      intro hb
      apply hsw.base_stopped hi
      rw [hb]
      exact hart
    refine ⟨?_, ?_⟩
    · exact (congrArg Local.toHold (Function.update_of_ne hne _ _)).trans (hsw.stopped c' hi).1
    · rw [Function.update_of_ne (by intro h; cases h)]
      exact (hsw.stopped c' hi).2
  · intro c' hi
    rw [Function.update_of_ne (by intro h; cases h)]
    exact hsw.calm c' hi
  · intro c'
    rw [Function.update_of_ne (by intro h; cases h)]
    exact hsw.assigned c'
  · refine (h.entry q).keep rfl ?_ ?_
    · rw [← view_update (ℓ := ℓ) hart q]
      rfl
    · intro c' st _ hst
      rwa [hholds]

end contexts

end Xv6.Ptable
