import Xv6.Ptable.System

/-!
# A process runs on at most one CPU

In every run over any CPUs, a process is the `c->proc` of at most one CPU, and while its lock is
free it is RUNNING exactly if it is the `c->proc` of some. A context is loaded only after the CPU
that last ran the process has saved it, and the entry of a zombie is freed only after the zombie
has left its kernel stack, to which nothing ever returns.
-/
namespace Xv6.Guarantees.OneCpu

open Xv6.Library Xv6.Library.Thread Xv6.Source.Ptable Xv6.Ptable

section
variable {Cpu : Type}

structure Placement (s : State Cpu) : Prop where
  unique : ∀ c c' p, s.cproc c = some p → s.cproc c' = some p → c = c'
  running : ∀ p, s.lock (.proc p) = none → (s.state p = .running ↔ ∃ c, s.cproc c = some p)
  /-- The kernel stack of a process is in use on at most one CPU. -/
  stack : ∀ c c' p, s.on c = some p → s.on c' = some p → c = c'

/-- What a move does with contexts and zombies. -/
structure Switches (m : Move (Thread Cpu) Op Unit) (s s' : State Cpu) : Prop where
  load : ∀ t p, m = .act t (.swtchTo p) → (∀ c, s.on c ≠ some p) ∧ s.ctx p ≠ .gone
  freed : ∀ p, s.state p = .zombie → s'.state p ≠ .zombie → ∀ c, s.on c ≠ some p

variable {strict : Prop} {s : State Cpu} {g : Ghost Cpu} {c c' : Cpu} {p : Slot}

/-- An entry at rest is that of a running process, or loaded nowhere. -/
theorem loc_of_rest {v : View Cpu} (h : v.Rest strict p) (hst : v.state ≠ .running) : v.loc = none := by
  simp only [View.Rest] at h
  cases hv : v.state <;> rw [hv] at h
  case unused => exact h.1.1
  case used => exact h.1.1.1
  case runnable => exact h.1.elim (fun hr => hr.1) fun hu => hu.1.1
  case sleeping => exact h.1.1
  case running => exact absurd hv hst
  case zombie => exact h.1.1

/-- `c->proc` is loaded, or is about to be or has just been. -/
theorem cproc_cases (h : Core strict s g) (hc : s.cproc c = some p) :
    s.on c = some p ∨ s.loc p = none ∧ s.lock (.proc p) = some c := by
  rw [h.switching.assigned c] at hc
  cases hon : s.on c with
  | some p' =>
    have hhold := h.switching.away c p' hon
    rw [show (g (.sched c)).work = some (p', .back) from congrArg Hold.work hhold] at hc
    exact .inl hc
  | none =>
    cases hintr : s.intr c with
    | true =>
      have hbase : base s c = .sched c := by simp only [base, hon]
      have hempty := (h.switching.stopped c hintr).1
      rw [hbase] at hempty
      rw [show (g (.sched c)).work = none from congrArg Hold.work hempty] at hc
      cases hc
    | false =>
      have hm : Moves s g (.sched c) c := ⟨hart_sched.2 ⟨rfl, hon, hintr⟩, by rintro _ ⟨⟩⟩
      refine .inr ?_
      cases hwork : (g (.sched c)).work with
      | none =>
        rw [hwork] at hc
        cases hc
      | some w =>
        obtain ⟨q, st⟩ := w
        obtain ⟨hlock, hshape⟩ := h.own_shape hm hwork
        rw [hwork] at hc
        cases st with
        | armed =>
          cases hc
          exact ⟨hshape.2.1.elim (fun hr => hr.1) fun hu => hu.1.1, hlock⟩
        | back =>
          cases hc
          exact ⟨loc_of_rest hshape.2 hshape.1, hlock⟩
        | _ => cases hc

theorem placement_of_core (h : Core strict s g) : Placement s where
  unique c c' p hc hc' := by
    rcases cproc_cases h hc with hon | ⟨hloc, hlock⟩
    · rcases cproc_cases h hc' with hon' | ⟨hloc', -⟩
      · rw [h.switching.loaded] at hon hon'
        exact Option.some.inj (hon.symm.trans hon')
      · exact nomatch hloc'.symm.trans ((h.switching.loaded c p).1 hon)
    · rcases cproc_cases h hc' with hon' | ⟨-, hlock'⟩
      · exact nomatch hloc.symm.trans ((h.switching.loaded c' p).1 hon')
      · exact Option.some.inj (hlock.symm.trans hlock')
  running p hlock := by
    have hrest := (h.entry p).rest hlock
    constructor
    · intro hrun
      rw [View.Rest, show (view s g p).state = .running from hrun] at hrest
      obtain ⟨⟨c, hloc, -⟩, -⟩ := hrest
      have hwork := congrArg Hold.work (h.switching.away c p ((h.switching.loaded c p).2 hloc))
      exact ⟨c, (h.switching.assigned c).trans (congrArg assigned hwork)⟩
    · rintro ⟨c, hc⟩
      rcases cproc_cases h hc with hon | ⟨-, hheld⟩
      · by_contra hrun
        exact nomatch (loc_of_rest hrest hrun).symm.trans ((h.switching.loaded c p).1 hon)
      · exact nomatch hlock.symm.trans hheld
  stack c c' p hc hc' := by
    rw [h.switching.loaded] at hc hc'
    exact Option.some.inj (hc.symm.trans hc')

theorem not_loaded (h : Core strict s g) (hloc : s.loc p = none) (c : Cpu) : s.on c ≠ some p := fun hon =>
  nomatch hloc.symm.trans ((h.switching.loaded c p).1 hon)

end

variable {Cpu : Type} [DecidableEq Cpu]

theorem process_runs_on_one_cpu {c : Configuration Cpu} {tr : List (Move (Thread Cpu) Op Unit)}
    (hrun : Transition.Run (Machine Cpu anyMove) (start Cpu) tr c) :
    Placement c.state ∧ (∀ m c', Machine Cpu anyMove c m c' → Switches m c.state c'.state) ∧
      ∀ t op k msg, c.prog t = some (.call op k) → perform t op c.state = .panic msg →
        msg ≠ "context" ∧ msg ≠ "zombie exit" := by
  obtain ⟨g, hgood⟩ := good_of_run (run_of_any hrun)
  have hcore : Core False c.state g := hgood.inv.core
  refine ⟨placement_of_core hcore, fun m c' hmove => ?_, fun t op k msg hprog hpanic => ?_⟩
  · rcases orderly_of_run (run_of_any hrun) (step_of_any hmove) with ⟨hsame, hno⟩ | ⟨t, op, rfl, ho⟩
    · refine ⟨fun t p hm => absurd hm (hno t _), fun p hz hnz => ?_⟩
      rw [hsame] at hnz
      exact absurd hz hnz
    · refine ⟨fun t' p hm => ?_, fun p hz hnz => ?_⟩
      · cases hm
        obtain ⟨hloc, hctx⟩ := ho.load p rfl
        exact ⟨not_loaded hcore hloc, hctx⟩
      · exact not_loaded hcore (ho.freed p hz hnz).2
  · exact hgood.no_panic hprog (fun h => h.elim) hpanic

/-- Two CPUs, on one of which the scheduler starts. -/
def scheduling : Configuration (Fin 2) :=
  ⟨boot (Fin 2), Function.update (start (Fin 2)).prog (.sched 0) (some scheduler)⟩

/-- The scheduler has switched to init. -/
def dispatched : Option (Configuration (Fin 2)) :=
  schedule perform (fun _ _ _ => true) (List.replicate 5 (.sched 0)) scheduling

theorem init_runs_on_one_cpu : ∃ c tr, Transition.Run (Machine (Fin 2) anyMove) (start (Fin 2)) tr c ∧
    c.state.cproc 0 = some init ∧ c.state.state init = .running ∧ Placement c.state := by
  have hsome : dispatched.isSome = true := by decide +kernel
  obtain ⟨c, hc⟩ := Option.isSome_iff_exists.mp hsome
  obtain ⟨tr, hrun⟩ := schedule_run perform anyMove (fun _ => Starts) (fun _ _ _ _ => trivial) hc
  have hstart : Machine (Fin 2) anyMove (start (Fin 2)) (.start (.sched 0)) scheduling :=
    .start rfl (.scheduler 0)
  have hall := (Transition.Run.nil.snoc hstart).append hrun
  have hend : dispatched.map (fun c => (c.state.cproc 0, c.state.state init)) =
      some (some init, .running) := by
    decide +kernel
  rw [hc] at hend
  simp only [Option.map_some, Option.some.injEq, Prod.mk.injEq] at hend
  exact ⟨c, _, hall, hend.1, hend.2, (process_runs_on_one_cpu hall).1⟩

end Xv6.Guarantees.OneCpu
