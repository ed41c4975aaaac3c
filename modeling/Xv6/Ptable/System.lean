import Xv6.Ptable.Births

/-!
# Runs of the process table

Any kernel code that takes and gives back its own locks keeps the invariant, and so do
interrupts; the invariant holds from boot on, in every run.
-/
namespace Xv6.Ptable

open Xv6.Library Xv6.Library.Thread Xv6.Source.Ptable

variable {Cpu : Type} [DecidableEq Cpu] {strict : Prop} {t : Thread Cpu} {ℓ : Local} {me : Slot}

/-! ## Other kernel code -/

def others (ls : List Nat) : List Lock := ls.map .other

theorem others_erase (ls : List Nat) (n : Nat) : (others ls).erase (.other n) = others (ls.erase n) :=
  (List.map_erase (fun _ _ heq => Lock.other.inj heq) ls).symm

theorem wait_notMem_others (ls : List Nat) : Lock.wait ∉ others ls := by
  simp [others]

theorem runs_kernel {as : List Action} {ls ls' : List Nat} (h : heldAfter as ls = some ls') :
    Runs strict (.proc me : Thread Cpu) (kernel me as) { alive := true, locks := others ls } fun _ ℓ' =>
      ℓ' = { alive := true, locks := others ls' } := by
  have hlive : ∀ {ℓ : Local}, ℓ.alive = true → Live (.proc me : Thread Cpu) ℓ := fun h => live_proc h
  induction as generalizing ls with
  | nil =>
    cases h
    exact Safe.ret rfl
  | cons a as ih =>
    cases a with
    | acquire n =>
      refine runs_act (does_acquire nofun nofun (hlive rfl)) ?_
      rintro _ _ rfl
      exact ih h
    | release n =>
      rw [heldAfter] at h
      split at h
      · refine runs_act (does_release nofun nofun (hlive rfl)) ?_
        rintro _ _ rfl
        rw [others_erase]
        exact ih h
      · exact nomatch h
    | sleep chan lk =>
      rw [heldAfter] at h
      split at h
      · rename_i hmem
        refine Safe.bind (runs_sleep rfl rfl rfl (wait_notMem_others ls) ?_) ?_
        · exact List.mem_map_of_mem hmem
        rintro _ _ rfl
        exact ih h
      · exact nomatch h
    | wakeup chan =>
      refine Safe.bind (runs_wakeup _ ⟨rfl, rfl, hlive rfl, rfl⟩) ?_
      rintro _ _ rfl
      exact ih h

/-! ## Interrupts -/

theorem runs_handle {c : Cpu} {alive : Bool} {who : Option Slot} {as : List Action} {ls ls' : List Nat}
    (h : heldAfter as ls = some ls') :
    Runs strict (.irq c) (handle who as) { alive := alive, me := who, locks := others ls } fun _ ℓ' =>
      ℓ' = { alive := alive, me := who, locks := others ls' } := by
  induction as generalizing ls with
  | nil =>
    cases h
    exact Safe.ret rfl
  | cons a as ih =>
    cases a with
    | acquire n =>
      refine runs_act (does_acquire nofun nofun nofun) ?_
      rintro _ _ rfl
      exact ih h
    | release n =>
      rw [heldAfter] at h
      split at h
      · refine runs_act (does_release nofun nofun nofun) ?_
        rintro _ _ rfl
        rw [others_erase]
        exact ih h
      · exact nomatch h
    | sleep chan lk =>
      rw [heldAfter] at h
      split at h
      · exact ih h
      · exact nomatch h
    | wakeup chan =>
      refine Safe.bind (runs_wakeup _ ⟨rfl, rfl, nofun, rfl⟩) ?_
      rintro _ _ rfl
      exact ih h

theorem runs_handler {c : Cpu} {alive : Bool} {as : List Action} (h : heldAfter as [] = some []) :
    Runs strict (.irq c) (handler as) { alive := alive } fun _ ℓ' => ℓ' = { alive := alive } := by
  refine runs_act (does_irqBegin rfl) ?_
  rintro who _ rfl
  refine Safe.bind (runs_handle h) ?_
  rintro _ _ rfl
  exact runs_last (does_irqEnd rfl) fun _ _ heq => heq

theorem runs_timer {alive : Bool} :
    Runs strict (.trap me : Thread Cpu) (timer me) { alive := alive } fun _ ℓ' => ℓ' = { alive := alive } := by
  refine runs_act (does_trapBegin rfl) ?_
  rintro _ _ rfl
  refine Safe.bind (runs_yield rfl rfl rfl nofun) ?_
  rintro _ _ rfl
  exact runs_last (does_trapEnd rfl) fun _ _ heq => heq

/-! ## Whole runs -/

theorem runs_call (call : Call) :
    Runs strict (.proc me : Thread Cpu) (call.code me) idle fun _ ℓ' => ℓ' = idle := by
  cases call with
  | fork memory copied => exact Safe.bind runs_fork fun _ _ heq => Safe.ret heq
  | exit status => exact runs_exit
  | wait copied rounds => exact Safe.bind runs_wait fun _ _ heq => Safe.ret heq
  | kill pid => exact Safe.bind (runs_kill rfl rfl (live_proc rfl)) fun _ _ heq => Safe.ret heq
  | fault => exact runs_setkilled rfl rfl rfl
  | killed => exact Safe.bind (runs_killed rfl rfl) fun _ _ heq => Safe.ret heq
  | kernel as balanced => exact runs_kernel balanced

/-- What a thread knows between two calls. -/
def Local.Quiet (ℓ : Local) : Prop := ∃ alive, ℓ = { alive := alive }

theorem runs_starts {code : Code Unit} (h : Starts t code) (hq : ℓ.Quiet) :
    Runs strict t code ℓ fun _ => Local.Quiet := by
  obtain ⟨alive, rfl⟩ := hq
  cases h with
  | scheduler c => exact Safe.mono (runs_schedulerLoop rfl rfl rfl) fun _ _ heq => ⟨alive, heq⟩
  | forkret p => exact Safe.mono (runs_forkret rfl) fun _ _ heq => ⟨true, heq⟩
  | call p call =>
    refine runs_act does_enter ?_
    rintro _ _ ⟨rfl, halive⟩
    cases halive
    exact Safe.mono (runs_call call) fun _ _ heq => ⟨true, heq⟩
  | timer p => exact Safe.mono runs_timer fun _ _ heq => ⟨alive, heq⟩
  | handler c as balanced => exact Safe.mono (runs_handler balanced) fun _ _ heq => ⟨alive, heq⟩

/-- The table and the programs of its threads. -/
abbrev Configuration (Cpu : Type) := Config (Thread Cpu) (State Cpu) Op Ret Unit

def start (Cpu : Type) : Configuration Cpu := ⟨boot Cpu, fun _ => none⟩

abbrev Machine (Cpu : Type) [DecidableEq Cpu] (guard : Thread Cpu → Op → State Cpu → Prop) :=
  Step (α := Unit) perform guard fun (_ : State Cpu) => Starts

omit [DecidableEq Cpu] in
theorem boot_core : Core strict (boot Cpu) fun _ => {} where
  switching := by
    refine ⟨fun c p => ?_, nofun, nofun, nofun, nofun, fun _ _ => rfl, nofun, fun _ _ => rfl, fun _ => rfl⟩
    exact ⟨nofun, nofun⟩
  locks := by
    refine ⟨fun c l => ?_, fun c => rfl, fun c => List.nodup_nil, fun c p => ?_⟩
    · exact ⟨nofun, nofun⟩
    · exact ⟨nofun, nofun⟩
  entry p := by
    have hvacant : (view (boot Cpu) (fun _ => {}) p).Vacant := ⟨rfl, rfl, {}, {}, rfl, rfl, rfl⟩
    show (view (boot Cpu) (fun _ => {}) p).Rest strict p
    by_cases hp : p = init
    · have hstate : (view (boot Cpu) (fun _ => {}) p).state = .runnable := if_pos hp
      simp only [View.Rest, hstate]
      exact ⟨.inr ⟨hvacant, if_pos hp⟩, rfl, fun hne => absurd hp hne⟩
    · have hstate : (view (boot Cpu) (fun _ => {}) p).state = .unused := if_neg hp
      simp only [View.Rest, hstate]
      exact ⟨hvacant, rfl, rfl, if_neg hp, fun _ => rfl⟩

omit [DecidableEq Cpu] in
theorem boot_not_pending (p : Slot) (chan : Chan) : ¬ Pending (boot Cpu) (fun _ => {}) p chan := by
  rintro (⟨hsl, -⟩ | ⟨b, hb⟩)
  · by_cases hp : p = init
    · exact nomatch (if_pos hp).symm.trans hsl
    · exact nomatch (if_neg hp).symm.trans hsl
  · exact nomatch hb

omit [DecidableEq Cpu] in
theorem boot_inv : Inv strict (boot Cpu) fun _ => {} where
  core := boot_core
  parents := ⟨nofun, .inl rfl⟩
  children := ⟨nofun, nofun⟩
  waiting := ⟨nofun, nofun⟩
  wakes := ⟨fun _ _ => Nat.le_refl 0, fun _ _ => Nat.le_refl 0,
    fun p chan hp => absurd hp (boot_not_pending p chan), nofun⟩
  kills := ⟨fun _ => rfl, nofun⟩

theorem good_of_run {c : Configuration Cpu} {tr : List (Move (Thread Cpu) Op Unit)}
    (hrun : Transition.Run (Machine Cpu (logic Cpu strict).guard) (start Cpu) tr c) :
    ∃ g, Good perform (logic Cpu strict) Local.Quiet c g := by
  have h₀ : Good perform (logic Cpu strict) Local.Quiet (start Cpu) fun _ => {} :=
    ⟨boot_inv, fun _ _ => ⟨false, rfl⟩, nofun⟩
  exact Good.run (fun _ _ _ _ hstarts hq => runs_starts hstarts hq) h₀ hrun

/-- Any move at all. -/
abbrev anyMove (_ : Thread Cpu) (_ : Op) (_ : State Cpu) : Prop := True

theorem step_of_any {c c' : Configuration Cpu} {m : Move (Thread Cpu) Op Unit}
    (hmove : Machine Cpu anyMove c m c') : Machine Cpu (logic Cpu False).guard c m c' :=
  Step.mono perform (fun _ _ _ _ => False.elim) (fun _ _ _ hstarts => hstarts) hmove

theorem run_of_any {c : Configuration Cpu} {tr : List (Move (Thread Cpu) Op Unit)}
    (hrun : Transition.Run (Machine Cpu anyMove) (start Cpu) tr c) :
    Transition.Run (Machine Cpu (logic Cpu False).guard) (start Cpu) tr c :=
  hrun.mono fun _ _ _ => step_of_any

/-- Every move of a run leaves the table as it is, or is an operation that keeps it in order. -/
theorem orderly_of_run {c c' : Configuration Cpu} {tr : List (Move (Thread Cpu) Op Unit)}
    {m : Move (Thread Cpu) Op Unit}
    (hrun : Transition.Run (Machine Cpu (logic Cpu strict).guard) (start Cpu) tr c)
    (hmove : Machine Cpu (logic Cpu strict).guard c m c') :
    c'.state = c.state ∧ (∀ t op, m ≠ .act t op) ∨
      ∃ t op, m = .act t op ∧ Orderly strict t op c.state c'.state := by
  obtain ⟨g, hgood⟩ := good_of_run hrun
  have hstep := (hgood.move (fun _ _ _ _ hstarts hq => runs_starts hstarts hq) hmove).2
  cases hmove with
  | start => exact .inl ⟨rfl, nofun⟩
  | @act t op => exact .inr ⟨t, op, rfl, hstep t op rfl⟩
  | finish => exact .inl ⟨rfl, nofun⟩

/-! ## Runs that are computed -/

abbrev Play (Cpu : Type) := List (Scene (Thread Cpu) Op Ret Unit)

/-- The scheduler of the CPU switches to init, which runs `forkret`. -/
def initRuns (c : Cpu) : Play Cpu :=
  [.start (.sched c) scheduler, .moves (List.replicate 5 (.sched c)), .start (.proc init) (forkret init),
    .moves (List.replicate 2 (.proc init)), .finish (.proc init)]

/-- A process makes a call, of so many operations. -/
def calls (p : Slot) (call : Call) (n : Nat) : Play Cpu :=
  [.start (.proc p) (do act .enter; call.code p), .moves (List.replicate n (.proc p))]

omit [DecidableEq Cpu] in
theorem starts_initRuns {c : Cpu} {code : Code Unit} (h : .start t code ∈ initRuns c) : Starts t code := by
  simp only [initRuns, List.mem_cons, reduceCtorEq, false_or, List.not_mem_nil, or_false, Scene.start.injEq] at h
  rcases h with ⟨rfl, rfl⟩ | ⟨rfl, rfl⟩
  · exact .scheduler c
  · exact .forkret init

omit [DecidableEq Cpu] in
theorem starts_calls {p : Slot} {call : Call} {n : Nat} {code : Code Unit} (h : .start t code ∈ calls p call n) :
    Starts t code := by
  simp only [calls, List.mem_cons, reduceCtorEq, List.not_mem_nil, or_false, Scene.start.injEq] at h
  obtain ⟨rfl, rfl⟩ := h
  exact .call p call

end Xv6.Ptable
