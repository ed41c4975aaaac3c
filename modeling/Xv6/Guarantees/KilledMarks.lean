import Xv6.Ptable.System

/-!
# Who marks a process killed

As long as `kill` is not called with pid 0, a process is marked killed only by a `kill` of its pid
or by its own fault, `kill` returns 0 only if it has marked one process that has the pid and
otherwise changes nothing, and every process starts without the mark. A slot that is not in use
has pid 0, so that `kill(0)` marks it, and `allocproc` keeps the mark.
-/
namespace Xv6.Guarantees.KilledMarks

open Xv6.Library Xv6.Library.Thread Xv6.Source.Ptable Xv6.Ptable

variable {Cpu : Type}

/-- What a step of thread `t` does with `p->killed`. -/
structure Marks (t : Thread Cpu) (op : Op) (s s' : State Cpu) : Prop where
  marked : ∀ p, s.killed p = false → s'.killed p = true → t = .proc p ∧ op = .setKilled p true ∨
    ∃ n, s.kills t = some (s.pid p, n) ∧ s.state p ≠ .unused
  /-- During `kill(pid)`, which has marked `n` processes. -/
  killing : ∀ pid n, s.kills t = some (pid, n) → SameTable s s' ∨
    n = 0 ∧ ∃ p, op = .mark p ∧ s.pid p = pid ∧ s.state p ≠ .unused
  result : ∀ r, op = .killEnd r → ∃ pid n, s.kills t = some (pid, n) ∧ (r = 0 ∧ n = 1 ∨ r = -1 ∧ n = 0)
  born : ∀ p, s.state p = .unused → s'.state p ≠ .unused → s'.killed p = false

/-- No call of `kill` names pid 0. -/
abbrev noneNamed (_ : Thread Cpu) (op : Op) (_ : State Cpu) : Prop := op ≠ .killBegin 0

variable [DecidableEq Cpu]

theorem killed_marks {c c' : Configuration Cpu} {tr : List (Move (Thread Cpu) Op Unit)} {t : Thread Cpu} {op : Op}
    (hrun : Transition.Run (Machine Cpu noneNamed) (start Cpu) tr c)
    (hmove : Machine Cpu noneNamed c (.act t op) c') : Marks t op c.state c'.state := by
  have hstep : ∀ (c : Configuration Cpu) m c', Machine Cpu noneNamed c m c' →
      Machine Cpu (logic Cpu True).guard c m c' :=
    fun _ _ _ => Step.mono perform (fun _ _ _ hne _ => hne) fun _ _ _ hstarts => hstarts
  rcases orderly_of_run (hrun.mono hstep) (hstep _ _ _ hmove) with ⟨-, hno⟩ | ⟨t', op', heq, ho⟩
  · exact absurd rfl (hno t op)
  cases heq
  refine ⟨fun p hf ht => ?_, fun pid n hkills => ?_, ho.result, ho.born trivial⟩
  · refine (ho.marked p hf ht).imp_right ?_
    rintro ⟨n, hkills, hst⟩
    exact ⟨n, hkills, hst trivial⟩
  · refine (ho.killing pid n hkills).imp_right ?_
    rintro ⟨rfl, p, hop, hpid, hst⟩
    exact ⟨rfl, p, hop, hpid, hst trivial⟩

/-! ## A process that kills itself -/

def named (_ : Thread Unit) (op : Op) (_ : State Unit) : Bool :=
  match op with
  | .killBegin pid => decide (pid ≠ 0)
  | _ => true

def marksInit (_ : Thread Unit) (op : Op) (_ : State Unit) : Bool :=
  match op with
  | .mark p => decide (p = init)
  | _ => false

/-- Init has found itself in `kill(1)`. -/
def found : Option (Configuration Unit) :=
  script perform named (initRuns () ++ calls init (.kill 1) 4) (start Unit)

def marked : Option (Configuration Unit) := found.bind (schedule perform marksInit [.proc init])

theorem noneNamed_of_named {t : Thread Unit} {op : Op} {s : State Unit} (h : named t op s = true) :
    noneNamed t op s := by
  rintro rfl
  simp [named] at h

theorem noneNamed_of_marksInit {t : Thread Unit} {op : Op} {s : State Unit} (h : marksInit t op s = true) :
    noneNamed t op s := by
  rintro rfl
  exact nomatch h

theorem killed_marks_init : ∃ c c' tr, Transition.Run (Machine Unit noneNamed) (start Unit) tr c ∧
    Machine Unit noneNamed c (.act (.proc init) (.mark init)) c' ∧
    Marks (.proc init) (.mark init) c.state c'.state := by
  have hsome : marked.isSome = true := by decide +kernel
  obtain ⟨c', h'⟩ := Option.isSome_iff_exists.mp hsome
  obtain ⟨c, h, hmark⟩ := Option.bind_eq_some_iff.1 h'
  obtain ⟨tr, hrun⟩ := script_run perform noneNamed (fun _ => Starts) (fun _ _ _ => noneNamed_of_named)
    (fun t code hmem _ => (List.mem_append.1 hmem).elim starts_initRuns starts_calls) h
  obtain ⟨op, s, hstep, hop⟩ :=
    schedule_one perform noneNamed (fun _ => Starts) (fun _ _ _ => noneNamed_of_marksInit) hmark
  obtain rfl : op = .mark init := by
    cases op with
    | mark p => rw [of_decide_eq_true hop]
    | _ => exact nomatch hop
  exact ⟨c, c', tr, hrun, hstep, killed_marks hrun hstep⟩

/-! ## kill(0) -/

def takesSlot (_ : Thread Unit) (op : Op) (_ : State Unit) : Bool :=
  match op with
  | .setState p st => decide (p = 1 ∧ st = .used)
  | _ => false

/-- `kill(0)` has returned, and `fork` is about to use slot 1. -/
def forking : Option (Configuration Unit) :=
  script perform (fun _ _ _ => true) (initRuns () ++ calls init (.kill 0) 10 ++ [.finish (.proc init)] ++
    calls init (.fork true true) 10) (start Unit)

def forked : Option (Configuration Unit) := forking.bind (schedule perform takesSlot [.proc init])

/-- A child of init starts with the mark. -/
theorem child_born_killed : ∃ c c' tr, Transition.Run (Machine Unit anyMove) (start Unit) tr c ∧
    Machine Unit anyMove c (.act (.proc init) (.setState 1 .used)) c' ∧
    c.state.state 1 = .unused ∧ c'.state.state 1 = .used ∧ c'.state.killed 1 = true := by
  have hsome : forked.isSome = true := by decide +kernel
  obtain ⟨c', h'⟩ := Option.isSome_iff_exists.mp hsome
  obtain ⟨c, h, hfork⟩ := Option.bind_eq_some_iff.1 h'
  obtain ⟨tr, hrun⟩ : ∃ tr, Transition.Run (Machine Unit anyMove) (start Unit) tr c := by
    refine script_run perform anyMove (fun _ => Starts) (fun _ _ _ _ => trivial) (fun t code hmem _ => ?_) h
    simp only [List.mem_append] at hmem
    rcases hmem with ((hmem | hmem) | hmem) | hmem
    · exact starts_initRuns hmem
    · exact starts_calls hmem
    · simp at hmem
    · exact starts_calls hmem
  obtain ⟨op, s, hstep, hop⟩ := schedule_one perform anyMove (fun _ => Starts) (fun _ _ _ _ => trivial) hfork
  obtain rfl : op = .setState 1 .used := by
    cases op with
    | setState p st =>
      obtain ⟨rfl, rfl⟩ := of_decide_eq_true hop
      rfl
    | _ => exact nomatch hop
  have hbefore : forking.map (fun c => c.state.state 1) = some .unused := by decide +kernel
  have hafter : forked.map (fun c => (c.state.state 1, c.state.killed 1)) = some (.used, true) := by
    decide +kernel
  rw [h] at hbefore
  rw [h'] at hafter
  simp only [Option.map_some, Option.some.injEq, Prod.mk.injEq] at hbefore hafter
  exact ⟨c, c', tr, hrun, hstep, hbefore, hafter.1, hafter.2⟩

end Xv6.Guarantees.KilledMarks
