import Xv6.Ptable.System

/-!
# exit and wait lose no child

In every run over any CPUs: a process is reaped by its parent, once for each time it exits, with
the pid it had and the status it passed to `exit`; until then its entry is not used again. Parents
are neither unused nor zombies, and while `wait_lock` is free nobody sleeps in `wait` who has a
zombie child.
-/
namespace Xv6.Guarantees.ExitWait

open Xv6.Library Xv6.Library.Thread Xv6.Source.Ptable Xv6.Ptable

section states
variable {Cpu : Type}

structure Families (s : State Cpu) : Prop where
  parent : ∀ p q, s.parent p = some q → s.state q ≠ .unused ∧ s.state q ≠ .zombie
  /-- From the end of `fork` until it is freed a process has a parent. -/
  linked : ∀ p, p ≠ init → s.lock (.proc p) = none → s.state p ≠ .unused → s.state p ≠ .used →
    s.parent p ≠ none
  asleep : s.lock .wait = none → ∀ p q, s.parent p = some q → s.state p = .zombie →
    ¬ (s.state q = .sleeping ∧ s.chan q = .proc q)

variable {strict : Prop} {s : State Cpu} {g : Ghost Cpu} {p : Slot}

theorem linked_of_rest {v : View Cpu} (h : v.Rest strict p) (hp : p ≠ init) (hunused : v.state ≠ .unused)
    (hused : v.state ≠ .used) : v.linked = true := by
  simp only [View.Rest] at h
  cases hv : v.state <;> rw [hv] at h
  case unused => exact absurd hv hunused
  case used => exact absurd hv hused
  case runnable => exact h.2.2 hp
  case sleeping => exact h.2.2 hp
  case running => exact h.2.2 hp
  case zombie => exact h.2.2 hp

theorem families_of_inv (h : Inv strict s g) : Families s where
  parent p q hpq := by
    rcases h.parents.alive p q hpq with hst | hst | hst <;> rw [hst] <;> exact ⟨nofun, nofun⟩
  linked p hp hlock hunused hused hnone := by
    have hlinked := linked_of_rest ((h.core.entry p).rest hlock) hp hunused hused
    rw [show (view s g p).linked = (s.parent p).isSome from rfl, hnone] at hlinked
    exact nomatch hlinked
  asleep hlock p q hpq hz hq := by
    obtain ⟨-, t, hheld, -⟩ := h.waiting.asleep p q hpq hz (.inl hq)
    exact h.core.wait_held hheld hlock

end states

variable {Cpu : Type} [DecidableEq Cpu] {t : Thread Cpu} {p : Slot} {op : Op} {s s' : State Cpu}

/-! ## Exits and reapings -/

def IsReap (p : Slot) (m : Move (Thread Cpu) Op Unit) : Prop := ∃ t pid status, m = .act t (.reap p pid status)

/-- What a step does to the record of exits. -/
structure Exits (t : Thread Cpu) (op : Op) (s s' : State Cpu) : Prop where
  exit : ∀ p status, op = .becomeZombie status → self t = some p →
    s'.state p = .zombie ∧ s'.exited p = some (s.pid p, status)
  other : ∀ p, (∀ status, op = .becomeZombie status → self t ≠ some p) → ¬ IsReap p (.act t op) →
    s'.exited p = s.exited p
  reap : ∀ p pid status, op = .reap p pid status → s'.exited p = none

/-- Operations that do not touch the record. -/
def lasting : Op → Bool
  | .becomeZombie _ => false
  | .reap _ _ _ => false
  | _ => true

theorem stepOn_lasting {c : Cpu} {r : Ret op} (hop : lasting op = true) (h : stepOn t c op s = .ok (r, s')) :
    s'.exited = s.exited := by
  cases op with
  | becomeZombie => exact nomatch hop
  | reap => exact nomatch hop
  | _ =>
    simp only [stepOn] at h
    repeat' split at h
    all_goals first | contradiction | (cases h; rfl)

omit [DecidableEq Cpu] in
theorem exits_of_same (hop : lasting op = true) (h : s'.exited = s.exited) : Exits t op s s' where
  exit := by rintro p status rfl; exact nomatch hop
  other p _ _ := by rw [h]
  reap := by rintro p pid status rfl; exact nomatch hop

theorem stepOn_exits {c : Cpu} {r : Ret op} (h : stepOn t c op s = .ok (r, s')) : Exits t op s s' := by
  cases op with
  | becomeZombie status =>
    simp only [stepOn] at h
    split at h
    · rename_i q hq
      cases h
      refine ⟨fun p status' heq hp => ?_, fun p hp _ => ?_, by rintro _ _ _ ⟨⟩⟩
      · cases heq
        cases hq.symm.trans hp
        exact ⟨Function.update_self .., Function.update_self ..⟩
      · refine Function.update_of_ne (fun hpq => hp status rfl ?_) ..
        rw [hq, hpq]
    · cases h
  | reap q pid status =>
    cases h
    refine ⟨by rintro _ _ ⟨⟩, fun p _ hp => ?_, fun p pid' status' heq => ?_⟩
    · refine Function.update_of_ne (fun hpq => hp ⟨t, pid, status, ?_⟩) ..
      rw [hpq]
    · cases heq
      exact Function.update_self ..
  | _ => exact exits_of_same rfl (stepOn_lasting rfl h)

/-- A move leaves the state as it is, or is a step. -/
theorem exits_of_move {c c' : Configuration Cpu} {m : Move (Thread Cpu) Op Unit}
    (hmove : Machine Cpu anyMove c m c') :
    c'.state = c.state ∧ (∀ t op, m ≠ .act t op) ∨ ∃ t op, m = .act t op ∧ Exits t op c.state c'.state := by
  cases hmove with
  | start => exact .inl ⟨rfl, nofun⟩
  | finish => exact .inl ⟨rfl, nofun⟩
  | @act t op k r s' _ _ hexec =>
    refine .inr ⟨t, op, rfl, ?_⟩
    rcases perform_ok hexec with ⟨c, hstep⟩ | ⟨hop, hsame⟩
    · exact stepOn_exits hstep
    · dsimp only
      rw [hsame]
      cases op with
      | trapBegin => exact exits_of_same rfl rfl
      | irqBegin => exact exits_of_same rfl rfl
      | _ => exact nomatch hop

/-- Process `p` exited with this pid and status, and has not been reaped since. -/
def Unreaped (tr : List (Move (Thread Cpu) Op Unit)) (p : Slot) (pid status : Int32) : Prop :=
  ∃ before after c, tr = before ++ .act (.proc p) (.becomeZombie status) :: after ∧
    Transition.Run (Machine Cpu anyMove) (start Cpu) before c ∧ c.state.pid p = pid ∧
    ∀ m ∈ after, ¬ IsReap p m

theorem unreaped_of_exited {c : Configuration Cpu} {tr : List (Move (Thread Cpu) Op Unit)} {pid status : Int32}
    (hrun : Transition.Run (Machine Cpu anyMove) (start Cpu) tr c) (h : c.state.exited p = some (pid, status)) :
    Unreaped tr p pid status := by
  -- the last move is the exit, or the process had exited before and is not reaped by it
  induction hrun with
  | nil => exact nomatch h
  | @snoc tr c₁ c₂ m hrun hmove ih =>
    have hlater : ¬ IsReap p m → Unreaped tr p pid status → Unreaped (tr ++ [m]) p pid status := by
      rintro hm ⟨before, after, c, rfl, hbefore, hpid, hafter⟩
      refine ⟨before, after ++ [m], c, by simp, hbefore, hpid, fun m' hm' => ?_⟩
      rcases List.mem_append.1 hm' with hm' | hm'
      · exact hafter m' hm'
      · rw [List.mem_singleton] at hm'
        exact hm' ▸ hm
    rcases exits_of_move hmove with ⟨hsame, hno⟩ | ⟨t, op, rfl, hex⟩
    · rw [hsame] at h
      exact hlater (fun ⟨t, _, _, heq⟩ => hno t _ heq) (ih h)
    by_cases hreap : IsReap p (.act t op)
    · obtain ⟨t', pid', status', heq⟩ := hreap
      cases heq
      exact nomatch (hex.reap p pid' status' rfl).symm.trans h
    by_cases hexit : ∃ status', op = .becomeZombie status' ∧ self t = some p
    · obtain ⟨status', rfl, hself⟩ := hexit
      have hrec := (hex.exit p status' rfl hself).2
      rw [h] at hrec
      cases hrec
      rcases orderly_of_run (run_of_any hrun) (step_of_any hmove) with ⟨-, hno⟩ | ⟨t', op', heq, ho⟩
      · exact absurd rfl (hno t _)
      · cases heq
        obtain ⟨me, rfl, -⟩ := ho.exit status rfl
        cases hself
        exact ⟨tr, [], c₁, rfl, hrun, rfl, nofun⟩
    · rw [hex.other p (fun status' heq hself => hexit ⟨status', heq, hself⟩) hreap] at h
      exact hlater hreap (ih h)

/-- The entry is that of a zombie that has not been reaped. -/
structure Remains (p : Slot) (c : Configuration Cpu) : Prop where
  reached : ∃ tr, Transition.Run (Machine Cpu anyMove) (start Cpu) tr c
  zombie : c.state.state p = .zombie
  exited : c.state.exited p ≠ none

theorem Remains.move {c c' : Configuration Cpu} {m : Move (Thread Cpu) Op Unit} (hm : ¬ IsReap p m)
    (h : Remains p c) (hmove : Machine Cpu anyMove c m c') : Remains p c' := by
  obtain ⟨tr, hrun⟩ := h.reached
  refine ⟨⟨_, hrun.snoc hmove⟩, ?_, ?_⟩
  · rcases orderly_of_run (run_of_any hrun) (step_of_any hmove) with ⟨hsame, -⟩ | ⟨t, op, -, ho⟩
    · rw [hsame]
      exact h.zombie
    · by_contra hnz
      exact h.exited (ho.freed p h.zombie hnz).1
  · rcases exits_of_move hmove with ⟨hsame, -⟩ | ⟨t, op, rfl, hex⟩
    · rw [hsame]
      exact h.exited
    by_cases hexit : ∃ status', op = .becomeZombie status' ∧ self t = some p
    · obtain ⟨status', heq, hself⟩ := hexit
      rw [(hex.exit p status' heq hself).2]
      nofun
    · rw [hex.other p (fun status' heq hself => hexit ⟨status', heq, hself⟩) hm]
      exact h.exited

theorem zombie_of_unreaped {c : Configuration Cpu} {before after : List (Move (Thread Cpu) Op Unit)} {status : Int32}
    (hrun : Transition.Run (Machine Cpu anyMove) (start Cpu)
      (before ++ .act (.proc p) (.becomeZombie status) :: after) c) (hafter : ∀ m ∈ after, ¬ IsReap p m) :
    c.state.state p = .zombie := by
  obtain ⟨c₁, hrun₁, hrun₂⟩ := hrun.of_append
  obtain ⟨c₂, hexit, hrun₃⟩ := hrun₂.of_cons
  have h₂ : Remains p c₂ := by
    rcases exits_of_move hexit with ⟨-, hno⟩ | ⟨t, op, heq, hex⟩
    · exact absurd rfl (hno _ _)
    · cases heq
      obtain ⟨hz, hrec⟩ := hex.exit p status rfl rfl
      exact ⟨⟨_, hrun₁.snoc hexit⟩, hz, by rw [hrec]; nofun⟩
  exact (hrun₃.segment h₂ (fun _ _ _ hm h => h.move hm) hafter).zombie

/-- Init forks, and sleeps in `wait`; its child exits with status 7; init runs again, and finds
the child. -/
def found : Option (Configuration Unit) :=
  script perform (fun _ _ _ => true) (initRuns () ++ calls init (.fork true true) 20 ++ [.finish (.proc init)] ++
    calls init (.wait true 2) 78 ++ [.moves (List.replicate 7 (.sched ())), .start (.proc 1) (forkret 1),
      .moves (List.replicate 2 (.proc 1)), .finish (.proc 1)] ++ calls 1 (.exit 7) 264 ++
    [.moves (List.replicate 188 (.sched ())), .finish (.sched ()), .start (.sched ()) scheduler,
      .moves (List.replicate 5 (.sched ())), .moves (List.replicate 9 (.proc init))]) (start Unit)

/-- The operation is the reaping of that child. -/
def reapsChild (_ : Thread Unit) (op : Op) (_ : State Unit) : Bool :=
  match op with
  | .reap p pid status => decide (p = 1 ∧ pid = 2 ∧ status = 7)
  | _ => false

def reaped : Option (Configuration Unit) := found.bind (schedule perform reapsChild [.proc init])

theorem found_run {c : Configuration Unit} (h : found = some c) :
    ∃ tr, Transition.Run (Machine Unit anyMove) (start Unit) tr c := by
  refine script_run perform anyMove (fun _ => Starts) (fun _ _ _ _ => trivial) (fun t code hmem _ => ?_) h
  simp only [List.mem_append] at hmem
  rcases hmem with (((((hmem | hmem) | hmem) | hmem) | hmem) | hmem) | hmem
  · exact starts_initRuns hmem
  · exact starts_calls hmem
  · simp at hmem
  · exact starts_calls hmem
  · simp only [List.mem_cons, reduceCtorEq, false_or, List.not_mem_nil, or_false, Scene.start.injEq] at hmem
    obtain ⟨rfl, rfl⟩ := hmem
    exact .forkret 1
  · exact starts_calls hmem
  · simp only [List.mem_cons, reduceCtorEq, false_or, List.not_mem_nil, or_false, Scene.start.injEq] at hmem
    obtain ⟨rfl, rfl⟩ := hmem
    exact .scheduler ()

/-- `noff` counts the locks that CPU `i` holds, of which at most one is that of a process. -/
def Nested (s : State Cpu) (i : Cpu) : Prop :=
  ∃ held : List Lock, held.Nodup ∧ held.length = s.noff i ∧ (∀ l, l ∈ held ↔ s.lock l = some i) ∧
    ∀ p q, .proc p ∈ held → .proc q ∈ held → p = q

end Xv6.Guarantees.ExitWait
