import Xv6.Pipe.Calls

/-!
# Who sleeps on a pipe

While the pipe's lock is free, a process sleeps on `&pi->nread` only if the pipe is empty and
its write end open, and on `&pi->nwrite` only if it is full and its read end open. This needs
that no writer is found killed between storing a byte and its next `wakeup(&pi->nread)`:
`pipewrite` then returns −1 without that wakeup, and a reader that was asleep stays asleep on
a pipe that holds a byte.
-/
namespace Xv6.Guarantees.PipeSleepers

open Xv6.Library Xv6.Library.Thread Xv6.Source.Pipe Xv6.Pipe

/-- Nobody sleeps who has something to do. -/
def NoneLeft (s : State) : Prop :=
  s.lock = none → ∀ t c, s.state t = .sleeping c → Blocked s.fields c

theorem none_left_asleep {c₀ c : Config Slot State Op Ret Int} (hfresh : Fresh c₀.state)
    (hidle : ∀ t, c₀.prog t = none) {tr : List (Move Slot Op Int)}
    (hrun : Transition.Run (Machine Announced False) c₀ tr c) : NoneLeft c.state := by
  have hrun' : Transition.Run (Machine (logic ⟨False, True⟩).guard False) c₀ tr c :=
    hrun.mono fun _ _ _ => Step.mono perform (fun _ _ _ h _ => h) fun _ _ _ => id
  obtain ⟨g, hgood⟩ := good_of_run (m := ⟨False, True⟩) hfresh hidle hrun'
  have hsleepers := hgood.inv.2.1 trivial
  intro hlock t ch hsleep
  refine hsleepers.blocked ch (fun u => ?_) t (Or.inl hsleep)
  by_contra howes
  exact hsleepers.owes u ch (by simpa using howes) (hgood.inv.1.free hlock u)

/-- `Announced`, computed. -/
def announced (t : Slot) (op : Op) (s : State) : Bool :=
  match op with
  | .getKilled p => !(s.unsaid t && s.killed p)
  | _ => true

theorem announced_of {t : Slot} {op : Op} {s : State} (h : announced t op s = true) :
    Announced t op s := by
  rintro p rfl hunsaid
  simpa [announced, hunsaid] using h

/-- Process 1 reads one byte and process 0 writes two; process 2 kills process 0. -/
def working : Config Slot State Op Ret Int where
  state := start.state
  prog := Function.update (Function.update (Function.update start.prog
    1 (some (piperead 1 (fun _ => true) 1 1)))
    0 (some (pipewrite 0 (fun _ => some 97) 2 2)))
    2 (some (kill 1))

theorem working_run (guard : Slot → Op → State → Prop) :
    ∃ tr, Transition.Run (Machine guard False) start tr working := by
  have hnil : Transition.Run (Machine guard False) start [] start := .nil
  exact ⟨_, hnil
    |>.snoc (.start (t := 1) rfl (Call.read (fun _ => true) 1 1 False.elim))
    |>.snoc (.start (t := 0) rfl (Call.write (fun _ => some 97) 2 2 False.elim))
    |>.snoc (.start (t := 2) rfl (Call.kill 1))⟩

/-- The reader finds the pipe empty and goes to sleep. -/
def asleep : Option (Config Slot State Op Ret Int) :=
  schedule perform announced (List.replicate 9 1) working

theorem none_left_asleep_of_reader : ∃ c tr, Transition.Run (Machine Announced False) start tr c ∧
    c.state.state 1 = .sleeping .nread ∧ NoneLeft c.state := by
  have hsome : asleep.isSome = true := by decide +kernel
  obtain ⟨c, hc⟩ := Option.isSome_iff_exists.mp hsome
  obtain ⟨tr₁, hrun₁⟩ := working_run Announced
  obtain ⟨tr₂, hrun₂⟩ := schedule_run perform Announced (fun _ t p => Call False t p)
    (fun _ _ _ => announced_of) hc
  have hrun := hrun₁.append hrun₂
  refine ⟨c, _, hrun, ?_, none_left_asleep start_fresh (fun _ => rfl) hrun⟩
  have hstate : asleep.map (fun c => c.state.state 1) = some (.sleeping .nread) := by decide +kernel
  rw [hc] at hstate
  exact Option.some.inj hstate

/-- Then the writer stores its first byte, is killed, and returns −1. -/
def lost : Option (Config Slot State Op Ret Int) :=
  schedule perform (fun _ _ _ => true)
    (List.replicate 9 1 ++ List.replicate 7 0 ++ List.replicate 5 2 ++ List.replicate 5 0) working

/-- What a process has returned. -/
def result (c : Config Slot State Op Ret Int) (t : Slot) : Option Int :=
  match c.prog t with
  | some (.ret a) => some a
  | _ => none

/-- The reader sleeps on a pipe that holds a byte, and the calls of the others are over. -/
theorem reader_left_asleep : ∃ c tr,
    Transition.Run (Machine (fun _ _ _ => True) False) start tr c ∧
    result c 0 = some (-1) ∧ result c 2 = some 0 ∧ ¬ NoneLeft c.state := by
  have hsome : lost.isSome = true := by decide +kernel
  obtain ⟨c, hc⟩ := Option.isSome_iff_exists.mp hsome
  obtain ⟨tr₁, hrun₁⟩ := working_run fun _ _ _ => True
  obtain ⟨tr₂, hrun₂⟩ := schedule_run perform (fun _ _ _ => True) (fun _ t p => Call False t p)
    (fun _ _ _ _ => trivial) hc
  have hend : lost.map (fun c => (result c 0, result c 2, c.state.lock, c.state.state 1,
      c.state.fields)) =
      some (some (-1), some 0, none, .sleeping .nread, ⟨0, 1, true, true⟩) := by decide +kernel
  rw [hc] at hend
  simp only [Option.map_some, Option.some.injEq, Prod.mk.injEq] at hend
  obtain ⟨hwriter, hkiller, hlock, hstate, hfields⟩ := hend
  refine ⟨c, _, hrun₁.append hrun₂, hwriter, hkiller, fun hnone => ?_⟩
  have hblocked := (hnone hlock 1 .nread hstate).1
  rw [hfields] at hblocked
  exact absurd hblocked (by decide)

/-- Nobody acquires a lock twice, or releases one or switches away without holding it. -/
theorem pipe_never_panics {c₀ c : Config Slot State Op Ret Int} (hfresh : Fresh c₀.state)
    (hidle : ∀ t, c₀.prog t = none) {tr : List (Move Slot Op Int)}
    (hrun : Transition.Run (Machine (fun _ _ _ => True) False) c₀ tr c) : Calm perform c := by
  obtain ⟨g, hgood⟩ := good_of_run (m := ⟨False, False⟩) hfresh hidle
    (hrun.mono fun _ _ _ => Step.mono perform (fun _ _ _ _ => False.elim) fun _ _ _ => id)
  intro t op k msg hcall
  exact hgood.no_panic hcall False.elim

theorem working_calm : Calm perform working :=
  pipe_never_panics start_fresh (fun _ => rfl) (working_run _).choose_spec

end Xv6.Guarantees.PipeSleepers
