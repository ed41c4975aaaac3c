import Xv6.Source.Proc

/-!
# Schedules of processes

An executable reading of the steps of a process table, for concrete runs: who moves
next and, where the kernel may decide, how.
-/
namespace Xv6.Shell

open Xv6.Library.Transition
open Xv6.Source.Proc

/-- How a call comes out: with success, without, or with a child that `wait` takes. -/
inductive Choice where
  | go
  | fail
  | reap (child : Nat)

variable {α : Type}

/-- The step of process `i` under a choice, if there is one. -/
def act (s : Table α) (i : Nat) (c : Choice) : Option (Table α) :=
  match s[i]? with
  | none => none
  | some ⟨parent, scope, f, st⟩ =>
    match st, c with
    | .run (.fork scope' c n), .go =>
      some (s.set i ⟨parent, scope, f, .run n⟩ ++ [⟨some i, scope', f, .run c⟩])
    | .run (.wait n), .reap j =>
      match s[j]? with
      | some ⟨some i', scope', f', .zombie⟩ =>
        if i' = i then
          some ((s.set i ⟨parent, scope, f, .run n⟩).set j ⟨some i, scope', f', .reaped⟩)
        else none
      | _ => none
    | .run (.exec tag _ _), .go => some (s.set i ⟨parent, scope, f, .program (some tag)⟩)
    | .run (.exec _ _ n), .fail => some (s.set i ⟨parent, scope, f, .run n⟩)
    | .run (.chdir _ n), .go => some (s.set i ⟨parent, scope, f, .run n⟩)
    | .run (.pipe tag n), .go =>
      match sysPipe f tag with
      | some (r, w, f') => some (s.set i ⟨parent, scope, f', .run (n r w)⟩)
      | none => none
    | .run (.close fd n), .go => some (s.set i ⟨parent, scope, sysClose f fd, .run n⟩)
    | .run (.dup fd n), .go => some (s.set i ⟨parent, scope, sysDup f fd, .run n⟩)
    | .run .exit, .go | .run (.ret _), .go | .program _, .go => some (exit s i)
    | _, _ => none

def perform (s : Table α) : List (Nat × Choice) → Option (Table α)
  | [] => some s
  | (i, c) :: rest => (act s i c).bind (perform · rest)

/-- Every outcome of `exec` is possible, and there are always processes and files. -/
def anyExec : Outcomes α := ⟨fun _ _ => True, False⟩

theorem act_sound {s s' : Table α} {i : Nat} {c : Choice} (h : act s i c = some s') :
    Step anyExec s i s' := by
  unfold act at h
  split at h
  · cases h
  · next parent scope f st hi =>
    split at h
    · cases h
      exact .fork hi
    · split at h
      · next hz =>
        split at h
        · next hij =>
          cases h
          subst hij
          exact .reap hi hz
        · cases h
      · cases h
    · cases h
      exact .call hi (.execOk trivial)
    · cases h
      exact .call hi (.execFail trivial)
    · cases h
      exact .call hi .chdir
    · split at h
      · next hp =>
        cases h
        exact .call hi (.pipe hp)
      · cases h
    · cases h
      exact .call hi .close
    · cases h
      exact .call hi .dup
    · cases h
      exact .exit hi rfl
    · cases h
      exact .exit hi rfl
    · cases h
      exact .exit hi rfl
    · cases h

theorem perform_reach {s s' : Table α} {schedule : List (Nat × Choice)}
    (h : perform s schedule = some s') : Reach anyExec s (schedule.map Prod.fst) s' := by
  induction schedule generalizing s with
  | nil =>
    cases h
    exact .nil
  | cons m rest ih =>
    obtain ⟨i, c⟩ := m
    rw [perform, Option.bind_eq_some_iff] at h
    obtain ⟨s₁, hact, hrest⟩ := h
    exact Run.cons (act_sound hact) (ih hrest)

end Xv6.Shell
