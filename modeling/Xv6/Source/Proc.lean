import Mathlib.Data.List.Basic
import Xv6.Library.Transition
import Xv6.Source.Ulib

/-!
# Processes and their system calls

What a user program asks of the kernel, as a tree of system calls, and what `fork`,
`exit`, `wait` (kernel/proc.c) and `dup`, `close`, `pipe` (kernel/sysfile.c) do to the
table of processes. Places of the program text are named by labels `α`: a call of
`exec` or `pipe` carries the label of its place, a forked process that of the part
it is forked for. A pipe is known by the label of the call that made it.
-/
namespace Xv6.Source.Proc

open Xv6.Library.Transition
open Xv6.Source.Ulib (Bytes)

/-- Open files per process. -/
def NOFILE : Nat := 16

/-- The calls of a process that runs the shell's code. `ret` is back in `main`, `fault`
an access outside an object, `spin` a recursion that was given too little depth. -/
inductive Prog (α : Type) where
  | ret (value : Bool)
  | exit
  | fault
  | spin
  | fork (scope : α) (child parent : Prog α)
  | wait (next : Prog α)
  | exec (tag : α) (argv : List Bytes) (failed : Prog α)
  | chdir (path : Bytes) (next : Prog α)
  | pipe (tag : α) (next : Nat → Nat → Prog α)
  | close (fd : Nat) (next : Prog α)
  | dup (fd : Nat) (next : Prog α)

/-- What a descriptor refers to. -/
inductive File (α : Type) where
  | console (fd : Nat)
  | readEnd (pipe : α)
  | writeEnd (pipe : α)
  deriving DecidableEq

abbrev Files (α : Type) := List (Option (File α))

/-- `program` is a process after a successful `exec`, with the label of that call; a
process that some other line has left behind has none. -/
inductive Status (α : Type) where
  | run (prog : Prog α)
  | program (tag : Option α)
  | zombie
  | reaped

structure Process (α : Type) where
  parent : Option Nat
  scope : α
  ofile : Files α
  status : Status α

/-- A process is known by its position; positions are not used twice. -/
abbrev Table (α : Type) := List (Process α)

variable {α : Type}

/-- The lowest free descriptor. -/
def fdalloc (ofile : Files α) (f : File α) : Option (Nat × Files α) :=
  (ofile.findIdx? Option.isNone).map fun fd => (fd, ofile.set fd (some f))

def sysDup (ofile : Files α) (fd : Nat) : Files α :=
  match ofile.getD fd none with
  | none => ofile
  | some f =>
    match fdalloc ofile f with
    | none => ofile
    | some (_, ofile) => ofile

def sysClose (ofile : Files α) (fd : Nat) : Files α := ofile.set fd none

def sysPipe (ofile : Files α) (tag : α) : Option (Nat × Nat × Files α) :=
  match fdalloc ofile (.readEnd tag) with
  | none => none
  | some (r, ofile) =>
    match fdalloc ofile (.writeEnd tag) with
    | none => none
    | some (w, ofile) => some (r, w, ofile)

def Status.isReaped : Status α → Bool
  | .reaped => true
  | _ => false

/-- A process in this status can end: it calls `exit`, runs a program or the shell's
main loop, which call it sooner or later, or the kernel kills it at a fault. -/
def Status.ends : Status α → Bool
  | .run .exit | .run .fault | .run (.ret _) | .program _ => true
  | _ => false

/-- `exit` closes the files, gives the children to init and leaves a zombie. -/
def exit (s : Table α) (i : Nat) : Table α :=
  s.mapIdx fun j P =>
    if j = i then ⟨P.parent, P.scope, List.replicate NOFILE none, .zombie⟩
    else if P.parent = some i then ⟨none, P.scope, P.ofile, P.status⟩ else P

/-- What the surroundings decide: which results of `exec` are possible at a place, and
whether `fork` and `pipe` may fail for want of processes or files. -/
structure Outcomes (α : Type) where
  exec : α → Bool → Prop
  scarce : Prop

/-- The calls that concern one process only. A failed `pipe` leaves the descriptors
undefined. -/
inductive Local (o : Outcomes α) (f : Files α) : Prog α → Status α → Files α → Prop
  | forkFail {scope : α} {c n : Prog α} : o.scarce → Local o f (.fork scope c n) (.run n) f
  | execOk {tag : α} {argv : List Bytes} {n : Prog α} : o.exec tag true →
      Local o f (.exec tag argv n) (.program (some tag)) f
  | execFail {tag : α} {argv : List Bytes} {n : Prog α} : o.exec tag false →
      Local o f (.exec tag argv n) (.run n) f
  | chdir {path : Bytes} {n : Prog α} : Local o f (.chdir path n) (.run n) f
  | pipe {tag : α} {n : Nat → Nat → Prog α} {r w : Nat} {f' : Files α} :
      sysPipe f tag = some (r, w, f') → Local o f (.pipe tag n) (.run (n r w)) f'
  | pipeFail {tag : α} {n : Nat → Nat → Prog α} {r w : Nat} : o.scarce ∨ sysPipe f tag = none →
      Local o f (.pipe tag n) (.run (n r w)) f
  | close {fd : Nat} {n : Prog α} : Local o f (.close fd n) (.run n) (sysClose f fd)
  | dup {fd : Nat} {n : Prog α} : Local o f (.dup fd n) (.run n) (sysDup f fd)

/-- One step of process `i`. `wait` takes any zombie child and fails when there is no
child left. -/
inductive Step (o : Outcomes α) (s : Table α) (i : Nat) : Table α → Prop
  | call {parent : Option Nat} {scope : α} {f f' : Files α} {p : Prog α} {st : Status α} :
      s[i]? = some ⟨parent, scope, f, .run p⟩ → Local o f p st f' →
      Step o s i (s.set i ⟨parent, scope, f', st⟩)
  | fork {parent : Option Nat} {scope scope' : α} {f : Files α} {c n : Prog α} :
      s[i]? = some ⟨parent, scope, f, .run (.fork scope' c n)⟩ →
      Step o s i (s.set i ⟨parent, scope, f, .run n⟩ ++ [⟨some i, scope', f, .run c⟩])
  | reap {parent : Option Nat} {scope scope' : α} {f f' : Files α} {n : Prog α} {j : Nat} :
      s[i]? = some ⟨parent, scope, f, .run (.wait n)⟩ →
      s[j]? = some ⟨some i, scope', f', .zombie⟩ →
      Step o s i ((s.set i ⟨parent, scope, f, .run n⟩).set j ⟨some i, scope', f', .reaped⟩)
  | noChild {parent : Option Nat} {scope : α} {f : Files α} {n : Prog α} :
      s[i]? = some ⟨parent, scope, f, .run (.wait n)⟩ →
      (∀ P ∈ s, P.parent = some i → P.status.isReaped) →
      Step o s i (s.set i ⟨parent, scope, f, .run n⟩)
  | exit {P : Process α} : s[i]? = some P → P.status.ends → Step o s i (exit s i)

/-- The states that the processes of a table can reach. -/
abbrev Reach (o : Outcomes α) (s : Table α) (tr : List Nat) (s' : Table α) : Prop :=
  Run (Step o) s tr s'

section entries
variable {o : Outcomes α} {s s' : Table α} {i j : Nat}

/-- What a step of process `i` can make of the entry of another process. -/
inductive Passive (i : Nat) : Process α → Process α → Prop
  | same {P : Process α} : Passive i P P
  | orphan {scope : α} {f : Files α} {st : Status α} :
      Passive i ⟨some i, scope, f, st⟩ ⟨none, scope, f, st⟩
  | reaped {scope : α} {f : Files α} :
      Passive i ⟨some i, scope, f, .zombie⟩ ⟨some i, scope, f, .reaped⟩

/-- What a step of a process can make of its own entry. -/
inductive Acts (o : Outcomes α) : Process α → Process α → Prop
  | call {parent : Option Nat} {scope : α} {f f' : Files α} {p : Prog α} {st : Status α} :
      Local o f p st f' → Acts o ⟨parent, scope, f, .run p⟩ ⟨parent, scope, f', st⟩
  | forked {parent : Option Nat} {scope scope' : α} {f : Files α} {c n : Prog α} :
      Acts o ⟨parent, scope, f, .run (.fork scope' c n)⟩ ⟨parent, scope, f, .run n⟩
  | waited {parent : Option Nat} {scope : α} {f : Files α} {n : Prog α} :
      Acts o ⟨parent, scope, f, .run (.wait n)⟩ ⟨parent, scope, f, .run n⟩
  | ended {parent : Option Nat} {scope : α} {f : Files α} {st : Status α} : st.ends →
      Acts o ⟨parent, scope, f, st⟩ ⟨parent, scope, List.replicate NOFILE none, .zombie⟩

theorem getElem?_set_cases {P P' : Process α} (h : (s.set i P)[j]? = some P') :
    (j = i ∧ P' = P ∧ i < s.length) ∨ (j ≠ i ∧ s[j]? = some P') := by
  rw [List.getElem?_set] at h
  by_cases hij : i = j
  · subst hij
    rw [if_pos rfl] at h
    split at h
    · next hlt => exact .inl ⟨rfl, (Option.some.inj h).symm, hlt⟩
    · cases h
  · rw [if_neg hij] at h
    exact .inr ⟨fun e => hij e.symm, h⟩

theorem lt_of_getElem? {P : Process α} (h : s[i]? = some P) : i < s.length :=
  (List.getElem?_eq_some_iff.mp h).1

/-- Every entry after a step of process `i` is an entry before it that the step has
changed, or the child of a `fork`, at the end of the table. -/
theorem Step.origin (h : Step o s i s') {P' : Process α} (hj : s'[j]? = some P') :
    (j ≠ i ∧ ∃ P, s[j]? = some P ∧ Passive i P P') ∨
      (j = i ∧ ∃ P, s[i]? = some P ∧ Acts o P P') ∨
      ∃ parent scope f scope' c n, s[i]? = some ⟨parent, scope, f, .run (.fork scope' c n)⟩ ∧
        P' = ⟨some i, scope', f, .run c⟩ ∧ j = s.length := by
  cases h with
  | call hi hl =>
    rcases getElem?_set_cases hj with ⟨rfl, rfl, _⟩ | ⟨hne, hj⟩
    · exact .inr (.inl ⟨rfl, _, hi, .call hl⟩)
    · exact .inl ⟨hne, _, hj, .same⟩
  | @fork parent scope scope' f c n hi =>
    by_cases hlt : j < s.length
    · rw [List.getElem?_append_left (by simpa using hlt)] at hj
      rcases getElem?_set_cases hj with ⟨rfl, rfl, _⟩ | ⟨hne, hj⟩
      · exact .inr (.inl ⟨rfl, _, hi, .forked⟩)
      · exact .inl ⟨hne, _, hj, .same⟩
    · have hlast : j = s.length := by
        have := (List.getElem?_eq_some_iff.mp hj).1
        simp at this
        omega
      subst hlast
      refine .inr (.inr ⟨parent, scope, f, scope', c, n, hi, ?_, rfl⟩)
      rw [List.getElem?_append_right (by simp)] at hj
      simpa using hj.symm
  | @reap parent scope scope' f f' n c hi hz =>
    rcases getElem?_set_cases hj with ⟨rfl, rfl, _⟩ | ⟨_, hj⟩
    · refine .inl ⟨?_, _, hz, .reaped⟩
      rintro rfl
      rw [hi] at hz
      cases hz
    · rcases getElem?_set_cases hj with ⟨rfl, rfl, _⟩ | ⟨hne, hj⟩
      · exact .inr (.inl ⟨rfl, _, hi, .waited⟩)
      · exact .inl ⟨hne, _, hj, .same⟩
  | noChild hi _ =>
    rcases getElem?_set_cases hj with ⟨rfl, rfl, _⟩ | ⟨hne, hj⟩
    · exact .inr (.inl ⟨rfl, _, hi, .waited⟩)
    · exact .inl ⟨hne, _, hj, .same⟩
  | exit hi hends =>
    rw [Proc.exit, List.getElem?_mapIdx, Option.map_eq_some_iff] at hj
    obtain ⟨⟨parent, scope, f, st⟩, hP, rfl⟩ := hj
    by_cases hji : j = i
    · subst hji
      rw [hP] at hi
      cases hi
      rw [if_pos rfl]
      exact .inr (.inl ⟨rfl, _, hP, .ended hends⟩)
    · refine .inl ⟨hji, _, hP, ?_⟩
      rw [if_neg hji]
      split
      · next hpar =>
        cases hpar
        exact .orphan
      · exact .same

theorem Step.length_le (h : Step o s i s') : s.length ≤ s'.length := by
  cases h <;> simp [Proc.exit]

section calls
variable {parent : Option Nat} {scope : α} {f : Files α}

/-- The step of a process that stands at a `wait`. -/
theorem Step.of_wait {n : Prog α} (h : Step o s i s')
    (hi : s[i]? = some ⟨parent, scope, f, .run (.wait n)⟩) :
    (∃ z scope' f', z ≠ i ∧ s[z]? = some ⟨some i, scope', f', .zombie⟩ ∧
      s' = (s.set i ⟨parent, scope, f, .run n⟩).set z ⟨some i, scope', f', .reaped⟩) ∨
    (∀ P ∈ s, P.parent = some i → P.status.isReaped) ∧ s' = s.set i ⟨parent, scope, f, .run n⟩ := by
  cases h with
  | call hi' hl =>
    rw [hi] at hi'
    cases hi'
    cases hl
  | fork hi' =>
    rw [hi] at hi'
    cases hi'
  | @reap _ _ scope' _ f' _ z hi' hz =>
    rw [hi] at hi'
    cases hi'
    refine .inl ⟨z, scope', f', ?_, hz, rfl⟩
    rintro rfl
    rw [hi] at hz
    cases hz
  | noChild hi' hnone =>
    rw [hi] at hi'
    cases hi'
    exact .inr ⟨hnone, rfl⟩
  | exit hi' hends =>
    rw [hi] at hi'
    cases hi'
    cases hends

/-- The step of a process that stands at a `fork`. -/
theorem Step.of_fork {scope' : α} {c n : Prog α} (h : Step o s i s')
    (hi : s[i]? = some ⟨parent, scope, f, .run (.fork scope' c n)⟩) :
    s' = s.set i ⟨parent, scope, f, .run n⟩ ∨
      s' = s.set i ⟨parent, scope, f, .run n⟩ ++ [⟨some i, scope', f, .run c⟩] := by
  cases h with
  | call hi' hl =>
    rw [hi] at hi'
    cases hi'
    cases hl
    exact .inl rfl
  | fork hi' =>
    rw [hi] at hi'
    cases hi'
    exact .inr rfl
  | reap hi' =>
    rw [hi] at hi'
    cases hi'
  | noChild hi' =>
    rw [hi] at hi'
    cases hi'
  | exit hi' hends =>
    rw [hi] at hi'
    cases hi'
    cases hends

end calls

/-- A property of single processes holds along a run when no step breaks it and the
children are born with it. -/
theorem Reach.every {J : Nat → Process α → Prop} {tr : List Nat}
    (init : ∀ j P, s[j]? = some P → J j P)
    (passive : ∀ i j P P', J j P → Passive i P P' → J j P')
    (acts : ∀ j P P', J j P → Acts o P P' → J j P')
    (born : ∀ j k parent scope f scope' c n, j < k →
      J j ⟨parent, scope, f, .run (.fork scope' c n)⟩ → J k ⟨some j, scope', f, .run c⟩)
    (h : Reach o s tr s') : ∀ j P, s'[j]? = some P → J j P := by
  refine Run.invariant (I := fun s => ∀ j P, s[j]? = some P → J j P) init ?_ h
  intro s i s' inv hstep j P' hj
  rcases hstep.origin hj with ⟨_, P, hP, hp⟩ | ⟨rfl, P, hP, ha⟩ |
    ⟨parent, scope, f, scope', c, n, hi, rfl, rfl⟩
  · exact passive i j P P' (inv j P hP) hp
  · exact acts j P P' (inv j P hP) ha
  · exact born i s.length parent scope f scope' c n (lt_of_getElem? hi) (inv i _ hi)

end entries

/-- `Q` holds wherever a process of this scope with these files comes to by the calls
of a program, and wherever the processes it forks come to. -/
def Prog.All (o : Outcomes α) (Q : α → Files α → Prog α → Prop) : Prog α → α → Files α → Prop
  | .fork scope' c n, scope, f => Q scope f (.fork scope' c n) ∧ c.All o Q scope' f ∧ n.All o Q scope f
  | .wait n, scope, f => Q scope f (.wait n) ∧ n.All o Q scope f
  | .exec tag argv n, scope, f => Q scope f (.exec tag argv n) ∧ (o.exec tag false → n.All o Q scope f)
  | .chdir path n, scope, f => Q scope f (.chdir path n) ∧ n.All o Q scope f
  | .pipe tag n, scope, f => Q scope f (.pipe tag n) ∧
      (∀ r w f', sysPipe f tag = some (r, w, f') → (n r w).All o Q scope f') ∧
      (∀ r w, o.scarce ∨ sysPipe f tag = none → (n r w).All o Q scope f)
  | .close fd n, scope, f => Q scope f (.close fd n) ∧ n.All o Q scope (sysClose f fd)
  | .dup fd n, scope, f => Q scope f (.dup fd n) ∧ n.All o Q scope (sysDup f fd)
  | p, scope, f => Q scope f p

section all
variable {o : Outcomes α} {Q : α → Files α → Prog α → Prop} {scope : α} {f : Files α}

theorem Prog.All.here {p : Prog α} (h : p.All o Q scope f) : Q scope f p := by
  cases p <;> first | exact h | exact h.1

theorem Prog.All.next {p n : Prog α} {f' : Files α} (h : p.All o Q scope f)
    (call : Local o f p (.run n) f') : n.All o Q scope f' := by
  cases call with
  | forkFail => exact h.2.2
  | execFail hf => exact h.2 hf
  | chdir => exact h.2
  | pipe hp => exact h.2.1 _ _ _ hp
  | pipeFail hf => exact h.2.2 _ _ hf
  | close => exact h.2
  | dup => exact h.2

/-- What `Q` says of a process in any status, when all of them come from one line: a
program keeps the files it was given. -/
def Process.Meets (o : Outcomes α) (Q : α → Files α → Prog α → Prop) (P : Process α) : Prop :=
  match P.status with
  | .run p => p.All o Q P.scope P.ofile
  | .program (some tag) => ∃ argv n, Q P.scope P.ofile (.exec tag argv n)
  | .program none => False
  | .zombie | .reaped => P.ofile = List.replicate NOFILE none

theorem Process.Meets.passive {i : Nat} {P P' : Process α} (hm : P.Meets o Q)
    (h : Passive i P P') : P'.Meets o Q := by
  cases h <;> exact hm

theorem Process.Meets.acts {P P' : Process α} (hm : P.Meets o Q) (h : Acts o P P') :
    P'.Meets o Q := by
  cases h with
  | @call parent scope f f' p st hl =>
    cases st with
    | run n => exact Prog.All.next hm hl
    | program tag =>
      cases hl with
      | execOk _ => exact ⟨_, _, Prog.All.here hm⟩
    | zombie => cases hl
    | reaped => cases hl
  | forked => exact hm.2.2
  | waited => exact hm.2
  | ended => rfl

/-- What holds along the text of the programs of a table holds in every state they reach.
All processes but the first are forked, for a scope of which `B` is known. -/
theorem Reach.meets {B : α → Prop} {s s' : Table α} {tr : List Nat}
    (forks : ∀ scope f scope' c n, Q scope f (.fork scope' c n) → B scope')
    (init : ∀ j P, s[j]? = some P → P.Meets o Q ∧ (j = 0 ∨ B P.scope))
    (h : Reach o s tr s') : ∀ j P, s'[j]? = some P → P.Meets o Q ∧ (j = 0 ∨ B P.scope) := by
  refine Reach.every (J := fun j P => P.Meets o Q ∧ (j = 0 ∨ B P.scope)) init ?_ ?_ ?_ h
  · intro i j P P' hm hp
    refine ⟨hm.1.passive hp, ?_⟩
    cases hp <;> exact hm.2
  · intro j P P' hm ha
    refine ⟨hm.1.acts ha, ?_⟩
    cases ha <;> exact hm.2
  · intro j k parent scope f scope' c n _ hm
    exact ⟨hm.1.2.1, .inr (forks scope f scope' c n (Prog.All.here hm.1))⟩

end all

end Xv6.Source.Proc
