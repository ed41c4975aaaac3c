import Mathlib.Logic.Function.Basic
import Xv6.Library.Transition

/-!
# Threads over a shared state

A program is a tree of calls of atomic operations. Threads run programs in any order, one
operation at a time, or one program runs alone to its end. In the logic a thread knows its
own part of a ghost state, an invariant ties the ghost state to the shared state, and an
operation of one thread leaves the parts of the others as they are.
-/
namespace Xv6.Library.Thread

/-- A program with operations in `Op` and results in `α`. -/
inductive Prog (Op : Type) (Ret : Op → Type) (α : Type) where
  | ret (a : α)
  | call (op : Op) (k : Ret op → Prog Op Ret α)

namespace Prog
variable {Op : Type} {Ret : Op → Type} {α β : Type}

def bind : Prog Op Ret α → (α → Prog Op Ret β) → Prog Op Ret β
  | .ret a, f => f a
  | .call op k, f => .call op fun r => (k r).bind f

instance : Monad (Prog Op Ret) where
  pure := .ret
  bind := bind

def op (o : Op) : Prog Op Ret (Ret o) := .call o .ret

end Prog

/-- What an operation does: it returns, it has to wait, or it stops the machine. -/
inductive Outcome (α : Type) where
  | ok (a : α)
  | blocked
  | panic (msg : String)

section semantics
variable {Tid State Op : Type} {Ret : Op → Type} {α β : Type}
  (exec : Tid → (op : Op) → State → Outcome (Ret op × State))

/-- Thread `t` runs a program to its end while no other thread runs. Each operation meets
the condition `guard` in the state in which it runs. -/
inductive Alone (guard : Tid → Op → State → Prop) (t : Tid) :
    Prog Op Ret α → State → α → State → Prop
  | ret (a : α) (s : State) : Alone guard t (.ret a) s a s
  | call {op : Op} {k : Ret op → Prog Op Ret α} {s s₁ s₂ : State} {r : Ret op} {a : α} :
      guard t op s → exec t op s = .ok (r, s₁) → Alone guard t (k r) s₁ a s₂ →
      Alone guard t (.call op k) s a s₂

variable {exec} in
theorem Alone.bind {guard : Tid → Op → State → Prop} {t : Tid} {p : Prog Op Ret α} {f : α → Prog Op Ret β}
    {s s₁ s₂ : State} {a : α} {b : β} (hp : Alone exec guard t p s a s₁)
    (hf : Alone exec guard t (f a) s₁ b s₂) : Alone exec guard t (p >>= f) s b s₂ := by
  induction hp with
  | ret a s => exact hf
  | call hguard hexec _ ih => exact .call hguard hexec (ih hf)

/-- The shared state, and what each thread still has to run. -/
structure Config (Tid State Op : Type) (Ret : Op → Type) (α : Type) where
  state : State
  prog : Tid → Option (Prog Op Ret α)

/-- A move of the machine. -/
inductive Move (Tid Op α : Type) where
  | start (t : Tid)
  | act (t : Tid) (op : Op)
  | finish (t : Tid) (a : α)

variable [DecidableEq Tid]

/-- Any thread may make the next move. -/
inductive Step (guard : Tid → Op → State → Prop) (starts : State → Tid → Prog Op Ret α → Prop) :
    Config Tid State Op Ret α → Move Tid Op α → Config Tid State Op Ret α → Prop
  | start {c : Config Tid State Op Ret α} {t : Tid} {p : Prog Op Ret α} :
      c.prog t = none → starts c.state t p →
      Step guard starts c (.start t) ⟨c.state, Function.update c.prog t (some p)⟩
  | act {c : Config Tid State Op Ret α} {t : Tid} {op : Op} {k : Ret op → Prog Op Ret α} {r : Ret op}
      {s : State} :
      c.prog t = some (.call op k) → guard t op c.state → exec t op c.state = .ok (r, s) →
      Step guard starts c (.act t op) ⟨s, Function.update c.prog t (some (k r))⟩
  | finish {c : Config Tid State Op Ret α} {t : Tid} {a : α} :
      c.prog t = some (.ret a) →
      Step guard starts c (.finish t a) ⟨c.state, Function.update c.prog t none⟩

theorem Step.mono {guard guard' : Tid → Op → State → Prop}
    {starts starts' : State → Tid → Prog Op Ret α → Prop}
    (hguard : ∀ t op s, guard t op s → guard' t op s) (hstarts : ∀ s t p, starts s t p → starts' s t p)
    {c c' : Config Tid State Op Ret α} {m : Move Tid Op α} (h : Step exec guard starts c m c') :
    Step exec guard' starts' c m c' := by
  cases h with
  | start hnone hst => exact .start hnone (hstarts _ _ _ hst)
  | act hcall hg hexec => exact .act hcall (hguard _ _ _ hg) hexec
  | finish hret => exact .finish hret

/-- The threads named make their next moves, one after the other, each an operation for which
`check` holds. -/
def schedule (check : Tid → Op → State → Bool) :
    List Tid → Config Tid State Op Ret α → Option (Config Tid State Op Ret α)
  | [], c => some c
  | t :: ts, c =>
    match c.prog t with
    | some (.call op k) =>
      match exec t op c.state with
      | .ok (r, s) =>
        if check t op c.state then
          schedule check ts ⟨s, Function.update c.prog t (some (k r))⟩
        else none
      | _ => none
    | _ => none

/-- What a schedule computes is the end of a run, in which each move passes the check. -/
theorem schedule_moves (guard : Tid → Op → State → Prop) (starts : State → Tid → Prog Op Ret α → Prop)
    {check : Tid → Op → State → Bool} (hcheck : ∀ t op s, check t op s = true → guard t op s)
    {ts : List Tid} {c c' : Config Tid State Op Ret α} (h : schedule exec check ts c = some c') :
    ∃ tr, Transition.Run (Step exec guard starts) c tr c' ∧
      List.Forall₂ (fun t m => ∃ op s, m = .act t op ∧ check t op s = true) ts tr := by
  induction ts generalizing c with
  | nil =>
    cases h
    exact ⟨[], .nil, .nil⟩
  | cons t ts ih =>
    rw [schedule] at h
    split at h
    · rename_i op k hprog
      split at h
      · rename_i r s hexec
        split at h
        · rename_i hok
          obtain ⟨tr, hrun, hall⟩ := ih h
          exact ⟨_, .cons (.act hprog (hcheck t op _ hok) hexec) hrun, .cons ⟨op, _, rfl, hok⟩ hall⟩
        · exact nomatch h
      · exact nomatch h
    · exact nomatch h

theorem schedule_run (guard : Tid → Op → State → Prop) (starts : State → Tid → Prog Op Ret α → Prop)
    {check : Tid → Op → State → Bool} (hcheck : ∀ t op s, check t op s = true → guard t op s)
    {ts : List Tid} {c c' : Config Tid State Op Ret α} (h : schedule exec check ts c = some c') :
    ∃ tr, Transition.Run (Step exec guard starts) c tr c' := by
  obtain ⟨tr, hrun, -⟩ := schedule_moves exec guard starts hcheck h
  exact ⟨tr, hrun⟩

theorem schedule_one (guard : Tid → Op → State → Prop) (starts : State → Tid → Prog Op Ret α → Prop)
    {check : Tid → Op → State → Bool} (hcheck : ∀ t op s, check t op s = true → guard t op s)
    {t : Tid} {c c' : Config Tid State Op Ret α} (h : schedule exec check [t] c = some c') :
    ∃ op s, Step exec guard starts c (.act t op) c' ∧ check t op s = true := by
  obtain ⟨tr, hrun, hall⟩ := schedule_moves exec guard starts hcheck h
  cases hall with
  | cons hm hnil =>
    cases hnil
    obtain ⟨op, s, rfl, hok⟩ := hm
    obtain ⟨c₁, hstep, hrest⟩ := hrun.of_cons
    cases hrest.of_nil
    exact ⟨op, s, hstep, hok⟩

/-- What happens next in a script: operations of these threads, or a thread starts a program or is
done with one. -/
inductive Scene (Tid Op : Type) (Ret : Op → Type) (α : Type) where
  | moves (ts : List Tid)
  | start (t : Tid) (p : Prog Op Ret α)
  | finish (t : Tid)

/-- A run computed scene by scene. -/
def script (check : Tid → Op → State → Bool) :
    List (Scene Tid Op Ret α) → Config Tid State Op Ret α → Option (Config Tid State Op Ret α)
  | [], c => some c
  | .moves ts :: scenes, c => (schedule exec check ts c).bind (script check scenes)
  | .start t p :: scenes, c =>
    match c.prog t with
    | none => script check scenes ⟨c.state, Function.update c.prog t (some p)⟩
    | some _ => none
  | .finish t :: scenes, c =>
    match c.prog t with
    | some (.ret _) => script check scenes ⟨c.state, Function.update c.prog t none⟩
    | _ => none

theorem script_run (guard : Tid → Op → State → Prop) (starts : State → Tid → Prog Op Ret α → Prop)
    {check : Tid → Op → State → Bool} (hcheck : ∀ t op s, check t op s = true → guard t op s)
    {scenes : List (Scene Tid Op Ret α)} (hstarts : ∀ t p, .start t p ∈ scenes → ∀ s, starts s t p)
    {c c' : Config Tid State Op Ret α} (h : script exec check scenes c = some c') :
    ∃ tr, Transition.Run (Step exec guard starts) c tr c' := by
  induction scenes generalizing c with
  | nil =>
    cases h
    exact ⟨[], .nil⟩
  | cons scene scenes ih =>
    have ih' := @ih fun t p hp => hstarts t p (List.mem_cons_of_mem _ hp)
    cases scene with
    | moves ts =>
      obtain ⟨c₁, h₁, h₂⟩ := Option.bind_eq_some_iff.1 h
      obtain ⟨tr₁, hrun₁⟩ := schedule_run exec guard starts hcheck h₁
      obtain ⟨tr₂, hrun₂⟩ := ih' h₂
      exact ⟨_, hrun₁.append hrun₂⟩
    | start t p =>
      rw [script] at h
      split at h
      · rename_i hnone
        obtain ⟨tr, hrun⟩ := ih' h
        exact ⟨_, .cons (.start hnone (hstarts t p (List.mem_cons_self ..) _)) hrun⟩
      · exact nomatch h
    | finish t =>
      rw [script] at h
      split at h
      · rename_i a hret
        obtain ⟨tr, hrun⟩ := ih' h
        exact ⟨_, .cons (.finish hret) hrun⟩
      · exact nomatch h

end semantics

/-- A ghost state with a part for each thread, the invariant, the condition under which
operations are considered, the panics that are let pass, and what each operation has to
guarantee. -/
structure Logic (Tid State Op Ghost Local : Type) where
  loc : Tid → Ghost → Local
  inv : State → Ghost → Prop
  guard : Tid → Op → State → Prop
  panics : String → Prop
  step : Tid → Op → State → State → Prop

section logic
variable {Tid State Op Ghost Local : Type} {Ret : Op → Type} {α β : Type}
  (exec : Tid → (op : Op) → State → Outcome (Ret op × State))
  (L : Logic Tid State Op Ghost Local)

/-- Operation `op` of thread `t` keeps the invariant and ends in `post`. -/
def Does (t : Tid) (op : Op) (ℓ : Local) (post : Ret op → Local → Prop) : Prop :=
  ∀ s g, L.inv s g → L.loc t g = ℓ → L.guard t op s →
    (∀ msg, exec t op s = .panic msg → L.panics msg) ∧
    ∀ r s', exec t op s = .ok (r, s') → L.step t op s s' ∧
      ∃ g', L.inv s' g' ∧ (∀ t', t' ≠ t → L.loc t' g' = L.loc t' g) ∧ post r (L.loc t g')

/-- Thread `t`, with its part `ℓ` of the ghost state, can run the program and ends in `post`. -/
def Safe (t : Tid) : Prog Op Ret α → Local → (α → Local → Prop) → Prop
  | .ret a, ℓ, post => post a ℓ
  | .call op k, ℓ, post => Does exec L t op ℓ fun r ℓ' => Safe t (k r) ℓ' post

/-- No thread is about to panic. -/
def Calm (c : Config Tid State Op Ret α) : Prop :=
  ∀ t op k msg, c.prog t = some (.call op k) → exec t op c.state ≠ .panic msg

variable {exec L} {t : Tid} {ℓ : Local}

theorem Does.mono {op : Op} {post post' : Ret op → Local → Prop} (h : Does exec L t op ℓ post)
    (himp : ∀ r ℓ', post r ℓ' → post' r ℓ') : Does exec L t op ℓ post' := by
  intro s g hinv hloc hguard
  obtain ⟨hpanic, hok⟩ := h s g hinv hloc hguard
  refine ⟨hpanic, fun r s' hexec => ?_⟩
  obtain ⟨hstep, g', hinv', hframe, hpost⟩ := hok r s' hexec
  exact ⟨hstep, g', hinv', hframe, himp _ _ hpost⟩

theorem Safe.ret {a : α} {post : α → Local → Prop} (h : post a ℓ) :
    Safe exec L t (pure a) ℓ post := h

theorem Safe.op {o : Op} {post : Ret o → Local → Prop} (h : Does exec L t o ℓ post) :
    Safe exec L t (Prog.op o) ℓ post := h

theorem Safe.mono {p : Prog Op Ret α} {post post' : α → Local → Prop}
    (h : Safe exec L t p ℓ post) (himp : ∀ a ℓ', post a ℓ' → post' a ℓ') :
    Safe exec L t p ℓ post' := by
  induction p generalizing ℓ with
  | ret a => exact himp a ℓ h
  | call op k ih => exact Does.mono h fun r ℓ' hk => ih r hk

theorem Safe.bind {p : Prog Op Ret α} {f : α → Prog Op Ret β} {mid : α → Local → Prop}
    {post : β → Local → Prop} (hp : Safe exec L t p ℓ mid)
    (hf : ∀ a ℓ', mid a ℓ' → Safe exec L t (f a) ℓ' post) : Safe exec L t (p >>= f) ℓ post := by
  induction p generalizing ℓ with
  | ret a => exact hf a ℓ hp
  | call op k ih => exact Does.mono hp fun r ℓ' hk => ih r hk

/-- The invariant holds, and every thread can go on. -/
structure Good (exec : Tid → (op : Op) → State → Outcome (Ret op × State))
    (L : Logic Tid State Op Ghost Local) (quiet : Local → Prop) (c : Config Tid State Op Ret α)
    (g : Ghost) : Prop where
  inv : L.inv c.state g
  idle : ∀ t, c.prog t = none → quiet (L.loc t g)
  safe : ∀ t p, c.prog t = some p → Safe exec L t p (L.loc t g) fun _ => quiet

variable {quiet : Local → Prop} {starts : State → Tid → Prog Op Ret α → Prop}
  {c c' : Config Tid State Op Ret α} {g : Ghost}

/-- A thread whose programs are safe never panics in a way that is not let pass. -/
theorem Good.no_panic (h : Good exec L quiet c g) {op : Op} {k : Ret op → Prog Op Ret α}
    {msg : String} (hcall : c.prog t = some (.call op k)) (hguard : L.guard t op c.state)
    (hpanic : exec t op c.state = .panic msg) : L.panics msg :=
  (h.safe t _ hcall _ g h.inv rfl hguard).1 msg hpanic

variable [DecidableEq Tid]

/-- The rule for an operation when the ghost state is a function of the thread: only the part of
its thread changes. -/
theorem Does.local_or {L : Logic Tid State Op (Tid → Local) Local} (hloc : ∀ t g, L.loc t g = g t)
    {op : Op} {post : Ret op → Local → Prop}
    (h : ∀ s g, L.inv s g → g t = ℓ → L.guard t op s → exec t op s = .blocked ∨
      (∃ msg, exec t op s = .panic msg ∧ L.panics msg) ∨
      ∃ r s' ℓ', exec t op s = .ok (r, s') ∧ L.step t op s s' ∧
        L.inv s' (Function.update g t ℓ') ∧ post r ℓ') : Does exec L t op ℓ post := by
  intro s g hinv hg hguard
  rw [hloc] at hg
  rcases h s g hinv hg hguard with hblocked | ⟨msg, hmsg, hpanic⟩ | ⟨r, s', ℓ', hok, hstep, hinv', hpost⟩
  · rw [hblocked]
    exact ⟨nofun, nofun⟩
  · rw [hmsg]
    refine ⟨fun msg' heq => ?_, nofun⟩
    cases heq
    exact hpanic
  · rw [hok]
    refine ⟨nofun, fun r₁ s₁ heq => ?_⟩
    cases heq
    refine ⟨hstep, _, hinv', fun t' ht' => ?_, ?_⟩
    · rw [hloc, hloc, Function.update_of_ne ht']
    · rw [hloc, Function.update_self]
      exact hpost

/-- The same for an operation that does not panic. -/
theorem Does.local {L : Logic Tid State Op (Tid → Local) Local} (hloc : ∀ t g, L.loc t g = g t)
    {op : Op} {post : Ret op → Local → Prop}
    (h : ∀ s g, L.inv s g → g t = ℓ → L.guard t op s → exec t op s = .blocked ∨
      ∃ r s' ℓ', exec t op s = .ok (r, s') ∧ L.step t op s s' ∧
        L.inv s' (Function.update g t ℓ') ∧ post r ℓ') : Does exec L t op ℓ post :=
  Does.local_or hloc fun s g hinv hg hguard => (h s g hinv hg hguard).imp_right .inr

/-- Only thread `t` has moved. -/
theorem Good.set (h : Good exec L quiet c g) {s : State} {g' : Ghost} {o : Option (Prog Op Ret α)}
    (hinv : L.inv s g') (hframe : ∀ t', t' ≠ t → L.loc t' g' = L.loc t' g)
    (hidle : o = none → quiet (L.loc t g'))
    (hsafe : ∀ p, o = some p → Safe exec L t p (L.loc t g') fun _ => quiet) :
    Good exec L quiet ⟨s, Function.update c.prog t o⟩ g' := by
  refine ⟨hinv, fun t' ht' => ?_, fun t' p hp => ?_⟩
  · by_cases htt : t' = t
    · subst htt
      exact hidle (by simpa using ht')
    · rw [hframe t' htt]
      exact h.idle t' (by simpa [Function.update_of_ne htt] using ht')
  · by_cases htt : t' = t
    · subst htt
      exact hsafe p (by simpa using hp)
    · rw [hframe t' htt]
      exact h.safe t' p (by simpa [Function.update_of_ne htt] using hp)

/-- One move of any thread. -/
theorem Good.move {m : Move Tid Op α} (h : Good exec L quiet c g)
    (hstarts : ∀ s t p ℓ, starts s t p → quiet ℓ → Safe exec L t p ℓ fun _ => quiet)
    (hmove : Step exec L.guard starts c m c') :
    (∃ g', Good exec L quiet c' g') ∧ ∀ t op, m = .act t op → L.step t op c.state c'.state := by
  cases hmove with
  | @start t p hnone hst =>
    refine ⟨⟨g, h.set h.inv (fun _ _ => rfl) (by simp) fun q hq => ?_⟩, fun _ _ heq => by cases heq⟩
    cases hq
    exact hstarts _ _ _ _ hst (h.idle _ hnone)
  | @act t op k r s hcall hguard hexec =>
    obtain ⟨hstep, g', hinv', hframe, hsafe'⟩ := (h.safe t _ hcall _ g h.inv rfl hguard).2 _ _ hexec
    refine ⟨⟨g', h.set hinv' hframe (by simp) fun q hq => ?_⟩, fun _ _ heq => ?_⟩
    · cases hq
      exact hsafe'
    · cases heq
      exact hstep
  | @finish t a hret =>
    exact ⟨⟨g, h.set h.inv (fun _ _ => rfl) (fun _ => h.safe t _ hret) (by simp)⟩,
      fun _ _ heq => by cases heq⟩

/-- What holds in every run of threads whose programs are safe. -/
theorem Good.run {c₀ : Config Tid State Op Ret α} (hstarts : ∀ s t p ℓ, starts s t p → quiet ℓ →
      Safe exec L t p ℓ fun _ => quiet)
    {g₀ : Ghost} (h₀ : Good exec L quiet c₀ g₀) {tr : List (Move Tid Op α)}
    (hrun : Transition.Run (Step exec L.guard starts) c₀ tr c) : ∃ g, Good exec L quiet c g :=
  hrun.invariant (I := fun c => ∃ g, Good exec L quiet c g) ⟨g₀, h₀⟩
    fun _ _ _ ⟨_, hg⟩ hmove => (hg.move hstarts hmove).1

end logic
end Xv6.Library.Thread
