import Xv6.Ptable.Wakes

/-!
# The invariant of the process table

What holds between any two steps, what each step guarantees, and the rule from which the rules
for the operations follow. With `strict`, `kill` is never called with pid 0.
-/
namespace Xv6.Ptable

open Xv6.Library Xv6.Library.Thread Xv6.Source.Ptable

variable {Cpu : Type} {strict : Prop} {s s' : State Cpu} {g : Ghost Cpu} {t : Thread Cpu} {c : Cpu}
  {ℓ : Local} {op : Op}

structure Kills (strict : Prop) (s : State Cpu) (g : Ghost Cpu) : Prop where
  kills : ∀ t, s.kills t = (g t).call
  named : strict → ∀ t pid n, (g t).call = some (pid, n) → pid ≠ 0

structure Inv (strict : Prop) (s : State Cpu) (g : Ghost Cpu) : Prop where
  core : Core strict s g
  parents : Parents s
  children : Children s g
  waiting : Waiting s g
  wakes : Wakes s g
  kills : Kills strict s g

theorem Inv.kills_eq {o : Option (Int32 × Nat)} (hinv : Inv strict s g) (h : (g t).call = o) : s.kills t = o :=
  (hinv.kills.kills t).trans h

/-- The two tables look the same to a system call. -/
structure SameTable (s s' : State Cpu) : Prop where
  state : s'.state = s.state
  chan : s'.chan = s.chan
  killed : s'.killed = s.killed
  xstate : s'.xstate = s.xstate
  pid : s'.pid = s.pid
  parent : s'.parent = s.parent

theorem SameTable.rfl : SameTable s s :=
  ⟨Eq.refl _, Eq.refl _, Eq.refl _, Eq.refl _, Eq.refl _, Eq.refl _⟩

/-- What every step guarantees. -/
structure Orderly (strict : Prop) (t : Thread Cpu) (op : Op) (s s' : State Cpu) : Prop where
  /-- A context is loaded only when it has been saved. -/
  load : ∀ p, op = .swtchTo p → s.loc p = none ∧ s.ctx p ≠ .gone
  /-- A process exits once. -/
  exit : ∀ status, op = .becomeZombie status → ∃ me, t = .proc me ∧ s.exited me = none
  /-- The parent reaps, and finds what was passed to `exit`. -/
  reap : ∀ p pid status, op = .reap p pid status → s.state p = .zombie ∧
    s.exited p = some (pid, status) ∧ ∃ me, t = .proc me ∧ s.parent p = some me
  /-- A zombie is freed only after it has been reaped and has switched away. -/
  freed : ∀ p, s.state p = .zombie → s'.state p ≠ .zombie → s.exited p = none ∧ s.loc p = none
  /-- A process is marked by a `kill` of its pid, or by itself. -/
  marked : ∀ p, s.killed p = false → s'.killed p = true → t = .proc p ∧ op = .setKilled p true ∨
    ∃ n, s.kills t = some (s.pid p, n) ∧ (strict → s.state p ≠ .unused)
  /-- A `kill` changes nothing but one process that has the pid. -/
  killing : ∀ pid n, s.kills t = some (pid, n) → SameTable s s' ∨
    n = 0 ∧ ∃ p, op = .mark p ∧ s.pid p = pid ∧ (strict → s.state p ≠ .unused)
  /-- It returns 0 if it has marked a process, and otherwise -1. -/
  result : ∀ r, op = .killEnd r → ∃ pid n, s.kills t = some (pid, n) ∧ (r = 0 ∧ n = 1 ∨ r = -1 ∧ n = 0)
  born : strict → ∀ p, s.state p = .unused → s'.state p ≠ .unused → s'.killed p = false

/-- Operations of which more is asked than that the table stays in order. -/
def special : Op → Bool
  | .swtchTo _ => true
  | .becomeZombie _ => true
  | .reap _ _ _ => true
  | .killEnd _ => true
  | _ => false

theorem Orderly.same (hop : special op = false) (h : SameTable s s') : Orderly strict t op s s' where
  load := by rintro p rfl; exact nomatch hop
  exit := by rintro st rfl; exact nomatch hop
  reap := by rintro p pid st rfl; exact nomatch hop
  freed p hz hnz := absurd (h.state ▸ hz) hnz
  marked p hf ht := by
    rw [h.killed, hf] at ht
    exact nomatch ht
  killing _ _ _ := .inl h
  result := by rintro r rfl; exact nomatch hop
  born _ p hu hnu := absurd (h.state ▸ hu) hnu

/-- A step that writes to entries, outside of `kill`. -/
theorem Orderly.write (hop : special op = false) (hcall : s.kills t = none)
    (hfreed : ∀ p, s.state p = .zombie → s'.state p ≠ .zombie → s.exited p = none ∧ s.loc p = none)
    (hmarked : ∀ p, s.killed p = false → s'.killed p = true → t = .proc p ∧ op = .setKilled p true)
    (hborn : strict → ∀ p, s.state p = .unused → s'.state p ≠ .unused → s'.killed p = false) :
    Orderly strict t op s s' where
  load := by rintro p rfl; exact nomatch hop
  exit := by rintro st rfl; exact nomatch hop
  reap := by rintro p pid st rfl; exact nomatch hop
  freed := hfreed
  marked p hf ht := .inl (hmarked p hf ht)
  killing pid n hk := by
    rw [hcall] at hk
    exact nomatch hk
  result := by rintro r rfl; exact nomatch hop
  born := hborn

variable [DecidableEq Cpu]

/-- Any panic but those that say that a loaded context is loaded, or that a zombie goes on. -/
def reachable (msg : String) : Prop := msg ≠ "context" ∧ msg ≠ "zombie exit"

def logic (Cpu : Type) (strict : Prop) : Logic (Thread Cpu) (State Cpu) Op (Ghost Cpu) Local where
  loc t g := g t
  inv := Inv strict
  guard _ op _ := strict → op ≠ .killBegin 0
  panics := reachable
  step := Orderly strict

/-- Operations that any thread performs on the CPU it is on. -/
def onCpu : Op → Bool
  | .trapBegin => false
  | .irqBegin => false
  | _ => true

theorem perform_onCpu (hop : onCpu op = true) : perform t op s =
    match hart s t with
    | some c => stepOn t c op s
    | none => .blocked := by
  cases op with
  | trapBegin => exact nomatch hop
  | irqBegin => exact nomatch hop
  | _ => cases t <;> rfl

/-- A step is one on a CPU, or the beginning of an interrupt. -/
theorem perform_ok {r : Ret op} (h : perform t op s = .ok (r, s')) : (∃ c, stepOn t c op s = .ok (r, s')) ∨
    onCpu op = false ∧ s' = { s with trapped := s'.trapped, intr := s'.intr } := by
  have hother : (match hart s t with
      | some c => stepOn t c op s
      | none => .blocked) = .ok (r, s') → ∃ c, stepOn t c op s = .ok (r, s') := by
    intro hstep
    split at hstep
    · exact ⟨_, hstep⟩
    · exact nomatch hstep
  cases hop : onCpu op with
  | true =>
    rw [perform_onCpu hop] at h
    exact .inl (hother h)
  | false =>
    cases op with
    | trapBegin =>
      cases t with
      | trap p =>
        simp only [perform, beginTrap] at h
        split at h
        · split at h
          · cases h
            exact .inr ⟨rfl, rfl⟩
          · exact nomatch h
        · exact nomatch h
      | _ => exact .inl (hother h)
    | irqBegin =>
      cases t with
      | irq c =>
        simp only [perform, beginIrq] at h
        split at h
        · cases h
          exact .inr ⟨rfl, rfl⟩
        · exact nomatch h
      | _ => exact .inl (hother h)
    | _ => exact nomatch hop

/-- The rule for an operation. -/
theorem rule (hop : onCpu op = true) {post : Ret op → Local → Prop}
    (h : ∀ (s : State Cpu) g c, Inv strict s g → g t = ℓ → hart s t = some c →
      (strict → op ≠ .killBegin 0) → stepOn t c op s = .blocked ∨
        (∃ msg, stepOn t c op s = .panic msg ∧ reachable msg) ∨
        ∃ r s' ℓ', stepOn t c op s = .ok (r, s') ∧ Orderly strict t op s s' ∧
          Inv strict s' (Function.update g t ℓ') ∧ post r ℓ') :
    Does perform (logic Cpu strict) t op ℓ post := by
  refine Does.local_or (fun _ _ => rfl) fun s g hinv hg hguard => ?_
  rw [perform_onCpu hop]
  cases hart : hart s t with
  | none => exact .inl rfl
  | some c => exact h s g c hinv hg hart hguard

/-- The rule for an operation that a thread that is alive always carries out. -/
theorem rule_ok (hop : onCpu op = true) (hlive : Live t ℓ) {post : Ret op → Local → Prop}
    (h : ∀ (s : State Cpu) g c, Inv strict s g → g t = ℓ → Moves s g t c →
      ∃ r s' ℓ', stepOn t c op s = .ok (r, s') ∧ Orderly strict t op s s' ∧
        Inv strict s' (Function.update g t ℓ') ∧ post r ℓ') :
    Does perform (logic Cpu strict) t op ℓ post :=
  rule hop fun s g c hinv hg hart _ => .inr (.inr (h s g c hinv hg ⟨hart, hg ▸ hlive⟩))

theorem Kills.same (h : Kills strict s g) (hkills : s'.kills = s.kills) (hcall : ℓ.call = (g t).call) :
    Kills strict s' (Function.update g t ℓ) := by
  have hsame : ∀ t', (Function.update g t ℓ t').call = (g t').call := by
    intro t'
    by_cases ht : t' = t
    · rw [ht, Function.update_self, hcall]
    · rw [Function.update_of_ne ht]
  refine ⟨fun t' => ?_, fun hs t' pid n hc => ?_⟩
  · rw [hkills, hsame]
    exact h.kills t'
  · rw [hsame] at hc
    exact h.named hs t' pid n hc

theorem Children.same (h : Children s g) (hstate : s'.state = s.state) (hparent : s'.parent = s.parent)
    (hchild : ℓ.child = (g t).child) : Children s' (Function.update g t ℓ) := by
  refine h.keep (fun t' => ?_) fun t' p b hc => ?_
  · by_cases ht : t' = t
    · rw [ht, Function.update_self, hchild]
    · rw [Function.update_of_ne ht]
  · rw [hstate, hparent]
    exact ⟨(h.used t' p b hc).1, rfl⟩

/-- A step that leaves the entries alone; `ℓ` has no new sleep. -/
theorem Inv.same (h : Inv strict s g) (hcore : Core strict s' (Function.update g t ℓ))
    (htable : SameTable s s') (hu : Unwoken s s') (hkills : s'.kills = s.kills)
    (hbound : ∀ p chan b, ℓ.work = some (p, .bound chan b) → ∃ b', (g t).work = some (p, .bound chan b'))
    (hchild : ℓ.child = (g t).child) (hwake : ℓ.wake = (g t).wake) (hcall : ℓ.call = (g t).call)
    (hwaiting : Settled s g s' (Function.update g t ℓ) → Waiting s' (Function.update g t ℓ)) :
    Inv strict s' (Function.update g t ℓ) := by
  have hpending : ∀ p chan, Pending s' (Function.update g t ℓ) p chan → Pending s g p chan :=
    fun p chan hp => hp.of_update (by rw [htable.state]) (by rw [htable.chan]) fun _ b hb =>
      hbound p chan b hb
  refine ⟨hcore, ?_, ?_, hwaiting ?_, ?_, ?_⟩
  · refine h.parents.keep (fun p q hp => ?_) fun p hp => ?_
    · rwa [htable.parent] at hp
    · rwa [htable.state]
  · exact h.children.same htable.state htable.parent hchild
  · exact ⟨htable.parent, fun p hp => by rwa [htable.state] at hp, fun p => hpending p _⟩
  · exact h.wakes.same hu hpending hwake
  · exact h.kills.same hkills hcall

end Xv6.Ptable
