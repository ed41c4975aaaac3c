import Xv6.Ptable.System

/-!
# No lost wakeup

Once a `wakeup(chan)` is over, no process sleeps on `chan` that has not called `sleep` since the
wakeup began, whatever the other CPUs do. A waker that takes `lk` after the sleeper has released
it in `sleep(chan, lk)` begins its wakeup after that release, so that its sleeper is one of them.
-/
namespace Xv6.Guarantees.LostWakeup

open Xv6.Library Xv6.Library.Thread Xv6.Source.Ptable Xv6.Ptable

variable {Cpu : Type} [DecidableEq Cpu] {s s' : State Cpu} {t v : Thread Cpu} {p : Slot} {chan : Chan} {op : Op}

/-- The process gives back the lock that it has passed to `sleep`. -/
def Sleeps (p : Slot) (m : Move (Thread Cpu) Op Unit) : Prop :=
  ∃ v lk ch, m = .act v (.sleepRelease lk ch) ∧ self v = some p

/-! ## The history of sleeps and wakeups -/

/-- What a step adds to the history. -/
structure History (t : Thread Cpu) (op : Op) (s s' : State Cpu) : Prop where
  sleeps : ∀ p, ¬ Sleeps p (.act t op) → s'.sleeps p = s.sleeps p
  begun : ∀ v, (v = t → op ≠ .wakeBegin) → s'.begun v = s.begun v
  starts : op = .wakeBegin → s'.begun t = s.sleeps
  woken : ∀ p ch, s.woken p ch ≤ s'.woken p ch
  ends : ∀ ch, op = .wakeEnd ch → ∀ p, s.begun t p ≤ s'.woken p ch

/-- Operations that have no part in it. -/
def bystander : Op → Bool
  | .sleepRelease _ _ => false
  | .wakeBegin => false
  | .wakeEnd _ => false
  | _ => true

theorem stepOn_bystander {c : Cpu} {r : Ret op} (hop : bystander op = true)
    (h : stepOn t c op s = .ok (r, s')) : Unwoken s s' := by
  cases op with
  | sleepRelease => exact nomatch hop
  | wakeBegin => exact nomatch hop
  | wakeEnd => exact nomatch hop
  | _ =>
    simp only [stepOn] at h
    repeat' split at h
    all_goals first | contradiction | (cases h; exact ⟨rfl, rfl, rfl⟩)

omit [DecidableEq Cpu] in
theorem history_of_unwoken (hop : bystander op = true) (h : Unwoken s s') : History t op s s' where
  sleeps p _ := by rw [h.sleeps]
  begun v _ := by rw [h.begun]
  starts := by rintro rfl; exact nomatch hop
  woken p ch := by rw [h.woken]
  ends := by rintro ch rfl; exact nomatch hop

theorem stepOn_history {c : Cpu} {r : Ret op} (h : stepOn t c op s = .ok (r, s')) : History t op s s' := by
  cases op with
  | sleepRelease lk ch =>
    simp only [stepOn] at h
    split at h
    · rename_i q hq
      split at h
      · cases h
        refine ⟨fun p hp => ?_, fun _ _ => rfl, by rintro ⟨⟩, fun _ _ => le_rfl, by rintro _ ⟨⟩⟩
        refine Function.update_of_ne (fun hpq => hp ⟨t, lk, ch, rfl, ?_⟩) ..
        rw [hq, hpq]
      · cases h
    · cases h
  | wakeBegin =>
    cases h
    exact ⟨fun _ _ => rfl, fun v hv => Function.update_of_ne (fun hvt => hv hvt rfl) ..,
      fun _ => Function.update_self .., fun _ _ => le_rfl, by rintro _ ⟨⟩⟩
  | wakeEnd ch =>
    cases h
    refine ⟨fun _ _ => rfl, fun _ _ => rfl, by rintro ⟨⟩, fun p ch' => ?_, fun ch' heq p => ?_⟩
    · dsimp only
      split
      · exact le_max_right _ _
      · exact le_rfl
    · cases heq
      dsimp only
      rw [if_pos rfl]
      exact le_max_left _ _
  | _ => exact history_of_unwoken rfl (stepOn_bystander rfl h)

/-- A move leaves the state as it is, or is a step. -/
theorem history_of_move {c c' : Configuration Cpu} {m : Move (Thread Cpu) Op Unit}
    (hmove : Machine Cpu anyMove c m c') :
    c'.state = c.state ∧ (∀ t op, m ≠ .act t op) ∨ ∃ t op, m = .act t op ∧ History t op c.state c'.state := by
  cases hmove with
  | start => exact .inl ⟨rfl, nofun⟩
  | finish => exact .inl ⟨rfl, nofun⟩
  | @act t op k r s' _ _ hexec =>
    refine .inr ⟨t, op, rfl, ?_⟩
    rcases perform_ok hexec with ⟨c, hstep⟩ | ⟨hop, hsame⟩
    · exact stepOn_history hstep
    · dsimp only
      rw [hsame]
      cases op with
      | trapBegin => exact history_of_unwoken rfl ⟨rfl, rfl, rfl⟩
      | irqBegin => exact history_of_unwoken rfl ⟨rfl, rfl, rfl⟩
      | _ => exact nomatch hop

theorem history_of_act {c c' : Configuration Cpu} (hmove : Machine Cpu anyMove c (.act t op) c') :
    History t op c.state c'.state := by
  rcases history_of_move hmove with ⟨-, hno⟩ | ⟨v, op', heq, hist⟩
  · exact absurd rfl (hno t op)
  · cases heq
    exact hist

/-! ## Runs -/

/-- The wakeup of `t` began when process `p` had called `sleep` so many times, and it has not
called `sleep` since. -/
def Begun (t : Thread Cpu) (p : Slot) (n : Nat) (c : Configuration Cpu) : Prop :=
  c.state.begun t p = n ∧ c.state.sleeps p = n

/-- A wakeup on `chan` that began so late is over. -/
def Over (chan : Chan) (p : Slot) (n : Nat) (c : Configuration Cpu) : Prop :=
  n ≤ c.state.woken p chan ∧ c.state.sleeps p = n

theorem Begun.move {n : Nat} {c c' : Configuration Cpu} {m : Move (Thread Cpu) Op Unit}
    (hok : m ≠ .act t .wakeBegin ∧ ¬ Sleeps p m) (h : Begun t p n c) (hmove : Machine Cpu anyMove c m c') :
    Begun t p n c' := by
  rcases history_of_move hmove with ⟨hsame, -⟩ | ⟨v, op, rfl, hist⟩
  · rwa [Begun, hsame]
  · refine ⟨?_, (hist.sleeps p hok.2).trans h.2⟩
    rw [hist.begun t]
    · exact h.1
    · rintro rfl rfl
      exact hok.1 rfl

theorem Over.move {n : Nat} {c c' : Configuration Cpu} {m : Move (Thread Cpu) Op Unit}
    (hok : ¬ Sleeps p m) (h : Over chan p n c) (hmove : Machine Cpu anyMove c m c') : Over chan p n c' := by
  rcases history_of_move hmove with ⟨hsame, -⟩ | ⟨v, op, rfl, hist⟩
  · rwa [Over, hsame]
  · exact ⟨h.1.trans (hist.woken p chan), (hist.sleeps p hok).trans h.2⟩

/-- Thread `t` goes through `wakeup(chan)`, and process `p` does not call `sleep` from when it
begins. -/
theorem no_lost_wakeup {c : Configuration Cpu} {before during after : List (Move (Thread Cpu) Op Unit)}
    (hrun : Transition.Run (Machine Cpu anyMove) (start Cpu)
      (before ++ .act t .wakeBegin :: (during ++ .act t (.wakeEnd chan) :: after)) c)
    (hone : .act t .wakeBegin ∉ during) (hduring : ∀ m ∈ during, ¬ Sleeps p m)
    (hafter : ∀ m ∈ after, ¬ Sleeps p m) :
    ¬ (c.state.state p = .sleeping ∧ c.state.chan p = chan) := by
  obtain ⟨g, hgood⟩ := good_of_run (run_of_any hrun)
  obtain ⟨c₁, -, hrun₁⟩ := hrun.of_append
  obtain ⟨c₂, hbegin, hrun₂⟩ := hrun₁.of_cons
  obtain ⟨c₃, hrun₃, hrun₄⟩ := hrun₂.of_append
  obtain ⟨c₄, hend, hrun₅⟩ := hrun₄.of_cons
  have h₂ : Begun t p (c₂.state.sleeps p) c₂ := by
    have hist := history_of_act hbegin
    have hsleeps := hist.sleeps p (by rintro ⟨v, lk, ch, heq, -⟩; cases heq)
    exact ⟨by rw [hist.starts rfl, hsleeps], rfl⟩
  have h₃ : Begun t p (c₂.state.sleeps p) c₃ :=
    hrun₃.segment h₂ (fun _ _ _ hok h => h.move hok) fun m hm =>
      ⟨fun heq => hone (heq ▸ hm), hduring m hm⟩
  have h₄ : Over chan p (c₂.state.sleeps p) c₄ := by
    have hist := history_of_act hend
    refine ⟨h₃.1 ▸ hist.ends chan rfl p, ?_⟩
    rw [hist.sleeps p (by rintro ⟨v, lk, ch, heq, -⟩; cases heq)]
    exact h₃.2
  obtain ⟨hwoken, hsleeps⟩ := hrun₅.segment h₄ (fun _ _ _ hok h => h.move hok) hafter
  rintro ⟨hst, hch⟩
  have hlt := hgood.inv.wakes.outstanding p chan (.inl ⟨hst, hch⟩)
  omega

/-! ## A sleeper and a device interrupt -/

/-- Init sleeps on channel 5 with lock 0. -/
def dozing : Call := .kernel [.acquire 0, .sleep 5 0, .release 0] rfl

/-- Init has gone to sleep, and the interrupt handler is about to wake it. -/
def asleep : Option (Configuration Unit) :=
  script perform (fun _ _ _ => true) (initRuns () ++ calls init dozing 8 ++
    [.moves [.sched (), .sched ()], .start (.irq ()) (handler [.wakeup 5]), .moves [.irq ()]]) (start Unit)

def begins (_ : Thread Unit) (op : Op) (_ : State Unit) : Bool :=
  match op with
  | .wakeBegin => true
  | _ => false

def looks (_ : Thread Unit) (op : Op) (_ : State Unit) : Bool :=
  bystander op

def ends (_ : Thread Unit) (op : Op) (_ : State Unit) : Bool :=
  match op with
  | .wakeEnd chan => decide (chan = .other 5)
  | _ => false

def begun : Option (Configuration Unit) := asleep.bind (schedule perform begins [.irq ()])
def looked : Option (Configuration Unit) := begun.bind (schedule perform looks (List.replicate 192 (.irq ())))
def woken : Option (Configuration Unit) := looked.bind (schedule perform ends [.irq ()])

theorem looks_bystander {vs : List (Thread Unit)} {tr : List (Move (Thread Unit) Op Unit)}
    (h : List.Forall₂ (fun v m => ∃ op s, m = .act v op ∧ looks v op s = true) vs tr) :
    ∀ m ∈ tr, ∃ v op, m = .act v op ∧ bystander op = true := by
  induction h with
  | nil => exact nofun
  | cons hm _ ih =>
    obtain ⟨op, s, rfl, hop⟩ := hm
    exact List.forall_mem_cons.2 ⟨⟨_, op, rfl, hop⟩, ih⟩

theorem asleep_run {c : Configuration Unit} (h : asleep = some c) :
    ∃ tr, Transition.Run (Machine Unit anyMove) (start Unit) tr c := by
  refine script_run perform anyMove (fun _ => Starts) (fun _ _ _ _ => trivial) (fun t code hmem _ => ?_) h
  rcases List.mem_append.1 hmem with hmem | hmem
  · rcases List.mem_append.1 hmem with hmem | hmem
    · exact starts_initRuns hmem
    · exact starts_calls hmem
  · simp only [List.mem_cons, reduceCtorEq, false_or, List.not_mem_nil, or_false, Scene.start.injEq] at hmem
    obtain ⟨rfl, rfl⟩ := hmem
    exact .handler () _ rfl

theorem sleeper_woken : ∃ c₀ c₁ : Configuration Unit, asleep = some c₀ ∧ woken = some c₁ ∧
    c₀.state.state init = .sleeping ∧ c₀.state.chan init = .other 5 ∧
    ¬ (c₁.state.state init = .sleeping ∧ c₁.state.chan init = .other 5) := by
  have hsome : woken.isSome = true := by decide +kernel
  obtain ⟨c₄, h₄⟩ := Option.isSome_iff_exists.mp hsome
  obtain ⟨c₃, h₃, hend⟩ := Option.bind_eq_some_iff.1 h₄
  obtain ⟨c₂, h₂, hlook⟩ := Option.bind_eq_some_iff.1 h₃
  obtain ⟨c₁, h₁, hbegin⟩ := Option.bind_eq_some_iff.1 h₂
  obtain ⟨before, hrun₁⟩ := asleep_run h₁
  obtain ⟨op, s, hstep₂, hop⟩ := schedule_one perform anyMove (fun _ => Starts) (fun _ _ _ _ => trivial) hbegin
  obtain ⟨during, hrun₃, hall⟩ := schedule_moves perform anyMove (fun _ => Starts) (fun _ _ _ _ => trivial) hlook
  obtain ⟨op', s', hstep₄, hop'⟩ := schedule_one perform anyMove (fun _ => Starts) (fun _ _ _ _ => trivial) hend
  have hduring := looks_bystander hall
  obtain rfl : op = .wakeBegin := by
    cases op with
    | wakeBegin => rfl
    | _ => exact nomatch hop
  obtain rfl : op' = .wakeEnd (.other 5) := by
    cases op' with
    | wakeEnd chan => rw [of_decide_eq_true hop']
    | _ => exact nomatch hop'
  have hrun := hrun₁.append (.cons hstep₂ (hrun₃.append (.cons hstep₄ .nil)))
  have hnot := no_lost_wakeup (p := init) hrun ?_ ?_ nofun
  · have hstate : asleep.map (fun c => (c.state.state init, c.state.chan init)) =
        some (.sleeping, .other 5) := by
      decide +kernel
    rw [h₁] at hstate
    simp only [Option.map_some, Option.some.injEq, Prod.mk.injEq] at hstate
    exact ⟨c₁, c₄, h₁, h₄, hstate.1, hstate.2, hnot⟩
  · intro hmem
    obtain ⟨v, op, heq, hby⟩ := hduring _ hmem
    cases heq
    exact nomatch hby
  · rintro m hmem ⟨v, lk, ch, rfl, -⟩
    obtain ⟨v', op, heq, hby⟩ := hduring _ hmem
    cases heq
    exact nomatch hby

end Xv6.Guarantees.LostWakeup
