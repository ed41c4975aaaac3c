import Xv6.Ptable.Lives

/-!
# wakeup, kill and the scheduler

The rules for the operations of `wakeup` and `kill`, and for `c->proc`.
-/
namespace Xv6.Ptable

open Xv6.Library Xv6.Library.Thread Xv6.Source.Ptable

variable {Cpu : Type} [DecidableEq Cpu] {strict : Prop} {t : Thread Cpu} {ℓ : Local} {me q : Slot}

theorem does_stuck {post : Unit → Local → Prop} : Does perform (logic Cpu strict) t .stuck ℓ post :=
  rule rfl fun _ _ _ _ _ _ _ => .inl rfl

theorem does_panic {msg : String} {post : Unit → Local → Prop} (hmsg : reachable msg) :
    Does perform (logic Cpu strict) t (.panic msg) ℓ post :=
  rule rfl fun _ _ _ _ _ _ _ => .inr (.inl ⟨msg, rfl, hmsg⟩)

theorem does_nextPid (hlive : Live t ℓ) :
    Does perform (logic Cpu strict) t .nextPid ℓ fun _ ℓ' => ℓ' = ℓ := by
  refine rule_ok rfl hlive fun s g c hinv hg hm => ?_
  subst hg
  refine ⟨s.nextpid, { s with nextpid := s.nextpid + 1 }, g t, rfl,
    .same rfl ⟨rfl, rfl, rfl, rfl, rfl, rfl⟩, ?_, rfl⟩
  refine hinv.same (hinv.core.same hm ⟨rfl, rfl, rfl, rfl, rfl⟩ rfl rfl rfl rfl rfl rfl fun _ => rfl)
    ⟨rfl, rfl, rfl, rfl, rfl, rfl⟩ ⟨rfl, rfl, rfl⟩ rfl (fun p chan b hb => ⟨b, hb⟩) rfl rfl rfl fun hs => ?_
  exact hinv.waiting.keep hs id (fun _ hk => hk.keep hs rfl rfl rfl rfl rfl rfl) fun hx hd => ⟨hx, hd⟩

/-! ## wakeup -/

section rouse
variable (st : ProcState) (c chan : Chan)

theorem rouse_alive (h : Alive st) : Alive (st.rouse c chan) := by
  unfold ProcState.rouse
  split
  · exact .inl rfl
  · exact h

theorem rouse_zombie : st.rouse c chan = .zombie ↔ st = .zombie := by
  unfold ProcState.rouse
  split <;> simp_all

theorem rouse_used : st.rouse c chan = .used ↔ st = .used := by
  unfold ProcState.rouse
  split <;> simp_all

theorem rouse_unused : st.rouse c chan = .unused ↔ st = .unused := by
  unfold ProcState.rouse
  split <;> simp_all

theorem rouse_sleeping (h : st.rouse c chan = .sleeping) : st = .sleeping ∧ c ≠ chan := by
  unfold ProcState.rouse at h
  split at h
  · exact nomatch h
  · rename_i hnot
    exact ⟨h, fun hc => hnot ⟨h, hc⟩⟩

end rouse

omit [DecidableEq Cpu] in
/-- A process that is woken is at rest, as it was before. -/
theorem rest_rouse {v : View Cpu} (h : v.Rest strict q) (chan : Chan) (killed : Bool)
    (hkilled : strict → v.state = .unused → killed = v.killed) :
    ({ v with killed := killed, state := v.state.rouse v.chan chan } : View Cpu).Rest strict q := by
  unfold ProcState.rouse
  split
  · rename_i hsl
    simp only [View.Rest, hsl.1] at h
    exact ⟨.inl h.1, h.2⟩
  · cases hst : v.state <;> simp only [View.Rest, hst] at h ⊢
    case unused =>
      obtain ⟨h₁, h₂, h₃, h₄, h₅⟩ := h
      exact ⟨h₁, h₂, h₃, h₄, fun hs => (hkilled hs hst).trans (h₅ hs)⟩
    case used => exact h
    case sleeping => exact h
    case runnable => exact h
    case running => exact h
    case zombie => exact h

/-- Waking a process keeps the invariant. -/
theorem Inv.rouse {s : State Cpu} {g : Ghost Cpu} {c : Cpu} {st : Stage} (s' : State Cpu) (chan : Chan)
    (hinv : Inv strict s g) (hm : Moves s g t c) (hwork : (g t).work = some (q, st))
    (hs : EntryStep s s' q) (hcproc : s'.cproc = s.cproc)
    (hassigned : assigned (some (q, st)) = none) (hchan : s'.chan q = s.chan q)
    (hstate : s'.state q = (s.state q).rouse (s.chan q) chan) (hrest : (view s' g q).Rest strict q) :
    Inv strict s' (Function.update g t { g t with work := some (q, .held) }) := by
  refine hinv.entry_same hm hwork hs hcproc (fun _ => hassigned.symm) (fun _ => hrest) ?_ ?_ ?_ ?_
  · rw [hstate]
    exact rouse_alive _ _ _
  · rw [hstate, rouse_zombie]
    exact id
  · rw [hstate, rouse_used]
    exact id
  · intro ch hp
    refine hp.of_sleeping (fun hsl => ?_) nofun
    rw [hstate] at hsl
    exact ⟨(rouse_sleeping _ _ _ hsl).1, hchan⟩

/-- The wakeup has seen to one more process. -/
theorem Inv.seeTo {s : State Cpu} {g : Ghost Cpu} {c : Cpu} {chan : Chan} {ps : List Slot}
    (hinv : Inv strict s g) (hm : Moves s g t c) (hwake : (g t).wake = some (chan, ps))
    (hnot : ¬ Pending s g q chan) :
    Inv strict s (Function.update g t { g t with wake := some (chan, q :: ps) }) := by
  have hpending : ∀ p ch, Pending s (Function.update g t { g t with wake := some (chan, q :: ps) }) p ch →
      Pending s g p ch := fun p ch hp => hp.of_same rfl rfl rfl
  have hs : Settled s g s (Function.update g t { g t with wake := some (chan, q :: ps) }) :=
    ⟨rfl, fun _ hz => hz, fun p => hpending p _⟩
  refine ⟨?_, hinv.parents, hinv.children.same rfl rfl rfl, ?_, ?_, hinv.kills.same rfl rfl⟩
  · exact hinv.core.same hm .rfl rfl rfl rfl rfl rfl rfl fun _ => rfl
  · refine hinv.waiting.keep hs id (fun _ hk => ?_) fun hx hd => ⟨hx, hd⟩
    refine ⟨hk.parent, hk.kid, fun r hr hp => hk.awake r hr (hpending r _ hp), fun r ps' hr hmem hp => ?_,
      hk.seen, hk.cleared⟩
    cases hr
    rcases List.mem_cons.1 hmem with rfl | hmem
    · exact hnot (hpending r _ hp)
    · exact hk.wake r ps hwake hmem (hpending r _ hp)
  · refine hinv.wakes.keep ⟨rfl, rfl, rfl⟩ hpending fun ch ps' p hw hmem hp => ?_
    cases hw
    rcases List.mem_cons.1 hmem with rfl | hmem
    · exact absurd (hpending p chan hp) hnot
    · exact hinv.wakes.wake t chan ps p hwake hmem (hpending p chan hp)

theorem does_rouse {chan : Chan} (ps : List Slot) (hwork : ℓ.work = some (q, .held))
    (hwake : ℓ.wake = some (chan, ps)) (ht : t ≠ .proc q) (hcall : ℓ.call = none) (hlive : Live t ℓ) :
    Does perform (logic Cpu strict) t (.rouse q chan) ℓ fun _ ℓ' =>
      ℓ' = { ℓ with wake := some (chan, q :: ps) } := by
  refine rule_ok rfl hlive fun s g c hinv hg hm => ?_
  subst hg
  have hkills := hinv.kills_eq hcall
  have hinv₁ := hinv.rouse
    { s with state := Function.update s.state q ((s.state q).rouse (s.chan q) chan) } chan hm hwork
    ⟨⟨rfl, rfl, rfl, rfl, rfl⟩, rfl, rfl, rfl, ⟨rfl, rfl, rfl⟩, rfl, fun p hp => by simp [hp]⟩ rfl rfl rfl
    (Function.update_self ..) (by
      have hrest := rest_rouse (hinv.core.own_shape hm hwork).2 chan (s.killed q) fun _ _ => rfl
      simpa [view] using hrest)
  have hsame : Function.update g t { g t with work := some (q, .held) } = g := by
    rw [← hwork]
    exact Function.update_eq_self t g
  rw [hsame] at hinv₁
  refine ⟨(), _, { g t with wake := some (chan, q :: ps) }, rfl, ?_, hinv₁.seeTo ⟨hm.hart, hlive⟩ hwake ?_, rfl⟩
  · refine .write rfl hkills (fun p hz hnz => ?_) (fun p hf ht' => ?_) fun _ p hu hnu => ?_
    · dsimp only at hnz
      by_cases hpq : p = q
      · subst hpq
        rw [Function.update_self, Ne, rouse_zombie] at hnz
        exact absurd hz hnz
      · rw [Function.update_of_ne hpq] at hnz
        exact absurd hz hnz
    · rw [show s.killed p = true from ht'] at hf
      cases hf
    · dsimp only at hnu
      by_cases hpq : p = q
      · subst hpq
        rw [Function.update_self, Ne, rouse_unused] at hnu
        exact absurd hu hnu
      · rw [Function.update_of_ne hpq] at hnu
        exact absurd hu hnu
  · rintro (⟨hsl, hch⟩ | ⟨b, hb⟩)
    · dsimp only at hsl hch
      rw [Function.update_self] at hsl
      exact (rouse_sleeping _ _ _ hsl).2 hch
    · exact hinv.core.not_bound hm hwork ht hb

theorem does_wakeBegin (chan : Chan) (hlive : Live t ℓ) :
    Does perform (logic Cpu strict) t .wakeBegin ℓ fun _ ℓ' => ℓ' = { ℓ with wake := some (chan, []) } := by
  refine rule_ok rfl hlive fun s g c hinv hg hm => ?_
  subst hg
  have hs : Settled s g { s with begun := Function.update s.begun t s.sleeps }
      (Function.update g t { g t with wake := some (chan, []) }) :=
    ⟨rfl, fun _ hz => hz, fun p hp => hp.of_same rfl rfl rfl⟩
  refine ⟨(), { s with begun := Function.update s.begun t s.sleeps }, { g t with wake := some (chan, []) }, rfl,
    .same rfl ⟨rfl, rfl, rfl, rfl, rfl, rfl⟩, ⟨?_, hinv.parents.keep (fun _ _ hp => hp) fun _ hp => hp,
      hinv.children.same rfl rfl rfl, ?_, hinv.wakes.begin, hinv.kills.same rfl rfl⟩, rfl⟩
  · exact hinv.core.same hm ⟨rfl, rfl, rfl, rfl, rfl⟩ rfl rfl rfl rfl rfl rfl fun _ => rfl
  · refine hinv.waiting.keep hs id (fun _ hk => ?_) fun hx hd => ⟨hx, hd⟩
    refine ⟨hk.parent, hk.kid, fun r hr hp => hk.awake r hr (hs.pending r hp), fun r ps hr hmem => ?_,
      hk.seen, hk.cleared⟩
    cases hr
    exact nomatch hmem

/-- The process that the code of a thread takes for `myproc()`. -/
def myproc (t : Thread Cpu) (ℓ : Local) : Option Slot :=
  match t with
  | .irq _ => ℓ.me
  | t => self t

omit [DecidableEq Cpu] in
/-- It is the one that its CPU runs. -/
theorem Core.on_myproc {s : State Cpu} {g : Ghost Cpu} {c : Cpu} (h : Core strict s g) (hm : Moves s g t c)
    (hq : myproc t (g t) = some q) : s.on c = some q := by
  cases t with
  | irq c' =>
    obtain ⟨rfl, hintr⟩ := hart_irq.1 hm.hart
    rw [← (h.switching.stopped c' hintr).2]
    exact hq
  | sched c' => exact nomatch hq
  | proc p =>
    cases hq
    exact (h.switching.loaded c q).2 (hart_proc.1 hm.hart).1
  | trap p =>
    cases hq
    exact (h.switching.loaded c q).2 (hart_trap.1 hm.hart).1

/-- What is known to be awake, and what init is owed, after a wakeup. -/
def Local.woke (ℓ : Local) (chan : Chan) : Local :=
  match chan with
  | .proc q => { ℓ with wake := none, awake := some q, debt := ℓ.debt && decide (q ≠ init) }
  | _ => { ℓ with wake := none }

theorem does_wakeEnd {chan : Chan} (ps : List Slot) (hwake : ℓ.wake = some (chan, ps))
    (hall : ∀ p, p ∉ ps → myproc t ℓ = some p) (hnone : ℓ.work = none) (hlive : Live t ℓ) :
    Does perform (logic Cpu strict) t (.wakeEnd chan) ℓ fun _ ℓ' => ℓ' = ℓ.woke chan := by
  refine rule_ok rfl hlive fun s g c hinv hg hm => ?_
  subst hg
  have hnot : ∀ p, p ∉ ps → ∀ ch, ¬ Pending s g p ch := by
    intro p hp ch
    refine hinv.core.not_pending hm (hinv.core.on_myproc hm (hall p hp)) (fun hx => ?_) ch
    obtain ⟨st, hst⟩ := (hinv.core.work_iff hm p).1 hx
    rw [hnone] at hst
    exact nomatch hst
  have hform : ∃ q d, (g t).woke chan = { g t with wake := none, awake := q, debt := d } := by
    cases chan with
    | null => exact ⟨_, _, rfl⟩
    | proc q => exact ⟨_, _, rfl⟩
    | other n => exact ⟨_, _, rfl⟩
  have hhold : ((g t).woke chan).toHold = (g t).toHold := by
    obtain ⟨q, d, hx⟩ := hform
    rw [hx]
  have hpending : ∀ p ch, Pending { s with
        woken := fun p ch => if ch = chan then max (s.begun t p) (s.woken p ch) else s.woken p ch }
      (Function.update g t ((g t).woke chan)) p ch → Pending s g p ch := fun p ch hp =>
    hp.of_same rfl rfl (congrArg Hold.work hhold)
  have hs : Settled s g { s with
        woken := fun p ch => if ch = chan then max (s.begun t p) (s.woken p ch) else s.woken p ch }
      (Function.update g t ((g t).woke chan)) := ⟨rfl, fun _ hz => hz, fun p => hpending p _⟩
  refine ⟨(), { s with
      woken := fun p ch => if ch = chan then max (s.begun t p) (s.woken p ch) else s.woken p ch },
    (g t).woke chan, rfl, .same rfl ⟨rfl, rfl, rfl, rfl, rfl, rfl⟩,
    ⟨?_, hinv.parents.keep (fun _ _ hp => hp) fun _ hp => hp, ?_, ?_, ?_, ?_⟩, rfl⟩
  · obtain ⟨q, d, hx⟩ := hform
    rw [hx]
    exact hinv.core.same hm ⟨rfl, rfl, rfl, rfl, rfl⟩ rfl rfl rfl rfl rfl rfl fun _ => rfl
  · obtain ⟨q, d, hx⟩ := hform
    rw [hx]
    exact hinv.children.same rfl rfl rfl
  · cases chan with
    | null =>
      exact hinv.waiting.keep hs id (fun _ hk => ⟨hk.parent, hk.kid, fun r hr hp => hk.awake r hr (hs.pending r hp),
        nofun, hk.seen, hk.cleared⟩) fun hx hd => ⟨hx, hd⟩
    | other n =>
      exact hinv.waiting.keep hs id (fun _ hk => ⟨hk.parent, hk.kid, fun r hr hp => hk.awake r hr (hs.pending r hp),
        nofun, hk.seen, hk.cleared⟩) fun hx hd => ⟨hx, hd⟩
    | proc q =>
      have hq : .wait ∈ (g t).locks → ¬ Pending s g q (.proc q) := by
        intro hw
        by_cases hmem : q ∈ ps
        · exact (hinv.waiting.knows t hw).wake q ps hwake hmem
        · exact hnot q hmem _
      have hknows : .wait ∈ (g t).locks → Knows s g t (g t) → Knows { s with
            woken := fun p ch => if ch = .proc q then max (s.begun t p) (s.woken p ch) else s.woken p ch }
          (Function.update g t ((g t).woke (.proc q))) t ((g t).woke (.proc q)) := by
        intro hw hk
        refine ⟨hk.parent, hk.kid, fun r hr hp => ?_, nofun, hk.seen, hk.cleared⟩
        cases hr
        exact hq hw (hs.pending q hp)
      by_cases hw : .wait ∈ (g t).locks
      · refine Waiting.of_holder hinv.core hw (fun _ => hknows hw (hinv.waiting.knows t hw)) ?_
        intro p r hpr hz hp
        obtain ⟨hr, hd⟩ := hinv.waiting.holder_debt hinv.core hw hpr hz (hs.pending r hp)
        refine ⟨hr, hw, ?_⟩
        have hne : q ≠ init := by
          rintro rfl
          rw [hr] at hp
          exact hq hw (hs.pending _ hp)
        simp [Local.woke, hd, hne]
      · exact hinv.waiting.keep hs id hknows fun hx => absurd hx hw
  · refine hinv.wakes.finish hwake (fun p hp => hnot p hp chan) (congrArg Hold.work hhold) ?_
    obtain ⟨q, d, hx⟩ := hform
    rw [hx]
  · obtain ⟨q, d, hx⟩ := hform
    rw [hx]
    exact hinv.kills.same rfl rfl

/-! ## kill -/

/-- The thread writes down what its `kill` has done. -/
theorem Inv.setCall {s : State Cpu} {g : Ghost Cpu} {c : Cpu} (hinv : Inv strict s g) (hm : Moves s g t c)
    {k : Option (Int32 × Nat)} (hk : strict → ∀ pid n, k = some (pid, n) → pid ≠ 0) :
    Inv strict { s with kills := Function.update s.kills t k } (Function.update g t { g t with call := k }) := by
  have hpending : ∀ p ch, Pending { s with kills := Function.update s.kills t k }
      (Function.update g t { g t with call := k }) p ch → Pending s g p ch := fun p ch hp =>
    hp.of_same rfl rfl rfl
  have hs : Settled s g { s with kills := Function.update s.kills t k }
      (Function.update g t { g t with call := k }) := ⟨rfl, fun _ hz => hz, fun p => hpending p _⟩
  refine ⟨?_, hinv.parents.keep (fun _ _ hp => hp) fun _ hp => hp, hinv.children.same rfl rfl rfl, ?_,
    hinv.wakes.same ⟨rfl, rfl, rfl⟩ hpending rfl, ?_, ?_⟩
  · exact hinv.core.same hm ⟨rfl, rfl, rfl, rfl, rfl⟩ rfl rfl rfl rfl rfl rfl fun _ => rfl
  · exact hinv.waiting.keep hs id (fun _ hk => hk.keep hs rfl rfl rfl rfl rfl rfl) fun hx hd => ⟨hx, hd⟩
  · intro t'
    by_cases ht : t' = t
    · rw [ht]
      simp
    · dsimp only
      rw [Function.update_of_ne ht, Function.update_of_ne ht]
      exact hinv.kills.kills t'
  · intro hstrict t' pid n hc
    by_cases ht : t' = t
    · rw [ht, Function.update_self] at hc
      exact hk hstrict pid n hc
    · rw [Function.update_of_ne ht] at hc
      exact hinv.kills.named hstrict t' pid n hc

theorem does_killBegin (pid : Int32) (hlive : Live t ℓ) :
    Does perform (logic Cpu strict) t (.killBegin pid) ℓ fun _ ℓ' => ℓ' = { ℓ with call := some (pid, 0) } := by
  refine rule rfl fun s g c hinv hg hart hguard => .inr (.inr ?_)
  subst hg
  refine ⟨(), _, _, rfl, .same rfl ⟨rfl, rfl, rfl, rfl, rfl, rfl⟩, hinv.setCall ⟨hart, hlive⟩ ?_, rfl⟩
  rintro hstrict _ _ ⟨⟩ rfl
  exact hguard hstrict rfl

theorem does_killEnd {r : Int} (pid : Int32) (n : Nat) (hcall : ℓ.call = some (pid, n))
    (hr : r = 0 ∧ n = 1 ∨ r = -1 ∧ n = 0) (hlive : Live t ℓ) :
    Does perform (logic Cpu strict) t (.killEnd r) ℓ fun _ ℓ' => ℓ' = { ℓ with call := none } := by
  refine rule_ok rfl hlive fun s g c hinv hg hm => ?_
  subst hg
  have hkills := hinv.kills_eq hcall
  refine ⟨(), _, _, rfl, ⟨nofun, nofun, nofun, ?_, ?_, ?_, ?_, ?_⟩, hinv.setCall hm nofun, rfl⟩
  · exact fun p hz hnz => absurd hz hnz
  · intro p hf ht
    rw [show s.killed p = true from ht] at hf
    exact nomatch hf
  · exact fun _ _ _ => .inl ⟨rfl, rfl, rfl, rfl, rfl, rfl⟩
  · rintro r' ⟨⟩
    exact ⟨pid, n, hkills, hr⟩
  · exact fun _ p hu hnu => absurd hu hnu

/-- `kill` marks a process that has its pid; if that is not 0, the entry is not unused. -/
theorem does_mark (pid : Int32) (hwork : ℓ.work = some (q, .named pid)) (hcall : ℓ.call = some (pid, 0))
    (hlive : Live t ℓ) :
    Does perform (logic Cpu strict) t (.mark q) ℓ fun _ ℓ' =>
      ℓ' = { ℓ with work := some (q, .held), call := some (pid, 1) } := by
  refine rule_ok rfl hlive fun s g c hinv hg hm => ?_
  subst hg
  have hkills := hinv.kills_eq hcall
  obtain ⟨-, hrest, hpid⟩ := hinv.core.own_shape hm hwork
  have hthere : strict → s.state q ≠ .unused := by
    intro hstrict hu
    have hst : (view s g q).state = .unused := hu
    simp only [View.Rest, hst] at hrest
    apply hinv.kills.named hstrict t pid 0 hcall
    rw [← hpid]
    exact hrest.2.2.2.1
  have hinv₁ := hinv.rouse { s with
      killed := Function.update s.killed q true
      state := Function.update s.state q ((s.state q).rouse (s.chan q) (s.chan q)) } (s.chan q) hm hwork
    ⟨⟨rfl, rfl, rfl, rfl, rfl⟩, rfl, rfl, rfl, ⟨rfl, rfl, rfl⟩, rfl, fun p hp => by simp [hp]⟩ rfl rfl rfl
    (Function.update_self ..) (by
      have hnew := rest_rouse hrest (s.chan q) true fun hstrict hu => absurd hu (hthere hstrict)
      simpa [view] using hnew)
  have hinv₂ := hinv₁.setCall (k := some (pid, 1)) (t := t) (c := c)
    ⟨hm.hart, by rw [Function.update_self]; exact hlive⟩ (by
      rintro hstrict _ _ ⟨⟩
      exact hinv.kills.named hstrict t pid 0 hcall)
  rw [Function.update_self, Function.update_idem] at hinv₂
  refine ⟨(), _, { g t with work := some (q, .held), call := some (pid, 1) }, ?_, ?_, hinv₂, rfl⟩
  · simp [stepOn, hkills, marked]
  · refine ⟨by rintro _ ⟨⟩, by rintro _ ⟨⟩, by rintro _ _ _ ⟨⟩, fun p hz hnz => ?_, fun p hf ht => .inr ⟨0, ?_⟩, fun pid' n hx => ?_, by rintro _ ⟨⟩,
      fun hstrict p hu hnu => ?_⟩
    · dsimp only at hnz
      by_cases hpq : p = q
      · subst hpq
        rw [Function.update_self, Ne, rouse_zombie] at hnz
        exact absurd hz hnz
      · rw [Function.update_of_ne hpq] at hnz
        exact absurd hz hnz
    · dsimp only at ht
      by_cases hpq : p = q
      · subst hpq
        exact ⟨by rw [hkills, ← show s.pid p = pid from hpid], hthere⟩
      · rw [Function.update_of_ne hpq, hf] at ht
        cases ht
    · rw [hkills] at hx
      cases hx
      exact .inr ⟨rfl, q, rfl, hpid, hthere⟩
    · dsimp only at hnu
      by_cases hpq : p = q
      · subst hpq
        exact absurd hu (hthere hstrict)
      · rw [Function.update_of_ne hpq] at hnu
        exact absurd hu hnu

/-! ## The scheduler -/

/-- The scheduler has a runnable process. -/
theorem does_setRunning {c : Cpu} (hwork : ℓ.work = some (q, .chose)) (hcall : ℓ.call = none) :
    Does perform (logic Cpu strict) (.sched c) (.setState q .running) ℓ fun _ ℓ' =>
      ℓ' = { ℓ with work := some (q, .set) } := by
  refine does_setState_same hwork hcall nofun rfl nofun nofun (fun v c hs => ⟨.inl hs.1, .inr (.inl rfl)⟩) nofun
    fun v c hs => ?_
  obtain ⟨hst, hrest⟩ := hs
  simp only [View.Rest, hst] at hrest
  exact ⟨rfl, hrest⟩

/-- `c->proc` is set and cleared while the scheduler holds the lock of the process. -/
theorem does_setCproc {c : Cpu} {o : Option Slot} (q : Slot) (st st' : Stage) (hwork : ℓ.work = some (q, st))
    (ho : o = assigned (some (q, st'))) (hbound : ∀ ch b, st' ≠ .bound ch b)
    (hshape : ∀ (v : View Cpu) c, v.Shape strict q c st → v.Shape strict q c st') :
    Does perform (logic Cpu strict) (.sched c) (.setCproc o) ℓ fun _ ℓ' =>
      ℓ' = { ℓ with work := some (q, st') } := by
  refine rule rfl fun s g c' hinv hg hart _ => .inr (.inr ?_)
  subst hg
  obtain ⟨rfl, -, -⟩ := hart_sched.1 hart
  have hs : EntryStep s { s with cproc := Function.update s.cproc c o } q :=
    ⟨⟨rfl, rfl, rfl, rfl, rfl⟩, rfl, rfl, rfl, ⟨rfl, rfl, rfl⟩, rfl, fun p hp => ⟨rfl, rfl, rfl, rfl, rfl, rfl, rfl⟩⟩
  refine ⟨(), { s with cproc := Function.update s.cproc c o }, { g (.sched c) with work := some (q, st') }, rfl,
    .same rfl ⟨rfl, rfl, rfl, rfl, rfl, rfl⟩, ?_, rfl⟩
  refine hinv.entry ⟨hart, nofun⟩ hwork hs (fun c' => ?_) (hshape _ c) id id (fun chan hp => ?_)
    (hinv.children.entry hs id)
  · by_cases hc : c' = c
    · subst hc
      dsimp only
      rw [Function.update_self, Function.update_self]
      exact ho
    · dsimp only
      rw [Function.update_of_ne hc, Function.update_of_ne (by simpa using hc)]
      exact hinv.core.switching.assigned c'
  · exact hp.of_update rfl rfl fun _ b hb =>
      absurd (congrArg Prod.snd (Option.some.inj hb)) (hbound chan b)

end Xv6.Ptable
