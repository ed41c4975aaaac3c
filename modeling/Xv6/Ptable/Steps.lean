import Xv6.Ptable.Logic

/-!
# Locks and interrupts

The rules for the operations that take or give back a lock, or switch between threads: what
the thread must know before, and what it knows after.
-/
namespace Xv6.Ptable

open Xv6.Library Xv6.Library.Thread Xv6.Source.Ptable

variable {Cpu : Type} [DecidableEq Cpu] {strict : Prop} {t : Thread Cpu} {ℓ : Local} {l : Lock}

/-! ## acquire -/

/-- CPU `c` takes the lock. -/
def take (s : State Cpu) (l : Lock) (c : Cpu) : State Cpu :=
  { s with lock := Function.update s.lock l (some c), noff := Function.update s.noff c (s.noff c + 1) }

/-- CPU `c` gives the lock back. -/
def give (s : State Cpu) (l : Lock) (c : Cpu) : State Cpu :=
  { s with lock := Function.update s.lock l none, noff := Function.update s.noff c (s.noff c - 1) }

theorem lockStep_take (s : State Cpu) (l : Lock) (c : Cpu) : LockStep s (take s l c) l (some c) :=
  ⟨⟨rfl, rfl, rfl, rfl, rfl⟩, rfl, rfl, fun _ _ => rfl⟩

theorem lockStep_give (s : State Cpu) (l : Lock) (c : Cpu) : LockStep s (give s l c) l none :=
  ⟨⟨rfl, rfl, rfl, rfl, rfl⟩, rfl, rfl, fun _ _ => rfl⟩

/-- `acquire` waits, panics, or takes a lock that is free. -/
theorem rule_acquire {post : Unit → Local → Prop} (hlive : Live t ℓ)
    (h : ∀ (s : State Cpu) g c, Inv strict s g → g t = ℓ → Moves s g t c → s.lock l = none →
      ∃ ℓ', Inv strict (take s l c) (Function.update g t ℓ') ∧ post () ℓ') :
    Does perform (logic Cpu strict) t (.acquire l) ℓ post := by
  refine rule rfl fun s g c hinv hg hart _ => ?_
  cases hlock : s.lock l with
  | some c' =>
    by_cases hc : c' = c
    · exact .inr (.inl ⟨"acquire", by simp [stepOn, hlock, hc], by simp [reachable]⟩)
    · exact .inl (by simp [stepOn, hlock, hc])
  | none =>
    obtain ⟨ℓ', hinv', hpost⟩ := h s g c hinv hg ⟨hart, hg ▸ hlive⟩ hlock
    exact .inr (.inr ⟨(), take s l c, ℓ', by simp [stepOn, hlock, take],
      .same rfl ⟨rfl, rfl, rfl, rfl, rfl, rfl⟩, hinv', hpost⟩)

theorem does_acquire (hl : ∀ p, l ≠ .proc p) (hw : l ≠ .wait) (hlive : Live t ℓ) :
    Does perform (logic Cpu strict) t (.acquire l) ℓ fun _ ℓ' =>
      ℓ' = { ℓ with locks := l :: ℓ.locks } := by
  refine rule_acquire hlive fun s g c hinv hg hm hfree => ⟨_, ?_, rfl⟩
  subst hg
  refine hinv.same (hinv.core.acquire hm (lockStep_take s l c) hl hfree rfl rfl rfl rfl rfl)
    ⟨rfl, rfl, rfl, rfl, rfl, rfl⟩ ⟨rfl, rfl, rfl⟩ rfl (fun p chan b hb => ⟨b, hb⟩) rfl rfl rfl fun hs => ?_
  have hiff : .wait ∈ l :: (g t).locks → .wait ∈ (g t).locks := fun hx =>
    (List.mem_cons.1 hx).resolve_left (Ne.symm hw)
  exact hinv.waiting.keep hs hiff (fun _ hk => hk.keep hs rfl rfl rfl rfl rfl rfl)
    fun hx hd => ⟨List.mem_cons_of_mem _ hx, hd⟩

/-- The thread knows nothing yet that depends on `wait_lock`. -/
structure Local.Ignorant (ℓ : Local) : Prop where
  parent : ℓ.parent = none
  kid : ℓ.kid = none
  awake : ℓ.awake = none
  debt : ℓ.debt = false
  seen : ℓ.seen = []
  cleared : ℓ.cleared = []

theorem does_acquireWait (hi : ℓ.Ignorant) (hwake : ℓ.wake = none) (hlive : Live t ℓ) :
    Does perform (logic Cpu strict) t (.acquire .wait) ℓ fun _ ℓ' =>
      ℓ' = { ℓ with locks := .wait :: ℓ.locks } := by
  refine rule_acquire hlive fun s g c hinv hg hm hfree => ⟨_, ?_, rfl⟩
  subst hg
  refine hinv.same (hinv.core.acquire hm (lockStep_take s .wait c) nofun hfree rfl rfl rfl rfl rfl)
    ⟨rfl, rfl, rfl, rfl, rfl, rfl⟩ ⟨rfl, rfl, rfl⟩ rfl (fun p chan b hb => ⟨b, hb⟩) rfl rfl rfl fun hs => ?_
  refine hinv.waiting.acquire hs ?_ hi.parent hi.kid hi.awake hwake hi.seen hi.cleared
  rw [← hinv.core.lock_iff hm, hfree]
  exact nofun

/-- Taking the lock of a process does not concern `wait_lock`. -/
theorem Inv.acquireProc {s : State Cpu} {g : Ghost Cpu} {c : Cpu} {q : Slot} {st : Stage}
    (hinv : Inv strict s g) (hm : Moves s g t c) (hfree : s.lock (.proc q) = none)
    (hnone : (g t).work = none) (hassigned : (∃ c', t = .sched c') → assigned (some (q, st)) = none)
    (hst : ∀ chan b, st ≠ .bound chan b)
    (hshape : (view s g q).Rest strict q → (view s g q).Shape strict q c st) :
    Inv strict (take s (.proc q) c)
      (Function.update g t { g t with locks := .proc q :: (g t).locks, work := some (q, st) }) := by
  refine hinv.same (hinv.core.acquireProc hm (lockStep_take s (.proc q) c) hfree rfl rfl rfl hnone
    rfl hassigned rfl hshape) ⟨rfl, rfl, rfl, rfl, rfl, rfl⟩ ⟨rfl, rfl, rfl⟩ rfl ?_ rfl rfl rfl fun hs => ?_
  · intro p chan b hb
    cases hb
    exact absurd rfl (hst chan b)
  · exact hinv.waiting.keep hs (fun hx => (List.mem_cons.1 hx).resolve_left nofun)
      (fun _ hk => hk.keep hs rfl rfl rfl rfl rfl rfl) fun hx hd => ⟨List.mem_cons_of_mem _ hx, hd⟩

theorem does_acquireProc {q : Slot} (hnone : ℓ.work = none) (hlive : Live t ℓ) :
    Does perform (logic Cpu strict) t (.acquire (.proc q)) ℓ fun _ ℓ' =>
      ℓ' = { ℓ with locks := .proc q :: ℓ.locks, work := some (q, .held) } := by
  refine rule_acquire hlive fun s g c hinv hg hm hfree => ⟨_, ?_, rfl⟩
  subst hg
  exact hinv.acquireProc hm hfree hnone (fun _ => rfl) nofun id

/-- A process that takes its own lock is running. -/
theorem does_acquireOwn {me : Slot} (hself : self t = some me) (hnone : ℓ.work = none) (hlive : Live t ℓ) :
    Does perform (logic Cpu strict) t (.acquire (.proc me)) ℓ fun _ ℓ' =>
      ℓ' = { ℓ with locks := .proc me :: ℓ.locks, work := some (me, .mine) } := by
  refine rule_acquire hlive fun s g c hinv hg hm hfree => ⟨_, ?_, rfl⟩
  subst hg
  refine hinv.acquireProc hm hfree hnone (fun _ => rfl) nofun fun hrest => ?_
  obtain ⟨hloc, -, -⟩ := self_top hself hm.hart
  have hrun : (view s g me).state = .running := hinv.core.running hloc (by rw [hfree]; nofun)
  simp only [View.Rest, hrun] at hrest
  obtain ⟨⟨c', hl, hctx⟩, hliving⟩ := hrest
  have hc : s.loc me = some c' := hl
  rw [hloc] at hc
  cases hc
  exact ⟨hrun, ⟨hl, hctx⟩, hliving⟩

/-! ## release -/

/-- `release` panics, or gives back a lock of the thread. -/
theorem rule_release {post : Unit → Local → Prop} (hlive : Live t ℓ)
    (h : ∀ (s : State Cpu) g c, Inv strict s g → g t = ℓ → Moves s g t c → l ∈ ℓ.locks →
      ∃ ℓ', Inv strict (give s l c) (Function.update g t ℓ') ∧ post () ℓ') :
    Does perform (logic Cpu strict) t (.release l) ℓ post := by
  refine rule rfl fun s g c hinv hg hart _ => ?_
  have hm : Moves s g t c := ⟨hart, hg ▸ hlive⟩
  by_cases hlock : s.lock l = some c
  · obtain ⟨ℓ', hinv', hpost⟩ := h s g c hinv hg hm (hg ▸ (hinv.core.lock_iff hm l).1 hlock)
    exact .inr (.inr ⟨(), give s l c, ℓ', by simp [stepOn, hlock, give],
      .same rfl ⟨rfl, rfl, rfl, rfl, rfl, rfl⟩, hinv', hpost⟩)
  · exact .inr (.inl ⟨"release", by simp [stepOn, hlock], by simp [reachable]⟩)

theorem does_release (hl : ∀ p, l ≠ .proc p) (hw : l ≠ .wait) (hlive : Live t ℓ) :
    Does perform (logic Cpu strict) t (.release l) ℓ fun _ ℓ' =>
      ℓ' = { ℓ with locks := ℓ.locks.erase l } := by
  refine rule_release hlive fun s g c hinv hg hm hheld => ⟨_, ?_, rfl⟩
  subst hg
  refine hinv.same (hinv.core.release hm (lockStep_give s l c) hl hheld rfl rfl rfl rfl rfl)
    ⟨rfl, rfl, rfl, rfl, rfl, rfl⟩ ⟨rfl, rfl, rfl⟩ rfl (fun p chan b hb => ⟨b, hb⟩) rfl rfl rfl fun hs => ?_
  exact hinv.waiting.keep hs List.mem_of_mem_erase (fun _ hk => hk.keep hs rfl rfl rfl rfl rfl rfl)
    fun hx hd => ⟨(List.mem_erase_of_ne (Ne.symm hw)).2 hx, hd⟩

/-- What the thread found out is lost with `wait_lock`. -/
def Local.forget (ℓ : Local) : Local :=
  { ℓ with parent := none, kid := none, awake := none, debt := false, seen := [], cleared := [] }

theorem does_releaseWait (hdebt : ℓ.debt = false) (hlive : Live t ℓ) :
    Does perform (logic Cpu strict) t (.release .wait) ℓ fun _ ℓ' =>
      ℓ' = { ℓ.forget with locks := ℓ.locks.erase .wait } := by
  refine rule_release hlive fun s g c hinv hg hm hheld => ⟨_, ?_, rfl⟩
  subst hg
  refine hinv.same (hinv.core.release hm (lockStep_give s .wait c) nofun hheld rfl rfl rfl rfl rfl)
    ⟨rfl, rfl, rfl, rfl, rfl, rfl⟩ ⟨rfl, rfl, rfl⟩ rfl (fun p chan b hb => ⟨b, hb⟩) rfl rfl rfl fun hs => ?_
  have hnot : .wait ∉ (g t).locks.erase .wait := (hinv.core.nodup hm).not_mem_erase
  exact hinv.waiting.keep hs List.mem_of_mem_erase (fun hx => absurd hx hnot)
    fun _ hd => absurd hd (by simp [hdebt])

/-- The entry of the process has to be at rest. -/
theorem does_releaseProc {q : Slot} (st : Stage) (hwork : ℓ.work = some (q, st))
    (hassigned : assigned (some (q, st)) = none)
    (hshape : ∀ (v : View Cpu) c, v.Shape strict q c st → v.Rest strict q) (hlive : Live t ℓ) :
    Does perform (logic Cpu strict) t (.release (.proc q)) ℓ fun _ ℓ' =>
      ℓ' = { ℓ with locks := ℓ.locks.erase (.proc q), work := none } := by
  refine rule_release hlive fun s g c hinv hg hm hheld => ⟨_, ?_, rfl⟩
  subst hg
  refine hinv.same (hinv.core.releaseProc hm (lockStep_give s (.proc q) c) rfl rfl rfl hwork rfl
    (fun _ => by rw [hwork, hassigned]) rfl (hshape _ c)) ⟨rfl, rfl, rfl, rfl, rfl, rfl⟩ ⟨rfl, rfl, rfl⟩ rfl
    nofun rfl rfl rfl fun hs => ?_
  have hne : Lock.wait ≠ .proc q := nofun
  exact hinv.waiting.keep hs List.mem_of_mem_erase (fun _ hk => hk.keep hs rfl rfl rfl rfl rfl rfl)
    fun hx hd => ⟨(List.mem_erase_of_ne hne).2 hx, hd⟩

omit [DecidableEq Cpu] in
theorem rest_of_mine {v : View Cpu} {q : Slot} {c : Cpu} (h : v.Mine q c) : v.Rest strict q := by
  obtain ⟨hrun, hloaded, hliving⟩ := h
  simp only [View.Rest, hrun]
  exact ⟨⟨c, hloaded⟩, hliving⟩

/-! ## The release in sleep -/

/-- CPU `c` gives the lock back in `sleep`. -/
def doze (s : State Cpu) (l : Lock) (c : Cpu) (me : Slot) : State Cpu :=
  { s with
    lock := Function.update s.lock l none
    noff := Function.update s.noff c (s.noff c - 1)
    sleeps := Function.update s.sleeps me (s.sleeps me + 1) }

omit [DecidableEq Cpu] in
theorem live_proc {me : Slot} (h : ℓ.alive = true) : Live (.proc me : Thread Cpu) ℓ := fun _ _ => h

/-- `sleep` panics, or counts the time at which it gives back its lock. -/
theorem rule_sleepRelease {me : Slot} {chan : Chan} {post : Unit → Local → Prop} (halive : ℓ.alive = true)
    (h : ∀ (s : State Cpu) g c, Inv strict s g → g (.proc me) = ℓ → Moves s g (.proc me) c → l ∈ ℓ.locks →
      ∃ ℓ', Inv strict (doze s l c me) (Function.update g (.proc me) ℓ') ∧ post () ℓ') :
    Does perform (logic Cpu strict) (.proc me) (.sleepRelease l chan) ℓ post := by
  refine rule rfl fun s g c hinv hg hart _ => ?_
  have hm : Moves s g (.proc me) c := ⟨hart, live_proc (hg ▸ halive)⟩
  by_cases hlock : s.lock l = some c
  · obtain ⟨ℓ', hinv', hpost⟩ := h s g c hinv hg hm (hg ▸ (hinv.core.lock_iff hm l).1 hlock)
    exact .inr (.inr ⟨(), doze s l c me, ℓ', by simp [stepOn, self, hlock, doze],
      .same rfl ⟨rfl, rfl, rfl, rfl, rfl, rfl⟩, hinv', hpost⟩)
  · exact .inr (.inl ⟨"release", by simp [stepOn, self, hlock], by simp [reachable]⟩)

/-- The lock goes back while the process keeps its own, and will sleep on `chan`. -/
theorem Core.sleepRelease {s : State Cpu} {g : Ghost Cpu} {c : Cpu} {me : Slot} {chan : Chan}
    (h : Core strict s g) (hm : Moves s g (.proc me) c) (hl : ∀ p, l ≠ .proc p)
    (hwork : (g (.proc me)).work = some (me, .mine)) (hheld : l ∈ (g (.proc me)).locks)
    (halive : ℓ.alive = (g (.proc me)).alive) (hme : ℓ.me = (g (.proc me)).me)
    (hnew : ℓ.work = some (me, .bound chan false)) (hlocks : ℓ.locks = (g (.proc me)).locks.erase l) :
    Core strict (doze s l c me)
      (Function.update g (.proc me) ℓ) := by
  -- first the work, then the lock
  have h₁ : Core strict s (Function.update g (.proc me)
      { g (.proc me) with work := some (me, .bound chan false) }) :=
    h.change hm .rfl rfl rfl (h.switching.keep_cproc rfl nofun) rfl rfl rfl hwork rfl
      (fun _ _ => rfl) fun hs => ⟨hs, nofun⟩
  have hm₁ : Moves s (Function.update g (.proc me)
      { g (.proc me) with work := some (me, .bound chan false) }) (.proc me) c :=
    ⟨hm.hart, by rw [Function.update_self]; exact hm.live⟩
  have h₂ : Core strict (doze s l c me) (Function.update (Function.update g (.proc me)
      { g (.proc me) with work := some (me, .bound chan false) }) (.proc me) ℓ) := h₁.release hm₁
    ⟨⟨rfl, rfl, rfl, rfl, rfl⟩, rfl, rfl, fun _ _ => rfl⟩ hl (by rwa [Function.update_self]) rfl
    (by rw [Function.update_self]; exact halive) (by rw [Function.update_self]; exact hme)
    (by rw [Function.update_self]; exact hnew) (by rw [Function.update_self]; exact hlocks)
  rwa [Function.update_idem] at h₂

variable {me : Slot}

/-- Whoever else sleeps has slept before. -/
theorem Pending.of_sleepRelease {s s' : State Cpu} {g : Ghost Cpu} {p : Slot} {chan ch : Chan}
    (hstate : s'.state = s.state) (hchan : s'.chan = s.chan) (hnew : ℓ.work = some (me, .bound chan false))
    (hne : p ≠ me ∨ ch ≠ chan) (h : Pending s' (Function.update g (.proc me) ℓ) p ch) :
    Pending s g p ch := by
  refine h.of_update (by rw [hstate]) (by rw [hchan]) fun ht b hb => ?_
  rw [hnew] at hb
  cases hb
  rcases hne with hx | hx <;> exact absurd rfl hx

theorem does_sleepRelease {n m : Nat} (hwork : ℓ.work = some (me, .mine)) (halive : ℓ.alive = true)
    (hwait : .wait ∉ ℓ.locks) :
    Does perform (logic Cpu strict) (.proc me) (.sleepRelease (.other n) (.other m)) ℓ fun _ ℓ' =>
      ℓ' = { ℓ with locks := ℓ.locks.erase (.other n), work := some (me, .bound (.other m) false) } := by
  refine rule_sleepRelease halive fun s g c hinv hg hm hheld => ⟨_, ?_, rfl⟩
  subst hg
  refine ⟨hinv.core.sleepRelease hm nofun hwork hheld rfl rfl rfl rfl, ?_, ?_, ?_, ?_, ?_⟩
  · exact hinv.parents.keep (fun _ _ hp => hp) fun _ hp => hp
  · exact hinv.children.same rfl rfl rfl
  · have hs : Settled s g (doze s (.other n) c me)
        (Function.update g (.proc me) { g (.proc me) with
          locks := (g (.proc me)).locks.erase (.other n), work := some (me, .bound (.other m) false) }) :=
      ⟨rfl, fun _ hz => hz, fun p hp =>
        hp.of_sleepRelease rfl rfl rfl (.inr (show Chan.proc p ≠ .other m from nofun))⟩
    refine hinv.waiting.keep hs List.mem_of_mem_erase (fun hx => ?_) fun hx => absurd hx hwait
    exact absurd (List.mem_of_mem_erase hx) hwait
  · exact hinv.wakes.sleep rfl rfl rfl (fun p ch hp hx => hx.of_sleepRelease rfl rfl rfl (.inl hp)) rfl
  · exact hinv.kills.same rfl rfl

theorem does_sleepReleaseWait (hwork : ℓ.work = some (me, .mine)) (halive : ℓ.alive = true)
    (hdebt : ℓ.debt = false) (hseen : ∀ p, p ∈ ℓ.seen) :
    Does perform (logic Cpu strict) (.proc me) (.sleepRelease .wait (.proc me)) ℓ fun _ ℓ' =>
      ℓ' = { ℓ.forget with
        locks := ℓ.locks.erase .wait
        work := some (me, .bound (.proc me) false) } := by
  refine rule_sleepRelease halive fun s g c hinv hg hm hheld => ⟨_, ?_, rfl⟩
  subst hg
  refine ⟨hinv.core.sleepRelease hm nofun hwork hheld rfl rfl rfl rfl, ?_, ?_, ?_, ?_, ?_⟩
  · exact hinv.parents.keep (fun _ _ hp => hp) fun _ hp => hp
  · exact hinv.children.same rfl rfl rfl
  · refine hinv.waiting.sleep hinv.core hheld (show self (.proc me : Thread Cpu) = some me from rfl) rfl rfl ?_ hdebt ?_ hseen
    · exact (hinv.core.nodup hm).not_mem_erase
    · exact fun p hp hx => hx.of_sleepRelease rfl rfl rfl (.inl hp)
  · exact hinv.wakes.sleep rfl rfl rfl (fun p ch hp hx => hx.of_sleepRelease rfl rfl rfl (.inl hp)) rfl
  · exact hinv.kills.same rfl rfl

/-! ## Switching -/

/-- `sched` lets pass only a process that holds its own lock and no other. -/
theorem does_sched (hself : self t = some me) (hlive : Live t ℓ) :
    Does perform (logic Cpu strict) t .sched ℓ fun _ ℓ' => ℓ' = ℓ ∧ ℓ.locks = [.proc me] := by
  refine rule rfl fun s g c hinv hg hart _ => ?_
  subst hg
  have hm : Moves s g t c := ⟨hart, hlive⟩
  by_cases hlock : s.lock (.proc me) = some c
  · by_cases hnoff : s.noff c = 1
    · by_cases hrun : s.state me = .running
      · exact .inr (.inl ⟨"sched running", by simp [stepOn, hself, hlock, hnoff, hrun], by simp [reachable]⟩)
      · refine .inr (.inr ⟨(), s, g t, by simp [stepOn, hself, hlock, hnoff, hrun], .same rfl .rfl, ?_, rfl, ?_⟩)
        · rwa [Function.update_eq_self]
        · rw [hinv.core.noff_eq hm] at hnoff
          obtain ⟨l, hl⟩ := List.length_eq_one_iff.1 hnoff
          have hmem := (hinv.core.lock_iff hm _).1 hlock
          rw [hl, List.mem_singleton] at hmem
          rw [hl, hmem]
    · exact .inr (.inl ⟨"sched locks", by simp [stepOn, hself, hlock, hnoff], by simp [reachable]⟩)
  · exact .inr (.inl ⟨"sched p->lock", by simp [stepOn, hself, hlock], by simp [reachable]⟩)

/-- What changes when contexts are switched, apart from the contexts. -/
theorem Inv.switch {s s' : State Cpu} {g : Ghost Cpu} (hinv : Inv strict s g)
    (hcore : Core strict s' (Function.update g t ℓ)) (htable : SameTable s s') (hu : Unwoken s s')
    (hkills : s'.kills = s.kills) (hnot : ∀ p chan b, ℓ.work ≠ some (p, .bound chan b))
    (hchild : ℓ.child = (g t).child) (hwake : ℓ.wake = (g t).wake) (hcall : ℓ.call = (g t).call)
    (hold : .wait ∉ (g t).locks) (hnew : .wait ∉ ℓ.locks) : Inv strict s' (Function.update g t ℓ) := by
  refine hinv.same hcore htable hu hkills (fun p chan b hb => absurd hb (hnot p chan b)) hchild hwake hcall
    fun hs => ?_
  exact hinv.waiting.keep hs (fun hx => absurd hx hnew) (fun hx => absurd hx hnew) fun hx => absurd hx hold

theorem does_swtchTo {c : Cpu} {p : Slot} (hlocks : ℓ.locks = [.proc p]) (hwork : ℓ.work = some (p, .armed)) :
    Does perform (logic Cpu strict) (.sched c) (.swtchTo p) ℓ fun _ ℓ' =>
      ℓ' = { ℓ with work := some (p, .back) } := by
  refine rule rfl fun s g c' hinv hg hart _ => .inr (.inr ?_)
  subst hg
  obtain ⟨rfl, -, -⟩ := hart_sched.1 hart
  have hm : Moves s g (.sched c) c := ⟨hart, by rintro _ ⟨⟩⟩
  obtain ⟨-, -, hready, -⟩ := hinv.core.own_shape hm hwork
  have hf := hready.finds
  refine ⟨(), load c p s, { g (.sched c) with work := some (p, .back) }, by simp [stepOn, hf.there], ⟨?_, by rintro _ ⟨⟩, by rintro _ _ _ ⟨⟩, ?_, ?_, ?_, by rintro _ ⟨⟩, ?_⟩,
    hinv.switch (hinv.core.load hart hlocks hwork ?_) ⟨rfl, rfl, rfl, rfl, rfl, rfl⟩ ⟨rfl, rfl, rfl⟩ rfl
      ?_ rfl rfl rfl ?_ ?_, rfl⟩
  · rintro q ⟨⟩
    exact ⟨hf.unloaded, hf.there⟩
  · exact fun q hz hnz => absurd hz hnz
  · intro q h₁ h₂
    rw [show s.killed q = true from h₂] at h₁
    cases h₁
  · exact fun _ _ _ => .inl ⟨rfl, rfl, rfl, rfl, rfl, rfl⟩
  · exact fun _ q hz hnz => absurd hz hnz
  · simp [hlocks, Hold.returned]
  · rintro _ _ _ ⟨⟩
  · simp [hlocks]
  · simp [hlocks]

theorem does_swtchOut {st : ProcState} (hself : self t = some me) (hlocks : ℓ.locks = [.proc me])
    (hwork : ℓ.work = some (me, .leaving st)) (hst : st ≠ .zombie) (hlive : Live t ℓ) :
    Does perform (logic Cpu strict) t .swtchOut ℓ fun _ ℓ' => ℓ' = { ℓ with work := some (me, .mine) } := by
  refine rule_ok rfl hlive fun s g c hinv hg hm => ?_
  subst hg
  refine ⟨(), save c me s, { g t with work := some (me, .mine) }, by simp [stepOn, hself], .same rfl ⟨rfl, rfl, rfl, rfl, rfl, rfl⟩,
    hinv.switch (hinv.core.save hm hself hlocks hwork ⟨fun _ => ⟨?_, rfl⟩, fun hx => absurd hx hst⟩)
      ⟨rfl, rfl, rfl, rfl, rfl, rfl⟩ ⟨rfl, rfl, rfl⟩ rfl ?_ rfl rfl rfl ?_ ?_, rfl⟩
  · simp [hlocks, Hold.resume]
  · rintro _ _ _ ⟨⟩
  · simp [hlocks]
  · simp [hlocks]

/-- A process that has exited leaves nothing behind. -/
theorem does_swtchOutZombie (hlocks : ℓ.locks = [.proc me]) (hwork : ℓ.work = some (me, .leaving .zombie))
    (halive : ℓ.alive = true) :
    Does perform (logic Cpu strict) (.proc me) .swtchOut ℓ fun _ ℓ' =>
      ℓ' = { ℓ with locks := [], work := none, alive := false } := by
  refine rule_ok rfl (live_proc halive) fun s g c hinv hg hm => ?_
  subst hg
  refine ⟨(), save c me s, { g (.proc me) with locks := [], work := none, alive := false },
    by simp [stepOn, self], .same rfl ⟨rfl, rfl, rfl, rfl, rfl, rfl⟩,
    hinv.switch (hinv.core.save hm rfl hlocks hwork ⟨fun hx => absurd rfl hx, fun _ => ⟨rfl, rfl, rfl⟩⟩)
      ⟨rfl, rfl, rfl, rfl, rfl, rfl⟩ ⟨rfl, rfl, rfl⟩ rfl ?_ rfl rfl rfl ?_ ?_, rfl⟩
  · nofun
  · simp [hlocks]
  · nofun

/-- The slot of an exited process is used again only by `forkret`. -/
theorem does_zombieExit (hdead : ℓ.alive = false) :
    Does perform (logic Cpu strict) (.proc me) .zombieExit ℓ fun _ ℓ' => ℓ' = ℓ := by
  refine rule rfl fun s g c hinv hg hart _ => .inr (.inr ?_)
  subst hg
  have hon := (hinv.core.switching.loaded c me).2 (hart_proc.1 hart).1
  have hfresh := (hinv.core.switching.alive c me hon).2 hdead
  refine ⟨(), s, g (.proc me), by simp [stepOn, self, hfresh], .same rfl .rfl, ?_, rfl⟩
  rwa [Function.update_eq_self]

theorem does_enter :
    Does perform (logic Cpu strict) (.proc me) .enter ℓ fun _ ℓ' => ℓ' = ℓ ∧ ℓ.alive = true := by
  refine rule rfl fun s g c hinv hg hart _ => ?_
  subst hg
  have hon := (hinv.core.switching.loaded c me).2 (hart_proc.1 hart).1
  cases hfresh : s.fresh me with
  | true => exact .inl (by simp [stepOn, self, hfresh])
  | false =>
    refine .inr (.inr ⟨(), s, g (.proc me), by simp [stepOn, self, hfresh], .same rfl .rfl, ?_, rfl, ?_⟩)
    · rwa [Function.update_eq_self]
    · by_contra hdead
      rw [(hinv.core.switching.alive c me hon).2 (Bool.eq_false_iff.2 hdead)] at hfresh
      exact nomatch hfresh

theorem does_enterForkret (hempty : ℓ.toHold = {}) :
    Does perform (logic Cpu strict) (.proc me) .enterForkret ℓ fun _ ℓ' =>
      ℓ' = { ℓ with locks := [.proc me], work := some (me, .mine), alive := true } := by
  refine rule rfl fun s g c hinv hg hart _ => ?_
  subst hg
  cases hfresh : s.fresh me with
  | false => exact .inl (by simp [stepOn, self, hfresh])
  | true =>
    refine .inr (.inr ⟨(), { s with fresh := Function.update s.fresh me false },
      { g (.proc me) with locks := [.proc me], work := some (me, .mine), alive := true },
      by simp [stepOn, self, hfresh],
      .same rfl ⟨rfl, rfl, rfl, rfl, rfl, rfl⟩, hinv.switch (hinv.core.forkret hart hfresh rfl rfl)
        ⟨rfl, rfl, rfl, rfl, rfl, rfl⟩ ⟨rfl, rfl, rfl⟩ rfl ?_ rfl rfl rfl ?_ ?_, rfl⟩)
    · nofun
    · rw [hempty]
      nofun
    · simp

/-! ## Interrupts -/

theorem does_trapBegin (hempty : ℓ.toHold = {}) :
    Does perform (logic Cpu strict) (.trap me) .trapBegin ℓ fun _ ℓ' => ℓ' = ℓ := by
  refine Does.local (fun _ _ => rfl) fun s g hinv hg _ => ?_
  subst hg
  change beginTrap me s = _ ∨ ∃ r s' ℓ', beginTrap me s = _ ∧ _
  cases hloc : s.loc me with
  | none => exact .inl (by simp [beginTrap, hloc])
  | some c =>
    by_cases hok : s.noff c = 0 ∧ s.trapped me = false ∧ s.intr c = false
    · obtain ⟨hnoff, htr, hintr⟩ := hok
      have hon := (hinv.core.switching.loaded c me).2 hloc
      have htop := hinv.core.locks.top_nothing hnoff
      simp only [top, hintr, base, hon, htr, Bool.false_eq_true, if_false] at htop
      have hcore := hinv.core.setTrapped (b := true) hloc hintr hnoff htop hempty
        (hinv.core.locks.not_fresh hnoff hon)
      refine .inr ⟨(), { s with trapped := Function.update s.trapped me true }, g (.trap me),
        by simp [beginTrap, hloc, hnoff, htr, hintr],
        .same rfl ⟨rfl, rfl, rfl, rfl, rfl, rfl⟩, hinv.switch ?_
          ⟨rfl, rfl, rfl, rfl, rfl, rfl⟩ ⟨rfl, rfl, rfl⟩ rfl ?_ rfl rfl rfl ?_ ?_, rfl⟩
      · rwa [Function.update_eq_self]
      · rw [hempty]
        rintro _ _ _ ⟨⟩
      · rw [hempty]
        rintro ⟨⟩
      · rw [hempty]
        rintro ⟨⟩
    · exact .inl (by simp only [beginTrap, hloc]; rw [if_neg hok])

theorem does_trapEnd (hempty : ℓ.toHold = {}) :
    Does perform (logic Cpu strict) (.trap me) .trapEnd ℓ fun _ ℓ' => ℓ' = ℓ := by
  refine rule rfl fun s g c hinv hg hart _ => .inr (.inr ?_)
  subst hg
  have hm : Moves s g (.trap me) c := ⟨hart, nofun⟩
  obtain ⟨hloc, htr, hintr⟩ := hart_trap.1 hart
  have hon := (hinv.core.switching.loaded c me).2 hloc
  have hnoff : s.noff c = 0 := by
    rw [hinv.core.noff_eq hm, hempty]
    rfl
  have hcore := hinv.core.setTrapped (b := false) hloc hintr hnoff
    (hinv.core.switching.trapped c me hon htr) hempty (hinv.core.locks.not_fresh hnoff hon)
  refine ⟨(), { s with trapped := Function.update s.trapped me false }, g (.trap me),
    by simp only [stepOn, self], .same rfl ⟨rfl, rfl, rfl, rfl, rfl, rfl⟩,
    hinv.switch ?_ ⟨rfl, rfl, rfl, rfl, rfl, rfl⟩ ⟨rfl, rfl, rfl⟩ rfl ?_ rfl rfl rfl ?_ ?_, rfl⟩
  · rwa [Function.update_eq_self]
  · rw [hempty]
    nofun
  · rw [hempty]
    nofun
  · rw [hempty]
    nofun

/-- The handler knows which process it has stopped. -/
theorem does_irqBegin {c : Cpu} (hempty : ℓ.toHold = {}) :
    Does perform (logic Cpu strict) (.irq c) .irqBegin ℓ fun r ℓ' => ℓ' = { ℓ with me := r } := by
  refine Does.local (fun _ _ => rfl) fun s g hinv hg _ => ?_
  subst hg
  change beginIrq c s = _ ∨ ∃ r s' ℓ', beginIrq c s = _ ∧ _
  by_cases hok : s.noff c = 0 ∧ s.intr c = false
  · obtain ⟨hnoff, hintr⟩ := hok
    have htop := hinv.core.locks.top_nothing hnoff
    simp only [top, hintr, Bool.false_eq_true, if_false] at htop
    refine .inr ⟨s.cproc c, { s with intr := Function.update s.intr c true },
      { g (.irq c) with me := s.cproc c }, by simp [beginIrq, hnoff, hintr],
      .same rfl ⟨rfl, rfl, rfl, rfl, rfl, rfl⟩,
      hinv.switch (hinv.core.setIntr (b := true) hnoff htop hempty fun _ => hinv.core.cproc_eq hnoff hintr)
        ⟨rfl, rfl, rfl, rfl, rfl, rfl⟩ ⟨rfl, rfl, rfl⟩ rfl ?_ rfl rfl rfl ?_ ?_, rfl⟩
    · rw [hempty]
      rintro _ _ _ ⟨⟩
    · rw [hempty]
      rintro ⟨⟩
    · rw [hempty]
      rintro ⟨⟩
  · exact .inl (by simp only [beginIrq]; rw [if_neg hok])

theorem does_irqEnd {c : Cpu} (hempty : ℓ.toHold = {}) :
    Does perform (logic Cpu strict) (.irq c) .irqEnd ℓ fun _ ℓ' => ℓ' = { ℓ with me := none } := by
  refine rule rfl fun s g c' hinv hg hart _ => .inr (.inr ?_)
  subst hg
  obtain ⟨rfl, hintr⟩ := hart_irq.1 hart
  have hm : Moves s g (.irq c) c := ⟨hart, nofun⟩
  have hnoff : s.noff c = 0 := by
    rw [hinv.core.noff_eq hm, hempty]
    rfl
  refine ⟨(), { s with intr := Function.update s.intr c false }, { g (.irq c) with me := none },
    by simp only [stepOn],
    .same rfl ⟨rfl, rfl, rfl, rfl, rfl, rfl⟩,
    hinv.switch (hinv.core.setIntr (b := false) hnoff (hinv.core.switching.stopped c hintr).1 hempty nofun)
      ⟨rfl, rfl, rfl, rfl, rfl, rfl⟩ ⟨rfl, rfl, rfl⟩ rfl ?_ rfl rfl rfl ?_ ?_, rfl⟩
  · rw [hempty]
    nofun
  · rw [hempty]
    nofun
  · rw [hempty]
    nofun

end Xv6.Ptable
