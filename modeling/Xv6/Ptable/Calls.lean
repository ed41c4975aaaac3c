import Xv6.Ptable.Signals

/-!
# The functions of kernel/proc.c

Each function keeps the invariant, in any company and in any order, and ends with the locks it
began with. What a thread knows when it is between two calls is only whether its process is
alive.
-/
namespace Xv6.Ptable

open Xv6.Library Xv6.Library.Thread Xv6.Source.Ptable

variable {Cpu : Type} [DecidableEq Cpu] {strict : Prop} {t : Thread Cpu} {ℓ : Local} {me q : Slot}

abbrev Runs (strict : Prop) (t : Thread Cpu) {α : Type} (code : Code α) (ℓ : Local)
    (post : α → Local → Prop) : Prop :=
  Safe perform (logic Cpu strict) t code ℓ post

theorem runs_act {op : Op} {α : Type} {k : Ret op → Code α} {mid : Ret op → Local → Prop}
    {post : α → Local → Prop} (h : Does perform (logic Cpu strict) t op ℓ mid)
    (hk : ∀ r ℓ', mid r ℓ' → Runs strict t (k r) ℓ' post) : Runs strict t (act op >>= k) ℓ post :=
  Safe.bind (Safe.op h) hk

theorem runs_last {op : Op} {mid post : Ret op → Local → Prop}
    (h : Does perform (logic Cpu strict) t op ℓ mid) (hk : ∀ r ℓ', mid r ℓ' → post r ℓ') :
    Runs strict t (act op) ℓ post :=
  Safe.op (h.mono hk)

/-! ## Yielding and sleeping -/

/-- A process that gives up its CPU comes back with its own lock. -/
theorem runs_sched (st : ProcState) (hself : self t = some me) (hwork : ℓ.work = some (me, .leaving st))
    (hst : st ≠ .zombie) (hlive : Live t ℓ) :
    Runs strict t sched ℓ fun _ ℓ' => ℓ.locks = [.proc me] ∧ ℓ' = { ℓ with work := some (me, .mine) } := by
  refine runs_act (does_sched hself hlive) ?_
  rintro _ _ ⟨rfl, hlocks⟩
  exact runs_last (does_swtchOut hself hlocks hwork hst hlive) fun _ _ heq => ⟨hlocks, heq⟩

/-- The lock of a process is the last that was taken. -/
theorem does_releaseLast (locks : List Lock) (st : Stage) (hlocks : ℓ.locks = .proc q :: locks)
    (hwork : ℓ.work = some (q, st)) (hassigned : assigned (some (q, st)) = none)
    (hshape : ∀ (v : View Cpu) c, v.Shape strict q c st → v.Rest strict q) (hlive : Live t ℓ) :
    Does perform (logic Cpu strict) t (.release (.proc q)) ℓ fun _ ℓ' =>
      ℓ' = { ℓ with locks := locks, work := none } := by
  refine (does_releaseProc st hwork hassigned hshape hlive).mono ?_
  rintro _ _ rfl
  rw [hlocks, List.erase_cons_head]

theorem does_releaseMine (locks : List Lock) (hlocks : ℓ.locks = .proc me :: locks)
    (hwork : ℓ.work = some (me, .mine)) (hlive : Live t ℓ) :
    Does perform (logic Cpu strict) t (.release (.proc me)) ℓ fun _ ℓ' =>
      ℓ' = { ℓ with locks := locks, work := none } :=
  does_releaseLast locks .mine hlocks hwork rfl (fun _ _ hs => rest_of_mine hs) hlive

theorem does_releaseHeld (locks : List Lock) (hlocks : ℓ.locks = .proc q :: locks)
    (hwork : ℓ.work = some (q, .held)) (hlive : Live t ℓ) :
    Does perform (logic Cpu strict) t (.release (.proc q)) ℓ fun _ ℓ' =>
      ℓ' = { ℓ with locks := locks, work := none } :=
  does_releaseLast locks .held hlocks hwork rfl (fun _ _ hs => hs) hlive

theorem does_setYielding (hwork : ℓ.work = some (me, .mine)) (hcall : ℓ.call = none) (hlive : Live t ℓ) :
    Does perform (logic Cpu strict) t (.setState me .runnable) ℓ fun _ ℓ' =>
      ℓ' = { ℓ with work := some (me, .leaving .runnable) } :=
  does_setState_same hwork hcall hlive rfl nofun nofun (fun _ _ hs => ⟨.inr (.inl hs.1), .inl rfl⟩) nofun
    fun _ _ hs => ⟨hs.2.1, rfl, .inl ⟨.inl rfl, hs.2.2⟩⟩

theorem runs_yield (hself : self t = some me) (hnone : ℓ.work = none) (hcall : ℓ.call = none)
    (hlive : Live t ℓ) : Runs strict t (yield me) ℓ fun _ ℓ' => ℓ' = ℓ := by
  refine runs_act (does_acquireOwn hself hnone hlive) ?_
  rintro _ _ rfl
  refine runs_act (does_setYielding ?_ ?_ ?_) ?_
  · rfl
  · exact hcall
  · exact hlive
  rintro _ _ rfl
  refine Safe.bind (runs_sched .runnable hself ?_ ?_ ?_) ?_
  · rfl
  · nofun
  · exact hlive
  rintro _ _ ⟨-, rfl⟩
  refine runs_last (does_releaseMine ℓ.locks ?_ ?_ ?_) ?_
  · rfl
  · rfl
  · exact hlive
  rintro _ _ rfl
  rw [← hnone]

section sleeping
variable (chan : Chan) (hcall : ℓ.call = none) (halive : ℓ.alive = true)
include hcall halive

theorem does_storeChan (hwork : ℓ.work = some (me, .bound chan false)) :
    Does perform (logic Cpu strict) (.proc me) (.setChan me chan) ℓ fun _ ℓ' =>
      ℓ' = { ℓ with work := some (me, .bound chan true) } := by
  refine does_setChan (.bound chan false) (.bound chan true) hwork ?_ hcall (live_proc halive) ?_ ?_ fun (v : View Cpu) c hs =>
    ⟨hs.1, fun _ => rfl⟩
  · rfl
  · rintro ch b ⟨⟩
    exact ⟨false, rfl⟩
  · intro v c hs hsl
    exact nomatch hs.1.1.symm.trans hsl

theorem does_setSleeping (hwork : ℓ.work = some (me, .bound chan true)) :
    Does perform (logic Cpu strict) (.proc me) (.setState me .sleeping) ℓ fun _ ℓ' =>
      ℓ' = { ℓ with work := some (me, .leaving .sleeping) } :=
  does_setState_same hwork hcall (live_proc halive) rfl nofun nofun
    (fun _ _ hs => ⟨.inr (.inl hs.1.1), .inr (.inr rfl)⟩) (fun _ => ⟨rfl, chan, rfl⟩)
    fun _ _ hs => ⟨hs.1.2.1, rfl, .inl ⟨.inr rfl, hs.1.2.2⟩⟩

theorem does_clearChan (hwork : ℓ.work = some (me, .mine)) :
    Does perform (logic Cpu strict) (.proc me) (.setChan me .null) ℓ fun _ ℓ' => ℓ' = ℓ := by
  refine (does_setChan .mine .mine hwork rfl hcall (live_proc halive) nofun ?_ fun v c hs => hs).mono ?_
  · intro v c hs hsl
    exact nomatch hs.1.symm.trans hsl
  · rintro _ _ rfl
    rw [← hwork]

/-- `sleep`, from the point where the process has given back the other lock, to where it takes it
again. -/
theorem runs_doze {α : Type} {k : Code α} {post : α → Local → Prop}
    (hwork : ℓ.work = some (me, .bound chan false))
    (hk : ℓ.locks = [.proc me] →
      Runs strict (.proc me : Thread Cpu) k { ℓ with locks := [], work := none } post) :
    Runs strict (.proc me : Thread Cpu) (do
      act (.setChan me chan)
      act (.setState me .sleeping)
      sched
      act (.setChan me .null)
      act (.release (.proc me))
      k) ℓ post := by
  refine runs_act (does_storeChan chan hcall halive hwork) ?_
  rintro _ _ rfl
  refine runs_act (does_setSleeping chan ?_ ?_ ?_) ?_
  · exact hcall
  · exact halive
  · rfl
  rintro _ _ rfl
  refine Safe.bind (runs_sched .sleeping rfl ?_ ?_ ?_) ?_
  · rfl
  · nofun
  · exact live_proc halive
  rintro _ _ ⟨hlocks, rfl⟩
  refine runs_act (does_clearChan ?_ ?_ ?_) ?_
  · exact hcall
  · exact halive
  · rfl
  rintro _ _ rfl
  refine runs_act (does_releaseMine [] ?_ ?_ ?_) ?_
  · exact hlocks
  · rfl
  · exact live_proc halive
  rintro _ _ rfl
  exact hk hlocks

end sleeping

/-- A process that holds a spin-lock and no other sleeps and comes back with it. -/
theorem runs_sleep {m n : Nat} (hnone : ℓ.work = none) (hcall : ℓ.call = none) (halive : ℓ.alive = true)
    (hwait : .wait ∉ ℓ.locks) (hheld : .other n ∈ ℓ.locks) :
    Runs strict (.proc me : Thread Cpu) (sleep me (.other m) (.other n)) ℓ fun _ ℓ' => ℓ' = ℓ := by
  refine runs_act (does_acquireOwn rfl hnone (live_proc halive)) ?_
  rintro _ _ rfl
  refine runs_act (does_sleepRelease ?_ ?_ ?_) ?_
  · rfl
  · exact halive
  · simpa using hwait
  rintro _ _ rfl
  refine runs_doze _ ?_ ?_ ?_ ?_
  · exact hcall
  · exact halive
  · rfl
  intro hlocks
  refine runs_last (does_acquire nofun nofun (live_proc halive)) ?_
  rintro _ _ rfl
  have herase : ℓ.locks.erase (.other n) = [] := by simpa using hlocks
  have hone : ℓ.locks = [.other n] := by
    have hlen := List.length_erase_of_mem hheld
    rw [herase, List.length_nil] at hlen
    have hpos := List.length_pos_of_mem hheld
    obtain ⟨l, hl⟩ := List.length_eq_one_iff.1 (show ℓ.locks.length = 1 by omega)
    rw [hl, List.mem_singleton] at hheld
    rw [hl, ← hheld]
  rw [← hnone, ← hone]

/-- The same in `wait`, which has looked at every entry. -/
theorem runs_sleepWait (hnone : ℓ.work = none) (hcall : ℓ.call = none) (hwake : ℓ.wake = none)
    (halive : ℓ.alive = true) (hdebt : ℓ.debt = false) (hseen : ∀ p, p ∈ ℓ.seen) :
    Runs strict (.proc me : Thread Cpu) (sleep me (.proc me) .wait) ℓ fun _ ℓ' =>
      ℓ' = { ℓ.forget with locks := [.wait] } := by
  refine runs_act (does_acquireOwn rfl hnone (live_proc halive)) ?_
  rintro _ _ rfl
  refine runs_act (does_sleepReleaseWait ?_ ?_ ?_ ?_) ?_
  · rfl
  · exact halive
  · exact hdebt
  · exact hseen
  rintro _ _ rfl
  refine runs_doze _ ?_ ?_ ?_ ?_
  · exact hcall
  · exact halive
  · rfl
  intro _
  refine runs_last (does_acquireWait ?_ ?_ ?_) ?_
  · exact ⟨rfl, rfl, rfl, rfl, rfl, rfl⟩
  · exact hwake
  · exact live_proc halive
  rintro _ _ rfl
  rw [Local.forget, ← hnone]
  rfl

/-! ## wakeup -/

/-- The code of the thread knows which process it is. -/
structure Waker (t : Thread Cpu) (who : Option Slot) (ℓ : Local) : Prop where
  work : ℓ.work = none
  call : ℓ.call = none
  live : Live t ℓ
  self : myproc t ℓ = who

theorem runs_wakeupOne {who : Option Slot} {chan : Chan} {ps : List Slot} (hw : Waker t who ℓ)
    (hwake : ℓ.wake = some (chan, ps)) (p : Slot) :
    Runs strict t (wakeupOne who chan p) ℓ fun _ ℓ' => ∃ ps', ℓ' = { ℓ with wake := some (chan, ps') } ∧
      ps ⊆ ps' ∧ (p ∈ ps' ∨ some p = who) := by
  rw [wakeupOne]
  split
  · rename_i hne
    have ht : t ≠ .proc p := by
      rintro rfl
      exact hne hw.self
    refine runs_act (does_acquireProc hw.work hw.live) ?_
    rintro _ _ rfl
    refine runs_act (does_rouse ps ?_ ?_ ht ?_ ?_) ?_
    · rfl
    · exact hwake
    · exact hw.call
    · exact hw.live
    rintro _ _ rfl
    refine runs_last (does_releaseHeld ℓ.locks ?_ ?_ ?_) ?_
    · rfl
    · rfl
    · exact hw.live
    rintro _ _ rfl
    refine ⟨p :: ps, ?_, fun x hx => List.mem_cons_of_mem _ hx, .inl (List.mem_cons_self ..)⟩
    rw [← hw.work]
  · rename_i heq
    refine Safe.ret ⟨ps, ?_, List.Subset.refl _, .inr (not_not.1 heq)⟩
    rw [← hwake]

theorem runs_wakeupLoop {who : Option Slot} {chan : Chan} {qs : List Slot} (ps : List Slot) (hw : Waker t who ℓ)
    (hwake : ℓ.wake = some (chan, ps)) :
    Runs strict t (wakeupLoop who chan qs) ℓ fun _ ℓ' => ∃ ps', ℓ' = { ℓ with wake := some (chan, ps') } ∧
      ps ⊆ ps' ∧ ∀ p, p ∈ qs → p ∈ ps' ∨ some p = who := by
  induction qs generalizing ℓ ps with
  | nil =>
    refine Safe.ret ⟨ps, ?_, List.Subset.refl _, nofun⟩
    rw [← hwake]
  | cons q qs ih =>
    refine Safe.bind (runs_wakeupOne hw hwake q) ?_
    rintro _ _ ⟨ps₁, rfl, hsub₁, hq⟩
    refine Safe.mono (ih ps₁ ?_ ?_) ?_
    · exact ⟨hw.work, hw.call, hw.live, by cases t <;> exact hw.self⟩
    · rfl
    rintro _ _ ⟨ps₂, rfl, hsub₂, hqs⟩
    refine ⟨ps₂, rfl, List.Subset.trans hsub₁ hsub₂, fun p hp => ?_⟩
    rcases List.mem_cons.1 hp with rfl | hp
    · exact hq.imp_left fun hx => hsub₂ hx
    · exact hqs p hp

theorem runs_wakeup {who : Option Slot} (chan : Chan) (hw : Waker t who ℓ) :
    Runs strict t (wakeup who chan) ℓ fun _ ℓ' => ℓ' = ℓ.woke chan := by
  refine runs_act (does_wakeBegin chan hw.live) ?_
  rintro _ _ rfl
  refine Safe.bind (runs_wakeupLoop [] ?_ ?_) ?_
  · exact ⟨hw.work, hw.call, hw.live, by cases t <;> exact hw.self⟩
  · rfl
  rintro _ _ ⟨ps, rfl, -, hall⟩
  refine runs_last (does_wakeEnd ps ?_ ?_ ?_ ?_) ?_
  · rfl
  · intro p hp
    rw [(hall p (List.mem_finRange p)).resolve_left hp]
    cases t <;> exact hw.self
  · exact hw.work
  · exact hw.live
  rintro _ _ rfl
  cases chan <;> rfl

/-! ## The scheduler -/

section scheduling
variable {c : Cpu}

theorem does_getStateSched (hwork : ℓ.work = some (q, .held)) :
    Does perform (logic Cpu strict) (.sched c) (.getState q) ℓ fun r ℓ' =>
      ℓ' = { ℓ with work := some (q, if r = .runnable then .chose else .held) } := by
  refine does_read (.getState q) rfl rfl (fun s => s.state q) (fun _ _ => rfl)
    (fun r => if r = .runnable then .chose else .held) hwork (fun r => ?_) (fun r ch b => ?_)
    (fun s g c' hs => ?_) nofun
  · split <;> rfl
  · split <;> nofun
  · split
    · rename_i hrun
      exact ⟨hrun, hs⟩
    · exact hs

theorem runs_dispatch {st : ProcState} (hlocks : ℓ.locks = [.proc q])
    (hwork : ℓ.work = some (q, if st = .runnable then .chose else .held)) (hcall : ℓ.call = none) :
    Runs strict (.sched c) (dispatch q st) ℓ fun _ ℓ' => ℓ' = { ℓ with work := some (q, .held) } := by
  rw [dispatch]
  split
  · rename_i hrun
    rw [if_pos hrun] at hwork
    refine runs_act (does_setRunning hwork hcall) ?_
    rintro _ _ rfl
    refine runs_act (does_setCproc q .set .armed ?_ ?_ ?_ ?_) ?_
    · rfl
    · rfl
    · nofun
    · exact fun v c' hs => hs
    rintro _ _ rfl
    refine runs_act (does_swtchTo ?_ ?_) ?_
    · exact hlocks
    · rfl
    rintro _ _ rfl
    refine runs_last (does_setCproc q .back .held ?_ ?_ ?_ ?_) ?_
    · rfl
    · rfl
    · nofun
    · exact fun v c' hs => hs.2
    exact fun _ _ heq => heq
  · rename_i hrun
    rw [if_neg hrun] at hwork
    refine Safe.ret ?_
    rw [← hwork]

theorem runs_schedulerLoop {ps : List Slot} (hlocks : ℓ.locks = []) (hnone : ℓ.work = none)
    (hcall : ℓ.call = none) : Runs strict (.sched c) (schedulerLoop ps) ℓ fun _ ℓ' => ℓ' = ℓ := by
  induction ps with
  | nil => exact Safe.ret rfl
  | cons p ps ih =>
    refine runs_act (does_acquireProc hnone nofun) ?_
    rintro _ _ rfl
    refine runs_act (does_getStateSched ?_) ?_
    · rfl
    rintro st _ rfl
    refine Safe.bind (runs_dispatch ?_ ?_ ?_) ?_
    · exact congrArg _ hlocks
    · rfl
    · exact hcall
    rintro _ _ rfl
    refine runs_act (does_releaseHeld ℓ.locks ?_ ?_ nofun) ?_
    · rfl
    · rfl
    rintro _ _ rfl
    rw [← hnone]
    exact ih

end scheduling

/-! ## kill -/

theorem does_getPidKill (hwork : ℓ.work = some (q, .held)) (hlive : Live t ℓ) :
    Does perform (logic Cpu strict) t (.getPid q) ℓ fun r ℓ' => ℓ' = { ℓ with work := some (q, .named r) } :=
  does_read (.getPid q) rfl rfl (fun s => s.pid q) (fun _ _ => rfl) .named hwork (fun _ => rfl) (fun _ _ _ => nofun)
    (fun _ _ _ hs => ⟨hs, rfl⟩) hlive

theorem runs_killLoop {pid : Int32} {ps : List Slot} (hnone : ℓ.work = none) (hcall : ℓ.call = some (pid, 0))
    (hlive : Live t ℓ) :
    Runs strict t (killLoop pid ps) ℓ fun r ℓ' => ∃ n, ℓ' = { ℓ with call := some (pid, n) } ∧
      (r = 0 ∧ n = 1 ∨ r = -1 ∧ n = 0) := by
  induction ps with
  | nil =>
    refine Safe.ret ⟨0, ?_, .inr ⟨rfl, rfl⟩⟩
    rw [← hcall]
  | cons p ps ih =>
    refine runs_act (does_acquireProc hnone hlive) ?_
    rintro _ _ rfl
    refine runs_act (does_getPidKill ?_ ?_) ?_
    · rfl
    · exact hlive
    rintro r _ rfl
    split
    · rename_i hr
      refine runs_act (does_mark pid ?_ ?_ ?_) ?_
      · rw [← hr]
      · exact hcall
      · exact hlive
      rintro _ _ rfl
      refine runs_act (does_releaseHeld ℓ.locks ?_ ?_ ?_) ?_
      · rfl
      · rfl
      · exact hlive
      rintro _ _ rfl
      refine Safe.ret ⟨1, ?_, .inl ⟨rfl, rfl⟩⟩
      rw [← hnone]
    · refine runs_act (does_releaseLast ℓ.locks (.named r) ?_ ?_ ?_ ?_ ?_) ?_
      · rfl
      · rfl
      · rfl
      · exact fun v c hs => hs.1
      · exact hlive
      rintro _ _ rfl
      rw [← hnone]
      exact ih

theorem runs_kill {pid : Int32} (hnone : ℓ.work = none) (hcall : ℓ.call = none) (hlive : Live t ℓ) :
    Runs strict t (kill pid) ℓ fun _ ℓ' => ℓ' = ℓ := by
  refine runs_act (does_killBegin pid hlive) ?_
  rintro _ _ rfl
  refine Safe.bind (runs_killLoop ?_ ?_ ?_) ?_
  · exact hnone
  · rfl
  · exact hlive
  rintro r _ ⟨n, rfl, hr⟩
  refine runs_act (does_killEnd pid n ?_ hr ?_) ?_
  · rfl
  · exact hlive
  rintro _ _ rfl
  refine Safe.ret ?_
  rw [← hcall]

section marks
variable (hnone : ℓ.work = none) (hcall : ℓ.call = none) (halive : ℓ.alive = true)
include hnone halive

theorem runs_killed : Runs strict (.proc me : Thread Cpu) (killed me) ℓ fun _ ℓ' => ℓ' = ℓ := by
  refine runs_act (does_acquireOwn rfl hnone (live_proc halive)) ?_
  rintro _ _ rfl
  refine runs_act (does_peek (.getKilled me) me .mine rfl rfl (fun s => s.killed me) (fun _ _ => rfl) ?_ nofun ?_) ?_
  · rfl
  · exact live_proc halive
  rintro _ _ rfl
  refine runs_act (does_releaseMine ℓ.locks ?_ ?_ ?_) ?_
  · rfl
  · rfl
  · exact live_proc halive
  rintro _ _ rfl
  refine Safe.ret ?_
  rw [← hnone]

include hcall

theorem runs_setkilled : Runs strict (.proc me : Thread Cpu) (setkilled me) ℓ fun _ ℓ' => ℓ' = ℓ := by
  refine runs_act (does_acquireOwn rfl hnone (live_proc halive)) ?_
  rintro _ _ rfl
  refine runs_act (does_setKilled .mine .mine ?_ rfl ?_ ?_ nofun ?_ ?_) ?_
  · rfl
  · exact hcall
  · exact live_proc halive
  · exact fun _ => rfl
  · exact fun v c hs => hs
  rintro _ _ rfl
  refine runs_last (does_releaseMine ℓ.locks ?_ ?_ ?_) ?_
  · rfl
  · rfl
  · exact live_proc halive
  rintro _ _ rfl
  rw [← hnone]

end marks

end Xv6.Ptable
