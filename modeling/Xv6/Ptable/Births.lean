import Xv6.Ptable.Calls

/-!
# Processes come and go

`fork`, `exit` and `wait`, with the functions they call, keep the invariant and end with the
locks they began with.
-/
namespace Xv6.Ptable

open Xv6.Library Xv6.Library.Thread Xv6.Source.Ptable

variable {Cpu : Type} [DecidableEq Cpu] {strict : Prop} {t : Thread Cpu} {ℓ : Local} {me q : Slot}

/-! ## Entries are taken and freed -/

theorem runs_allocpid (hlive : Live t ℓ) : Runs strict t allocpid ℓ fun _ ℓ' => ℓ' = ℓ := by
  refine runs_act (does_acquire nofun nofun hlive) ?_
  rintro _ _ rfl
  refine runs_act (does_nextPid ?_) ?_
  · exact hlive
  rintro _ _ rfl
  refine runs_act (does_release nofun nofun ?_) ?_
  · exact hlive
  rintro _ _ rfl
  refine Safe.ret ?_
  rw [List.erase_cons_head]

/-- The entry is that of a new process, or of a zombie that has been reaped. -/
theorem runs_freeproc (old : Stage) (st : ProcState) (hwork : ℓ.work = some (q, old))
    (hassigned : assigned (some (q, old)) = none)
    (hfrom : ∀ (v : View Cpu) c, v.Shape strict q c old → v.Shape strict q c (.freeing st 0))
    (hchild : st = .used → ℓ.child = some (q, false)) (hwait : st = .zombie → .wait ∈ ℓ.locks)
    (hkid : ℓ.kid = none) (hcall : ℓ.call = none) (hlive : Live t ℓ) :
    Runs strict t (freeproc q) ℓ fun _ ℓ' => ℓ' = { ℓ with work := some (q, .held), child := none } := by
  refine runs_act (does_setPid old (.freeing st 1) hwork hassigned.symm hcall hlive nofun ?_) ?_
  · intro v c hs
    obtain ⟨hst, hor, hvac, hex, -⟩ := hfrom v c hs
    exact ⟨hst, hor, hvac, hex, fun _ => rfl, by omega, by omega⟩
  rintro _ _ rfl
  refine runs_act (does_unlink st ?_ ?_ ?_ ?_ ?_ ?_) ?_
  · rfl
  · exact hchild
  · exact hwait
  · exact hkid
  · exact hcall
  · exact hlive
  rintro _ _ rfl
  refine runs_act (does_setChan (.freeing st 2) (.freeing st 3) ?_ ?_ ?_ ?_ nofun ?_ ?_) ?_
  · rfl
  · rfl
  · exact hcall
  · exact hlive
  · rintro v c ⟨hst, hor, -⟩ hsl
    rw [← hst, hsl] at hor
    exact hor.elim nofun nofun
  · rintro v c ⟨hst, hor, hvac, hex, hpid, hlink, -⟩
    exact ⟨hst, hor, hvac, hex, fun _ => hpid (by omega), fun _ => hlink (by omega), by omega⟩
  rintro _ _ rfl
  refine runs_act (does_setKilled (.freeing st 3) (.freeing st 4) ?_ ?_ ?_ ?_ nofun nofun ?_) ?_
  · rfl
  · rfl
  · exact hcall
  · exact hlive
  · rintro v c ⟨hst, hor, hvac, hex, hpid, hlink, -⟩
    exact ⟨hst, hor, hvac, hex, fun _ => hpid (by omega), fun _ => hlink (by omega), fun _ => rfl⟩
  rintro _ _ rfl
  refine runs_act (does_setXstate (.freeing st 4) (.freeing st 4) ?_ ?_ ?_ ?_ nofun ?_) ?_
  · rfl
  · rfl
  · exact hcall
  · exact hlive
  · exact fun v c hs => hs
  rintro _ _ rfl
  refine runs_last (does_setUnused st 4 ?_ ?_ ?_ ?_ ?_) ?_
  · rfl
  · exact Nat.le_refl 4
  · exact hchild
  · exact hcall
  · exact hlive
  exact fun _ _ heq => heq

/-- What `allocproc` leaves its caller with. -/
def Local.allocated (ℓ : Local) : Option Slot → Local
  | none => ℓ
  | some p => { ℓ with locks := .proc p :: ℓ.locks, work := some (p, .kept), child := some (p, false) }

theorem does_getStateAlloc (hwork : ℓ.work = some (q, .held)) (hlive : Live t ℓ) :
    Does perform (logic Cpu strict) t (.getState q) ℓ fun r ℓ' =>
      ℓ' = { ℓ with work := some (q, if r = .unused then .free else .held) } := by
  refine does_read (.getState q) rfl rfl (fun s => s.state q) (fun _ _ => rfl)
    (fun r => if r = .unused then .free else .held) hwork (fun r => ?_) (fun r ch b => ?_)
    (fun s g c hs => ?_) hlive
  · split <;> rfl
  · split <;> nofun
  · split
    · rename_i hunused
      exact ⟨hunused, hs⟩
    · exact hs

omit [DecidableEq Cpu] in
theorem numbered_of_free {v : View Cpu} {c : Cpu} {pid : Int32} (h : v.Shape strict q c .free) :
    ({ v with pid := pid } : View Cpu).Shape strict q c .numbered := by
  obtain ⟨hunused, hrest⟩ := h
  simp only [View.Rest, hunused] at hrest
  obtain ⟨hvac, hex, hlinked, -, hkilled⟩ := hrest
  exact ⟨hunused, hvac, hex, hlinked, hkilled⟩

section allocation
variable (hnone : ℓ.work = none) (hchild : ℓ.child = none) (hkid : ℓ.kid = none) (hcall : ℓ.call = none)
  (hlive : Live t ℓ)
include hnone hchild hkid hcall hlive

theorem runs_allocLoop {memory : Bool} {ps : List Slot} :
    Runs strict t (allocLoop memory ps) ℓ fun r ℓ' => ℓ' = ℓ.allocated r := by
  induction ps with
  | nil => exact Safe.ret rfl
  | cons p ps ih =>
    refine runs_act (does_acquireProc hnone hlive) ?_
    rintro _ _ rfl
    refine runs_act (does_getStateAlloc ?_ ?_) ?_
    · rfl
    · exact hlive
    rintro r _ rfl
    split
    · refine Safe.bind (runs_allocpid ?_) ?_
      · exact hlive
      rintro pid _ rfl
      refine runs_act (does_setPid .free .numbered ?_ ?_ ?_ ?_ (by rintro _ _ ⟨⟩) ?_) ?_
      · rfl
      · rfl
      · exact hcall
      · exact hlive
      · exact fun v c hs => numbered_of_free hs
      rintro _ _ rfl
      refine runs_act (does_setUsed ?_ ?_ ?_) ?_
      · rfl
      · exact hcall
      · exact hlive
      rintro _ _ rfl
      split
      · refine runs_act (does_makeCtx .new .kept ?_ ?_ ?_ ?_ (by rintro _ _ ⟨⟩) ?_) ?_
        · rfl
        · rfl
        · exact hcall
        · exact hlive
        · exact fun v c hs => ⟨hs.1, ⟨hs.2.1, rfl⟩, hs.2.2⟩
        rintro _ _ rfl
        exact Safe.ret rfl
      · refine Safe.bind (runs_freeproc .new .used ?_ ?_ ?_ ?_ ?_ ?_ ?_ ?_) ?_
        · rfl
        · rfl
        · exact fun v c hs => ⟨hs.1, .inl rfl, hs.2.1, hs.2.2, by omega, by omega, by omega⟩
        · exact fun _ => rfl
        · rintro ⟨⟩
        · exact hkid
        · exact hcall
        · exact hlive
        rintro _ _ rfl
        refine runs_act (does_releaseHeld ℓ.locks ?_ ?_ ?_) ?_
        · rfl
        · rfl
        · exact hlive
        rintro _ _ rfl
        refine Safe.ret ?_
        rw [← hnone, ← hchild]
        rfl
    · refine runs_act (does_releaseHeld ℓ.locks ?_ ?_ ?_) ?_
      · rfl
      · rfl
      · exact hlive
      rintro _ _ rfl
      rw [← hnone]
      exact ih

end allocation

/-! ## fork -/

/-- What a process knows between two system calls. -/
abbrev idle : Local := { alive := true }

theorem runs_fork {memory copied : Bool} :
    Runs strict (.proc me : Thread Cpu) (fork me memory copied) idle fun _ ℓ' => ℓ' = idle := by
  have hlive : ∀ {ℓ : Local}, ℓ.alive = true → Live (.proc me : Thread Cpu) ℓ := fun h => live_proc h
  refine Safe.bind (runs_allocLoop rfl rfl rfl rfl (hlive rfl)) ?_
  rintro (_ | np) _ rfl
  · exact Safe.ret rfl
  dsimp only
  split
  · refine runs_act (does_peek (.getPid np) np .kept rfl rfl (fun s => s.pid np) (fun _ _ => rfl) rfl (by rintro _ _ ⟨⟩)
      (hlive rfl)) ?_
    rintro pid _ rfl
    refine runs_act (does_releaseLast [] .kept rfl rfl rfl (fun v c hs => ?_) (hlive rfl)) ?_
    · simp only [View.Rest, hs.1]
      exact hs.2
    rintro _ _ rfl
    refine runs_act (does_acquireWait ⟨rfl, rfl, rfl, rfl, rfl, rfl⟩ rfl (hlive rfl)) ?_
    rintro _ _ rfl
    refine runs_act (does_link rfl rfl ⟨rfl, rfl, rfl, rfl, rfl, rfl⟩ rfl rfl rfl) ?_
    rintro _ _ rfl
    refine runs_act (does_releaseWait rfl (hlive rfl)) ?_
    rintro _ _ rfl
    refine runs_act (does_acquireChild (b := true) rfl rfl (hlive rfl)) ?_
    rintro _ _ rfl
    refine runs_act (does_setReady rfl rfl rfl (hlive rfl)) ?_
    rintro _ _ rfl
    refine runs_act (does_releaseHeld [] rfl rfl (hlive rfl)) ?_
    rintro _ _ rfl
    exact Safe.ret rfl
  · refine Safe.bind (runs_freeproc .kept .used rfl rfl ?_ (fun _ => rfl) (by rintro ⟨⟩) rfl rfl (hlive rfl)) ?_
    · exact fun v c hs => ⟨hs.1, .inl rfl, hs.2.1.1, hs.2.2, by omega, by omega, by omega⟩
    rintro _ _ rfl
    refine runs_act (does_releaseHeld [] rfl rfl (hlive rfl)) ?_
    rintro _ _ rfl
    exact Safe.ret rfl

/-! ## exit -/

/-- What `exit` knows while it gives its children to init. -/
structure Local.Orphaning (ℓ : Local) : Prop where
  locks : ℓ.locks = [.wait]
  work : ℓ.work = none
  call : ℓ.call = none
  alive : ℓ.alive = true
  parent : ℓ.parent = none
  kid : ℓ.kid = none
  wake : ℓ.wake = none
  debt : ℓ.debt = false
  seen : ℓ.seen = []

theorem runs_adopt {p : Slot} {q : Option Slot} (hme : me ≠ init) (ho : ℓ.Orphaning) :
    Runs strict (.proc me : Thread Cpu) (adopt me p q) (ℓ.passed me p q) fun _ ℓ' =>
      ∃ o, ℓ' = { ℓ with awake := o, cleared := p :: ℓ.cleared } := by
  rw [adopt, Local.passed]
  split
  · refine runs_act (does_adopt ?_ ?_ ?_ ?_ hme ?_ ?_) ?_
    · rfl
    · exact ho.locks ▸ List.mem_singleton_self _
    · exact ho.parent
    · exact ho.seen
    · exact ho.call
    · exact ho.alive
    rintro _ _ rfl
    refine Safe.mono (runs_wakeup (.proc init) ⟨?_, ?_, ?_, rfl⟩) ?_
    · exact ho.work
    · exact ho.call
    · exact live_proc ho.alive
    rintro _ _ rfl
    refine ⟨some init, ?_⟩
    simp only [Local.woke, ne_eq, not_true_eq_false, decide_false, Bool.and_false]
    rw [← ho.wake, ← ho.kid, ← ho.debt]
  · exact Safe.ret ⟨ℓ.awake, rfl⟩

theorem runs_reparentLoop {ps : List Slot} (hme : me ≠ init) (ho : ℓ.Orphaning) :
    Runs strict (.proc me : Thread Cpu) (reparentLoop me ps) ℓ fun _ ℓ' =>
      ∃ o cleared, ℓ' = { ℓ with awake := o, cleared := cleared } ∧ ℓ.cleared ⊆ cleared ∧ ps ⊆ cleared := by
  induction ps generalizing ℓ with
  | nil => exact Safe.ret ⟨ℓ.awake, ℓ.cleared, rfl, List.Subset.refl _, List.nil_subset _⟩
  | cons p ps ih =>
    refine runs_act (does_getParentReparent ho.alive) ?_
    rintro q _ rfl
    refine Safe.bind (runs_adopt hme ho) ?_
    rintro _ _ ⟨o, rfl⟩
    refine Safe.mono (ih ?_) ?_
    · exact ⟨ho.locks, ho.work, ho.call, ho.alive, ho.parent, ho.kid, ho.wake, ho.debt, ho.seen⟩
    rintro _ _ ⟨o', cleared, rfl, hold, hnew⟩
    refine ⟨o', cleared, rfl, fun x hx => hold (List.mem_cons_of_mem p hx), ?_⟩
    exact List.cons_subset.2 ⟨hold (List.mem_cons_self ..), hnew⟩

/-- The first steps of a new process. -/
theorem runs_forkret (hempty : ℓ.toHold = {}) :
    Runs strict (.proc me : Thread Cpu) (forkret me) ℓ fun _ ℓ' => ℓ' = { ℓ with alive := true } := by
  refine runs_act (does_enterForkret hempty) ?_
  rintro _ _ rfl
  refine runs_last (does_releaseMine [] ?_ ?_ ?_) ?_
  · rfl
  · rfl
  · exact live_proc rfl
  rintro _ _ rfl
  rw [hempty]

theorem runs_checkInit : Runs strict t (checkInit me) ℓ fun _ ℓ' => ℓ' = ℓ ∧ me ≠ init := by
  rw [checkInit]
  split
  · exact Safe.op (does_panic ⟨by decide, by decide⟩)
  · rename_i hme
    exact Safe.ret ⟨rfl, hme⟩

/-- A zombie leaves its kernel stack. -/
theorem runs_schedZombie (hlocks : ℓ.locks = [.proc me]) (hwork : ℓ.work = some (me, .leaving .zombie))
    (halive : ℓ.alive = true) : Runs strict (.proc me : Thread Cpu) sched ℓ fun _ ℓ' =>
      ℓ' = { ℓ with locks := [], work := none, alive := false } := by
  refine runs_act (does_sched rfl (live_proc halive)) ?_
  rintro _ _ ⟨rfl, -⟩
  exact runs_last (does_swtchOutZombie hlocks hwork halive) fun _ _ heq => heq

theorem runs_exit {status : Int32} :
    Runs strict (.proc me : Thread Cpu) (exit me status) idle fun _ ℓ' => ℓ' = idle := by
  have hlive : ∀ {ℓ : Local}, ℓ.alive = true → Live (.proc me : Thread Cpu) ℓ := fun h => live_proc h
  refine Safe.bind runs_checkInit ?_
  rintro _ _ ⟨rfl, hme⟩
  refine runs_act (does_acquireWait ⟨rfl, rfl, rfl, rfl, rfl, rfl⟩ rfl (hlive rfl)) ?_
  rintro _ _ rfl
  refine Safe.bind (runs_reparentLoop hme ⟨rfl, rfl, rfl, rfl, rfl, rfl, rfl, rfl, rfl⟩) ?_
  rintro _ _ ⟨o, cleared, rfl, -, hall⟩
  refine runs_act (does_getParentExit rfl) ?_
  rintro q _ rfl
  refine Safe.bind (runs_wakeup _ ⟨rfl, rfl, hlive rfl, rfl⟩) ?_
  rintro _ _ rfl
  -- who has been woken is all that depends on the parent
  obtain ⟨o', hwoke, ho'⟩ : ∃ o', ({ locks := [.wait], alive := true, awake := o, cleared := cleared, parent := some q } : Local).woke
      (parentChan q) = { locks := [.wait], alive := true, awake := o', cleared := cleared, parent := some q } ∧
      ∀ q', q = some q' → o' = some q' := by
    cases q with
    | none => exact ⟨o, rfl, nofun⟩
    | some q => exact ⟨some q, rfl, fun q' hq => hq⟩
  refine Eq.mpr (congrArg (fun ℓ => Runs strict _ _ ℓ _) hwoke) ?_
  refine runs_act (does_acquireOwn rfl rfl (hlive rfl)) ?_
  rintro _ _ rfl
  refine runs_act (does_setXstate .mine (.dying status) rfl rfl rfl (hlive rfl) nofun ?_) ?_
  · exact fun v c hs => ⟨hs, rfl⟩
  rintro _ _ rfl
  refine runs_act (does_becomeZombie rfl ?_ hme ?_ nofun ?_ rfl rfl rfl) ?_
  · exact List.mem_cons_of_mem _ (List.mem_singleton_self _)
  · exact fun p => hall (List.mem_finRange p)
  · exact fun q' hq => ho' q' (Option.some.inj hq)
  rintro _ _ rfl
  refine runs_act (does_releaseWait rfl (hlive rfl)) ?_
  rintro _ _ rfl
  refine Safe.bind (runs_schedZombie rfl rfl rfl) ?_
  rintro _ _ rfl
  refine runs_act (does_zombieExit rfl) ?_
  rintro _ _ rfl
  exact runs_forkret rfl

/-! ## wait -/

theorem does_getPidWait (hwork : ℓ.work = some (q, .dead none none)) (hlive : Live t ℓ) :
    Does perform (logic Cpu strict) t (.getPid q) ℓ fun r ℓ' =>
      ℓ' = { ℓ with work := some (q, .dead (some r) none) } :=
  does_read (.getPid q) rfl rfl (fun s => s.pid q) (fun _ _ => rfl) (fun r => .dead (some r) none) hwork
    (fun _ => rfl) (fun _ _ _ => nofun)
    (fun _ _ _ hs => ⟨hs.1, hs.2.1, fun _ hx => Option.some.inj hx, nofun⟩) hlive

theorem does_getXstateWait {pid : Int32} (hwork : ℓ.work = some (q, .dead (some pid) none)) (hlive : Live t ℓ) :
    Does perform (logic Cpu strict) t (.getXstate q) ℓ fun r ℓ' =>
      ℓ' = { ℓ with work := some (q, .dead (some pid) (some r)) } :=
  does_read (.getXstate q) rfl rfl (fun s => s.xstate q) (fun _ _ => rfl)
    (fun r => .dead (some pid) (some r)) hwork (fun _ => rfl) (fun _ _ _ => nofun)
    (fun _ _ _ hs => ⟨hs.1, hs.2.1, hs.2.2.1, fun _ hx => Option.some.inj hx⟩) hlive

/-- What `wait` knows while it looks for a child. -/
abbrev scanning (seen : List Slot) : Local := { alive := true, locks := [.wait], seen := seen }

/-- `wait` has returned, or has looked at all entries. -/
def Scanned (seen ps : List Slot) : Int ⊕ Bool → Local → Prop
  | .inl _, ℓ => ℓ = idle
  | .inr _, ℓ => ∃ seen', ℓ = scanning seen' ∧ seen ⊆ seen' ∧ ps ⊆ seen'

theorem Scanned.cons {seen ps : List Slot} {p : Slot} {r : Int ⊕ Bool} (h : Scanned (p :: seen) ps r ℓ) :
    Scanned seen (p :: ps) r ℓ := by
  cases r with
  | inl r => exact h
  | inr r =>
    obtain ⟨seen', heq, hold, hnew⟩ := h
    refine ⟨seen', heq, fun x hx => hold (List.mem_cons_of_mem p hx), ?_⟩
    exact List.cons_subset.2 ⟨hold (List.mem_cons_self ..), hnew⟩

theorem runs_waitScan {copied : Bool} {ps seen : List Slot} {havekids : Bool} :
    Runs strict (.proc me : Thread Cpu) (waitScan me copied ps havekids) (scanning seen) (Scanned seen ps) := by
  have hlive : ∀ {ℓ : Local}, ℓ.alive = true → Live (.proc me : Thread Cpu) ℓ := fun h => live_proc h
  induction ps generalizing seen havekids with
  | nil => exact Safe.ret ⟨seen, rfl, List.Subset.refl _, List.nil_subset _⟩
  | cons p ps ih =>
    refine runs_act (does_getParentWait rfl) ?_
    rintro q _ rfl
    rw [Local.scanned]
    split
    · refine runs_act (does_acquireProc rfl (hlive rfl)) ?_
      rintro _ _ rfl
      refine runs_act (does_getStateWait rfl rfl) ?_
      rintro st _ rfl
      rw [Local.looked]
      split
      · refine runs_act (does_getPidWait rfl (hlive rfl)) ?_
        rintro pid _ rfl
        split
        · refine runs_act (does_getXstateWait rfl (hlive rfl)) ?_
          rintro status _ rfl
          refine runs_act (does_reap rfl rfl (List.mem_cons_of_mem _ (List.mem_singleton_self _)) rfl rfl) ?_
          rintro _ _ rfl
          refine Safe.bind (runs_freeproc (.freeing .zombie 0) .zombie rfl rfl (fun v c hs => hs) (by rintro ⟨⟩)
            (fun _ => List.mem_cons_of_mem _ (List.mem_singleton_self _)) rfl rfl (hlive rfl)) ?_
          rintro _ _ rfl
          refine runs_act (does_releaseHeld [.wait] rfl rfl (hlive rfl)) ?_
          rintro _ _ rfl
          refine runs_act (does_releaseWait rfl (hlive rfl)) ?_
          rintro _ _ rfl
          exact Safe.ret rfl
        · refine runs_act (does_releaseLast [.wait] (.dead (some pid) none) rfl rfl rfl
            (fun v c hs => hs.2.1) (hlive rfl)) ?_
          rintro _ _ rfl
          refine runs_act (does_releaseWait rfl (hlive rfl)) ?_
          rintro _ _ rfl
          exact Safe.ret rfl
      · refine runs_act (does_releaseHeld [.wait] rfl rfl (hlive rfl)) ?_
        rintro _ _ rfl
        exact Safe.mono ih fun _ _ hs => hs.cons
    · exact Safe.mono ih fun _ _ hs => hs.cons

theorem runs_waitLoop {copied : Bool} {rounds : Nat} :
    Runs strict (.proc me : Thread Cpu) (waitLoop me copied rounds) (scanning []) fun _ ℓ' => ℓ' = idle := by
  have hlive : ∀ {ℓ : Local}, ℓ.alive = true → Live (.proc me : Thread Cpu) ℓ := fun h => live_proc h
  induction rounds with
  | zero => exact runs_act does_stuck fun _ _ (hfalse : False) => hfalse.elim
  | succ rounds ih =>
    refine Safe.bind runs_waitScan ?_
    rintro (r | havekids) _ hscan
    · exact Safe.ret hscan
    obtain ⟨seen, rfl, -, hall⟩ := hscan
    refine Safe.bind (runs_killed rfl rfl) ?_
    rintro k _ rfl
    split
    · refine runs_act (does_releaseWait rfl (hlive rfl)) ?_
      rintro _ _ rfl
      exact Safe.ret rfl
    · refine Safe.bind (runs_sleepWait rfl rfl rfl rfl rfl fun p => hall (List.mem_finRange p)) ?_
      rintro _ _ rfl
      exact ih

theorem runs_wait {copied : Bool} {rounds : Nat} :
    Runs strict (.proc me : Thread Cpu) (wait me copied rounds) idle fun _ ℓ' => ℓ' = idle := by
  refine runs_act (does_acquireWait ⟨rfl, rfl, rfl, rfl, rfl, rfl⟩ rfl (live_proc rfl)) ?_
  rintro _ _ rfl
  exact runs_waitLoop

end Xv6.Ptable
