import Xv6.Ptable.Entries

/-!
# Beginning and end of a process

The rules for what `fork`, `exit` and `wait` do to the table beside reading and writing
entries: new processes, parents, zombies.
-/
namespace Xv6.Ptable

open Xv6.Library Xv6.Library.Thread Xv6.Source.Ptable

variable {Cpu : Type} [DecidableEq Cpu] {strict : Prop} {t : Thread Cpu} {ℓ : Local} {me q : Slot}

/-! ## New knowledge -/

/-- The parts of what a thread knows that do not depend on `wait_lock`. -/
structure Local.Same (ℓ ℓ' : Local) : Prop where
  hold : ℓ'.toHold = ℓ.toHold
  alive : ℓ'.alive = ℓ.alive
  me : ℓ'.me = ℓ.me
  wake : ℓ'.wake = ℓ.wake
  call : ℓ'.call = ℓ.call
  child : ℓ'.child = ℓ.child
  debt : ℓ'.debt = ℓ.debt

/-- A thread that holds `wait_lock` has found something out. -/
theorem Inv.learn {s : State Cpu} {g : Ghost Cpu} {c : Cpu} (hinv : Inv strict s g) (hm : Moves s g t c)
    (hsame : (g t).Same ℓ) (hknows : Knows s g t (g t) → Knows s g t ℓ) :
    Inv strict s (Function.update g t ℓ) := by
  refine hinv.same (hinv.core.same hm .rfl rfl rfl rfl hsame.alive hsame.me hsame.hold fun _ => rfl)
    .rfl ⟨rfl, rfl, rfl⟩ rfl ?_ hsame.child hsame.wake hsame.call fun hs => ?_
  · intro p chan b hb
    rw [hsame.hold] at hb
    exact ⟨b, hb⟩
  · refine hinv.waiting.keep hs ?_ (fun _ hk => (hknows hk).keep hs rfl rfl rfl rfl rfl rfl) ?_
    · rw [hsame.hold]
      exact id
    · rw [hsame.hold, hsame.debt]
      exact fun hx hd => ⟨hx, hd⟩

theorem does_getParent {p : Slot} (upd : Option Slot → Local) (hsame : ∀ r, ℓ.Same (upd r))
    (hknows : ∀ (s : State Cpu) g, Knows s g t ℓ → Knows s g t (upd (s.parent p))) (hlive : Live t ℓ) :
    Does perform (logic Cpu strict) t (.getParent p) ℓ fun r ℓ' => ℓ' = upd r := by
  refine rule_ok rfl hlive fun s g c hinv hg hm => ?_
  subst hg
  exact ⟨s.parent p, s, upd (s.parent p), rfl, .same rfl .rfl,
    hinv.learn hm (hsame _) (hknows s g), rfl⟩

/-- `exit` reads its parent. -/
theorem does_getParentExit (halive : ℓ.alive = true) :
    Does perform (logic Cpu strict) (.proc me) (.getParent me) ℓ fun r ℓ' =>
      ℓ' = { ℓ with parent := some r } := by
  refine does_getParent (fun r => { ℓ with parent := some r }) (fun r => ⟨rfl, rfl, rfl, rfl, rfl, rfl, rfl⟩)
    (fun s g hk => ?_) (live_proc halive)
  refine ⟨fun me' o hself ho => ?_, hk.kid, hk.awake, hk.wake, hk.seen, hk.cleared⟩
  cases hself
  exact Option.some.inj ho

/-- `reparent` finds a child, or an entry that is none. -/
def Local.passed (ℓ : Local) (me p : Slot) (r : Option Slot) : Local :=
  if r = some me then { ℓ with kid := some p } else { ℓ with cleared := p :: ℓ.cleared }

theorem does_getParentReparent {p : Slot} (halive : ℓ.alive = true) :
    Does perform (logic Cpu strict) (.proc me) (.getParent p) ℓ fun r ℓ' => ℓ' = ℓ.passed me p r := by
  refine does_getParent (ℓ.passed me p) (fun r => ?_) (fun s g hk => ?_) (live_proc halive)
  · rw [Local.passed]
    split <;> exact ⟨rfl, rfl, rfl, rfl, rfl, rfl, rfl⟩
  · rw [Local.passed]
    split
    · rename_i heq
      refine ⟨hk.parent, fun me' p' hself hp' => ?_, hk.awake, hk.wake, hk.seen, hk.cleared⟩
      cases hself
      cases hp'
      exact heq
    · rename_i hne
      refine ⟨hk.parent, hk.kid, hk.awake, hk.wake, hk.seen, fun me' p' hself hmem => ?_⟩
      rcases List.mem_cons.1 hmem with rfl | hmem
      · cases hself
        exact hne
      · exact hk.cleared me' p' hself hmem

/-- `wait` finds a child, or an entry that is none. -/
def Local.scanned (ℓ : Local) (me p : Slot) (r : Option Slot) : Local :=
  if r = some me then { ℓ with kid := some p } else { ℓ with seen := p :: ℓ.seen }

theorem does_getParentWait {p : Slot} (halive : ℓ.alive = true) :
    Does perform (logic Cpu strict) (.proc me) (.getParent p) ℓ fun r ℓ' => ℓ' = ℓ.scanned me p r := by
  refine does_getParent (ℓ.scanned me p) (fun r => ?_) (fun s g hk => ?_) (live_proc halive)
  · rw [Local.scanned]
    split <;> exact ⟨rfl, rfl, rfl, rfl, rfl, rfl, rfl⟩
  · rw [Local.scanned]
    split
    · rename_i heq
      refine ⟨hk.parent, fun me' p' hself hp' => ?_, hk.awake, hk.wake, hk.seen, hk.cleared⟩
      cases hself
      cases hp'
      exact heq
    · rename_i hne
      refine ⟨hk.parent, hk.kid, hk.awake, hk.wake, fun me' p' hself hmem hp' => ?_, hk.cleared⟩
      rcases List.mem_cons.1 hmem with rfl | hmem
      · cases hself
        exact absurd hp' hne
      · exact hk.seen me' p' hself hmem hp'

/-- `wait` reads the state of a child. -/
def Local.looked (ℓ : Local) (p : Slot) (st : ProcState) : Local :=
  if st = .zombie then { ℓ with work := some (p, .dead none none) }
  else { ℓ with kid := none, seen := p :: ℓ.seen }

theorem does_getStateWait {p : Slot} (hwork : ℓ.work = some (p, .held)) (halive : ℓ.alive = true) :
    Does perform (logic Cpu strict) (.proc me) (.getState p) ℓ fun r ℓ' => ℓ' = ℓ.looked p r := by
  refine rule_ok rfl (live_proc halive) fun s g c hinv hg hm => ?_
  subst hg
  refine ⟨s.state p, s, (g (.proc me)).looked p (s.state p), rfl, .same rfl .rfl, ?_, rfl⟩
  rw [Local.looked]
  split
  · rename_i hz
    refine hinv.entry_same hm hwork (.refl s p) rfl nofun (fun hs => ⟨hz, hs, nofun, nofun⟩) id id id ?_
    exact fun chan hp => hp.of_update rfl rfl nofun
  · rename_i hnz
    refine hinv.learn hm ⟨rfl, rfl, rfl, rfl, rfl, rfl, rfl⟩ fun hk => ?_
    refine ⟨hk.parent, nofun, hk.awake, hk.wake, fun me' p' hself hmem hp' => ?_, hk.cleared⟩
    rcases List.mem_cons.1 hmem with rfl | hmem
    · exact hnz
    · exact hk.seen me' p' hself hmem hp'

/-! ## New processes -/

section states
variable {s : State Cpu} {g : Ghost Cpu}

/-- `allocproc` takes an unused entry. -/
theorem does_setUsed (hwork : ℓ.work = some (q, .numbered)) (hcall : ℓ.call = none) (hlive : Live t ℓ) :
    Does perform (logic Cpu strict) t (.setState q .used) ℓ fun _ ℓ' =>
      ℓ' = { ℓ with work := some (q, .new), child := some (q, false) } := by
  refine does_setState hwork hcall hlive rfl nofun nofun (fun v c hs ha => ?_) nofun (fun v c hs hz => ?_)
    (fun hstrict v c hs _ => hs.2.2.2.2 hstrict)
    (fun s g c _ _ hs => ⟨rfl, hs.2.1, hs.2.2.1⟩) fun s g c hinv hg hs => ?_
  · rw [hs.1] at ha
    rcases ha with hx | hx | hx <;> exact nomatch hx
  · exact nomatch hs.1.symm.trans hz
  · have hunused : s.state q = .unused := hs.1
    have hnot : ∀ t' p b, (g t').child = some (p, b) → p ≠ q := by
      rintro t' p b hc rfl
      rw [(hinv.children.used t' p b hc).1] at hunused
      exact nomatch hunused
    refine hinv.children.set (fun t' p b _ hc => ⟨?_, rfl⟩) fun p b hc => ?_
    · dsimp only
      rw [Function.update_of_ne (hnot t' p b hc)]
      exact (hinv.children.used t' p b hc).1
    · cases hc
      refine ⟨by simp, hs.2.2.2.1, fun t' b' _ hc' => ?_⟩
      exact hnot t' q b' hc' rfl

/-- `fork` makes its child runnable. -/
theorem does_setReady (hwork : ℓ.work = some (q, .kept)) (hchild : ℓ.child = some (q, true))
    (hcall : ℓ.call = none) (hlive : Live t ℓ) :
    Does perform (logic Cpu strict) t (.setState q .runnable) ℓ fun _ ℓ' =>
      ℓ' = { ℓ with work := some (q, .held), child := none } := by
  refine does_setState hwork hcall hlive rfl nofun nofun (fun _ _ _ _ => .inl rfl) nofun (fun v c hs hz => ?_)
    (fun _ v c hs hu => ?_) (fun s g c hinv hg hs => ?_) fun s g c hinv hg hs => ?_
  · exact nomatch hs.1.symm.trans hz
  · exact nomatch hs.1.symm.trans hu
  · subst hg
    exact ⟨.inr hs.2.1, hs.2.2, fun _ => (hinv.children.used t q true hchild).2⟩
  · subst hg
    refine hinv.children.set (fun t' p b ht hc => ⟨?_, rfl⟩) nofun
    have hpq : p ≠ q := by
      rintro rfl
      exact ht (hinv.children.unique t' t p b true hc hchild)
    dsimp only
    rw [Function.update_of_ne hpq]
    exact (hinv.children.used t' p b hc).1

/-- `freeproc` gives the entry back. -/
theorem does_setUnused (st : ProcState) (n : Nat) (hwork : ℓ.work = some (q, .freeing st n)) (hn : 4 ≤ n)
    (hchild : st = .used → ℓ.child = some (q, false)) (hcall : ℓ.call = none) (hlive : Live t ℓ) :
    Does perform (logic Cpu strict) t (.setState q .unused) ℓ fun _ ℓ' =>
      ℓ' = { ℓ with work := some (q, .held), child := none } := by
  refine does_setState hwork hcall hlive rfl nofun nofun (fun v c hs ha => ?_) nofun (fun v c hs _ => ?_)
    (fun _ v c hs hu => ?_) (fun s g c hinv hg hs => ?_) fun s g c hinv hg hs => ?_
  · rw [hs.1] at ha
    rcases hs.2.1 with rfl | rfl <;> rcases ha with hx | hx | hx <;> exact nomatch hx
  · exact ⟨hs.2.2.2.1, hs.2.2.1.1⟩
  · rw [hs.1] at hu
    rcases hs.2.1 with rfl | rfl <;> exact nomatch hu
  · subst hg
    obtain ⟨-, hst, hvacant, hexited, hpid, hlinked, hkilled⟩ := hs
    refine ⟨hvacant, hexited, ?_, hpid (by omega), fun _ => hkilled hn⟩
    rcases hst with hst | hst
    · exact (hinv.children.used t q false (hchild hst)).2
    · exact hlinked (by omega) hst
  · subst hg
    refine hinv.children.set (fun t' p b ht hc => ⟨?_, rfl⟩) nofun
    have hpq : p ≠ q := by
      rintro rfl
      have hused := (hinv.children.used t' p b hc).1
      rw [show s.state p = st from hs.1] at hused
      exact ht (hinv.children.unique t' t p b false hc (hchild hused))
    dsimp only
    rw [Function.update_of_ne hpq]
    exact (hinv.children.used t' p b hc).1

/-- `fork` takes the lock of its child again. -/
theorem does_acquireChild {b : Bool} (hnone : ℓ.work = none) (hchild : ℓ.child = some (q, b)) (hlive : Live t ℓ) :
    Does perform (logic Cpu strict) t (.acquire (.proc q)) ℓ fun _ ℓ' =>
      ℓ' = { ℓ with locks := .proc q :: ℓ.locks, work := some (q, .kept) } := by
  refine rule_acquire hlive fun s g c hinv hg hm hfree => ⟨_, ?_, rfl⟩
  subst hg
  refine hinv.acquireProc hm hfree hnone (fun _ => rfl) nofun fun hrest => ?_
  have hst : (view s g q).state = .used := (hinv.children.used t q b hchild).1
  simp only [View.Rest, hst] at hrest
  exact ⟨hst, hrest.1, hrest.2⟩

end states

/-! ## Parents -/

omit [DecidableEq Cpu] in
/-- A step that changes one parent leaves the other entries as they are. -/
theorem view_setParent_of_ne {s : State Cpu} {g : Ghost Cpu} {p : Slot} {o : Option Slot} (hp : p ≠ q) :
    view { s with parent := Function.update s.parent q o } g p = view s g p := by
  simp [view, hp]

omit [DecidableEq Cpu] in
/-- The parent of an entry in use does not matter yet. -/
theorem View.Shape.link {v : View Cpu} {c : Cpu} {st : Stage} (h : v.Shape strict q c st)
    (hused : v.state = .used) (b : Bool) : ({ v with linked := b } : View Cpu).Shape strict q c st := by
  have hrest : v.Rest strict q → ({ v with linked := b } : View Cpu).Rest strict q := by
    simp only [View.Rest, hused]
    exact id
  cases st with
  | held => exact hrest h
  | named pid => exact ⟨hrest h.1, h.2⟩
  | chose => cases hused.symm.trans h.1
  | set => cases hused.symm.trans h.1
  | armed => cases hused.symm.trans h.1
  | back => exact ⟨h.1, hrest h.2⟩
  | mine => cases hused.symm.trans h.1
  | bound chan stored => cases hused.symm.trans h.1.1
  | dying status => cases hused.symm.trans h.1.1
  | leaving st =>
    obtain ⟨-, hst, ⟨rfl | rfl, -⟩ | ⟨rfl, -⟩⟩ := h <;> cases hused.symm.trans hst
  | free => cases hused.symm.trans h.1
  | numbered => cases hused.symm.trans h.1
  | new => exact h
  | kept => exact h
  | dead pid status => cases hused.symm.trans h.1
  | freeing st n =>
    obtain ⟨hst, h₁, h₂, h₃, h₄, -, h₆⟩ := h
    refine ⟨hst, h₁, h₂, h₃, h₄, fun _ hz => ?_, h₆⟩
    subst hz
    cases hused.symm.trans hst

/-- `fork` links its child to the process, which is running. -/
theorem does_link (hchild : ℓ.child = some (q, false)) (hlocks : ℓ.locks = [.wait]) (hi : ℓ.Ignorant)
    (hwake : ℓ.wake = none) (hcall : ℓ.call = none) (halive : ℓ.alive = true) :
    Does perform (logic Cpu strict) (.proc me) (.setParent q (some me)) ℓ fun _ ℓ' =>
      ℓ' = { ℓ with child := some (q, true) } := by
  refine rule_ok rfl (live_proc halive) fun s g c hinv hg hm => ?_
  subst hg
  have hkills := hinv.kills_eq hcall
  have hused := (hinv.children.used _ q false hchild).1
  have hrun : s.state me = .running := by
    refine hinv.core.running (hart_proc.1 hm.hart).1 fun hx => ?_
    have := (hinv.core.lock_iff hm _).1 hx
    rw [hlocks] at this
    simp at this
  have hview : view { s with parent := Function.update s.parent q (some me) } g q =
      { view s g q with linked := true } := by
    simp [view]
  have hpending : ∀ p chan, Pending { s with parent := Function.update s.parent q (some me) }
      (Function.update g (.proc me) { g (.proc me) with child := some (q, true) }) p chan →
      Pending s g p chan := fun p chan hp => hp.of_same rfl rfl rfl
  refine ⟨(), { s with parent := Function.update s.parent q (some me) },
    { g (.proc me) with child := some (q, true) }, rfl, ?_, ⟨?_, ?_, ?_, ?_, ?_, ?_⟩, rfl⟩
  · refine .write rfl hkills (fun p hz hnz => absurd hz hnz) (fun p hf ht => ?_) fun _ p hu hnu => absurd hu hnu
    rw [show s.killed p = true from ht] at hf
    cases hf
  · refine hinv.core.touch (q := q) hm ⟨rfl, rfl, rfl, rfl, rfl⟩ rfl rfl rfl rfl rfl rfl
      (fun p hp => view_setParent_of_ne hp) ?_ ?_
    · rw [hview]
      exact fun (hr : (view s g q).Shape strict q c .held) => hr.link hused true
    · rw [hview]
      exact fun c' st hs => hs.link hused true
  · refine ⟨fun p r hp => ?_, hinv.parents.init⟩
    dsimp only at hp ⊢
    by_cases hpq : p = q
    · subst hpq
      rw [Function.update_self] at hp
      cases hp
      exact .inr (.inl hrun)
    · rw [Function.update_of_ne hpq] at hp
      exact hinv.parents.alive p r hp
  · refine hinv.children.set (fun t' p b ht hc => ⟨(hinv.children.used t' p b hc).1, ?_⟩) fun p b hc => ?_
    · have hpq : p ≠ q := by
        rintro rfl
        exact ht (hinv.children.unique t' _ p b false hc hchild)
      dsimp only
      rw [Function.update_of_ne hpq]
    · cases hc
      refine ⟨hused, by simp, fun t' b' ht hc' => ?_⟩
      exact ht (hinv.children.unique t' _ q b' false hc' hchild)
  · exact hinv.waiting.link hinv.core (by simp [hlocks]) hused hi.parent hi.kid hi.seen hi.cleared
  · exact hinv.wakes.same ⟨rfl, rfl, rfl⟩ hpending rfl
  · exact hinv.kills.same rfl rfl

/-- `reparent` gives a child to init. -/
theorem does_adopt (hkid : ℓ.kid = some q) (hwait : .wait ∈ ℓ.locks) (hparent : ℓ.parent = none)
    (hseen : ℓ.seen = []) (hme : me ≠ init) (hcall : ℓ.call = none) (halive : ℓ.alive = true) :
    Does perform (logic Cpu strict) (.proc me) (.setParent q (some init)) ℓ fun _ ℓ' =>
      ℓ' = { ℓ with debt := true, kid := none, cleared := q :: ℓ.cleared } := by
  refine rule_ok rfl (live_proc halive) fun s g c hinv hg hm => ?_
  subst hg
  have hkills := hinv.kills_eq hcall
  have hold : s.parent q = some me := (hinv.waiting.knows _ hwait).kid me q rfl hkid
  have hsome : ∀ p, (Function.update s.parent q (some init) p).isSome = (s.parent p).isSome := by
    intro p
    by_cases hpq : p = q
    · subst hpq
      simp [hold]
    · rw [Function.update_of_ne hpq]
  have hpending : ∀ p chan, Pending { s with parent := Function.update s.parent q (some init) }
      (Function.update g (.proc me)
        { g (.proc me) with debt := true, kid := none, cleared := q :: (g (.proc me)).cleared }) p chan →
      Pending s g p chan := fun p chan hp => hp.of_same rfl rfl rfl
  refine ⟨(), { s with parent := Function.update s.parent q (some init) },
    { g (.proc me) with debt := true, kid := none, cleared := q :: (g (.proc me)).cleared },
    rfl, ?_, ⟨?_, ?_, ?_, ?_, ?_, ?_⟩, rfl⟩
  · refine .write rfl hkills (fun p hz hnz => absurd hz hnz) (fun p hf ht => ?_) fun _ p hu hnu => absurd hu hnu
    rw [show s.killed p = true from ht] at hf
    exact nomatch hf
  · refine hinv.core.same hm ⟨rfl, rfl, rfl, rfl, rfl⟩ rfl rfl rfl rfl rfl rfl fun p => ?_
    simp only [view, hsome]
  · refine ⟨fun p r hp => ?_, hinv.parents.init⟩
    dsimp only at hp ⊢
    by_cases hpq : p = q
    · subst hpq
      rw [Function.update_self] at hp
      cases hp
      exact hinv.parents.init
    · rw [Function.update_of_ne hpq] at hp
      exact hinv.parents.alive p r hp
  · refine hinv.children.keep (fun t' => ?_) fun t' p b hc => ⟨(hinv.children.used t' p b hc).1, hsome p⟩
    by_cases ht : t' = .proc me
    · rw [ht, Function.update_self]
    · rw [Function.update_of_ne ht]
  · exact hinv.waiting.adopt hinv.core hwait rfl hme hparent hseen
  · exact hinv.wakes.same ⟨rfl, rfl, rfl⟩ hpending rfl
  · exact hinv.kills.same rfl rfl

/-- `freeproc` removes the parent. -/
theorem does_unlink (st : ProcState) (hwork : ℓ.work = some (q, .freeing st 1))
    (hchild : st = .used → ℓ.child = some (q, false)) (hwait : st = .zombie → .wait ∈ ℓ.locks)
    (hkid : ℓ.kid = none) (hcall : ℓ.call = none) (hlive : Live t ℓ) :
    Does perform (logic Cpu strict) t (.setParent q none) ℓ fun _ ℓ' =>
      ℓ' = { ℓ with work := some (q, .freeing st 2) } := by
  refine rule_ok rfl hlive fun s g c hinv hg hm => ?_
  subst hg
  have hkills := hinv.kills_eq hcall
  obtain ⟨-, hst, hcase, hvacant, hexited, hpid, -, hkilled⟩ := hinv.core.own_shape hm hwork
  have hused : s.state q = .used → s.parent q = none := by
    intro hu
    rw [show s.state q = st from hst] at hu
    have hnone := (hinv.children.used t q false (hchild hu)).2
    rwa [Option.isSome_eq_false_iff, Option.isNone_iff_eq_none] at hnone
  have hview : view { s with parent := Function.update s.parent q none } g q =
      { view s g q with linked := false } := by
    simp [view]
  have hpending : ∀ p chan, Pending { s with parent := Function.update s.parent q none }
      (Function.update g t { g t with work := some (q, .freeing st 2) }) p chan → Pending s g p chan :=
    fun p chan hp => hp.of_update rfl rfl (by rintro _ _ ⟨⟩)
  refine ⟨(), { s with parent := Function.update s.parent q none },
    { g t with work := some (q, .freeing st 2) }, rfl, ?_, ⟨?_, ?_, ?_, ?_, ?_, ?_⟩, rfl⟩
  · refine .write rfl hkills (fun p hz hnz => absurd hz hnz) (fun p hf ht => ?_) fun _ p hu hnu => absurd hu hnu
    rw [show s.killed p = true from ht] at hf
    cases hf
  · refine hinv.core.change hm ⟨rfl, rfl, rfl, rfl, rfl⟩ rfl rfl
      (hinv.core.switching.keep_cproc rfl fun _ => by rw [hwork]; rfl) rfl rfl rfl hwork rfl
      (fun p hp => view_setParent_of_ne hp) ?_
    rw [hview]
    exact fun _ => ⟨hst, hcase, hvacant, hexited, fun _ => hpid (by omega), fun _ _ => rfl, by omega⟩
  · refine hinv.parents.keep (fun p r hp => ?_) fun p hp => hp
    dsimp only at hp
    by_cases hpq : p = q
    · subst hpq
      simp at hp
    · rwa [Function.update_of_ne hpq] at hp
  · refine hinv.children.keep (fun t' => ?_) fun t' p b hc => ⟨(hinv.children.used t' p b hc).1, ?_⟩
    · by_cases ht : t' = t
      · rw [ht, Function.update_self]
      · rw [Function.update_of_ne ht]
    · dsimp only
      by_cases hpq : p = q
      · subst hpq
        rw [hused (hinv.children.used t' p b hc).1, Function.update_self]
      · rw [Function.update_of_ne hpq]
  · refine hinv.waiting.unlink hinv.core hvacant.1 (fun hne => ?_) hkid rfl rfl (fun p => hpending p _) ⟨_, rfl⟩
    rcases hcase with hx | hx
    · exact absurd (hused (hst.trans hx)) hne
    · exact hwait hx
  · exact hinv.wakes.same ⟨rfl, rfl, rfl⟩ hpending rfl
  · exact hinv.kills.same rfl rfl

/-! ## Zombies -/

/-- A process exits with its children given away and its parent awake. -/
theorem does_becomeZombie {status : Int32} (hwork : ℓ.work = some (me, .dying status))
    (hwait : .wait ∈ ℓ.locks) (hme : me ≠ init) (hcleared : ∀ p, p ∈ ℓ.cleared)
    (hknown : ℓ.parent ≠ none) (hawake : ∀ q, ℓ.parent = some (some q) → ℓ.awake = some q)
    (hseen : ℓ.seen = []) (hcall : ℓ.call = none) (halive : ℓ.alive = true) :
    Does perform (logic Cpu strict) (.proc me) (.becomeZombie status) ℓ fun _ ℓ' =>
      ℓ' = { ℓ with work := some (me, .leaving .zombie) } := by
  refine rule_ok rfl (live_proc halive) fun s g c hinv hg hm => ?_
  subst hg
  have hkills := hinv.kills_eq hcall
  obtain ⟨-, ⟨hrun, hloaded, hexited, hlinked⟩, hstatus⟩ := hinv.core.own_shape hm hwork
  have hrun' : s.state me = .running := hrun
  have hk := hinv.waiting.knows _ hwait
  have hview : view { s with
        state := Function.update s.state me .zombie
        exited := Function.update s.exited me (some (s.pid me, status)) } g me =
      { view s g me with state := .zombie, exited := some (s.pid me, status) } := by
    simp [view]
  have hpending : ∀ p chan, Pending { s with
        state := Function.update s.state me .zombie
        exited := Function.update s.exited me (some (s.pid me, status)) }
      (Function.update g (.proc me) { g (.proc me) with work := some (me, .leaving .zombie) }) p chan →
      Pending s g p chan := by
    intro p chan hp
    refine hp.of_sleeping (fun hsl => ?_) (by rintro _ _ ⟨⟩)
    dsimp only at hsl
    by_cases hpm : p = me
    · subst hpm
      simp at hsl
    · rw [Function.update_of_ne hpm] at hsl
      exact ⟨hsl, rfl⟩
  have hentry : EntryStep s { s with
      state := Function.update s.state me .zombie
      exited := Function.update s.exited me (some (s.pid me, status)) } me :=
    ⟨⟨rfl, rfl, rfl, rfl, rfl⟩, rfl, rfl, rfl, ⟨rfl, rfl, rfl⟩, rfl, fun p hp => by simp [hp]⟩
  refine ⟨(), { s with
      state := Function.update s.state me .zombie
      exited := Function.update s.exited me (some (s.pid me, status)) },
    { g (.proc me) with work := some (me, .leaving .zombie) }, rfl,
    ⟨by rintro _ ⟨⟩, ?_, by rintro _ _ _ ⟨⟩, ?_, ?_, ?_, by rintro _ ⟨⟩, ?_⟩, ⟨?_, ?_, ?_, ?_, ?_, ?_⟩, rfl⟩
  · exact fun _ _ => ⟨me, rfl, hexited⟩
  · intro p hz hnz
    by_cases hpm : p = me
    · subst hpm
      simp at hnz
    · dsimp only at hnz
      rw [Function.update_of_ne hpm] at hnz
      exact absurd hz hnz
  · intro p hf ht
    rw [show s.killed p = true from ht] at hf
    cases hf
  · intro pid n hx
    rw [hkills] at hx
    cases hx
  · intro _ p hu hnu
    by_cases hpm : p = me
    · subst hpm
      rw [hrun'] at hu
      cases hu
    · dsimp only at hnu
      rw [Function.update_of_ne hpm] at hnu
      exact absurd hu hnu
  · refine hinv.core.change hm hentry.placed rfl rfl (hinv.core.switching.keep_cproc rfl (by rintro ⟨_, ⟨⟩⟩)) rfl rfl rfl
      hwork rfl (fun p hp => hentry.view g hp) fun _ => ?_
    rw [hview]
    refine ⟨hloaded, rfl, .inr ⟨rfl, ?_, hlinked⟩⟩
    rw [← hstatus]
    rfl
  · refine ⟨fun p r hp => ?_, ?_⟩
    · have hr : r ≠ me := by
        rintro rfl
        exact hk.cleared r p rfl (hcleared p) hp
      dsimp only
      rw [Function.update_of_ne hr]
      exact hinv.parents.alive p r hp
    · dsimp only
      rw [Function.update_of_ne (Ne.symm hme)]
      exact hinv.parents.init
  · refine hinv.children.entry hentry fun hu => ?_
    rw [hrun'] at hu
    cases hu
  · refine hinv.waiting.exit hinv.core hwait rfl rfl (fun p hp => ?_) (fun p => hpending p _) hknown hawake hseen
      ⟨_, rfl⟩
    exact Function.update_of_ne hp _ _
  · exact hinv.wakes.same ⟨rfl, rfl, rfl⟩ hpending rfl
  · exact hinv.kills.same rfl rfl

/-- `wait` reaps a child. -/
theorem does_reap {pid status : Int32} (hwork : ℓ.work = some (q, .dead (some pid) (some status)))
    (hkid : ℓ.kid = some q) (hwait : .wait ∈ ℓ.locks) (hcall : ℓ.call = none) (halive : ℓ.alive = true) :
    Does perform (logic Cpu strict) (.proc me) (.reap q pid status) ℓ fun _ ℓ' =>
      ℓ' = { ℓ with work := some (q, .freeing .zombie 0), kid := none } := by
  refine rule_ok rfl (live_proc halive) fun s g c hinv hg hm => ?_
  subst hg
  have hkills := hinv.kills_eq hcall
  obtain ⟨-, hzombie, hrest, hpid, hstatus⟩ := hinv.core.own_shape hm hwork
  simp only [View.Rest, hzombie] at hrest
  obtain ⟨hvacant, hexited, -⟩ := hrest
  rw [hpid pid rfl, hstatus status rfl] at hexited
  have hview : view { s with exited := Function.update s.exited q none } g q =
      { view s g q with exited := none } := by
    simp [view]
  have hentry : EntryStep s { s with exited := Function.update s.exited q none } q :=
    ⟨⟨rfl, rfl, rfl, rfl, rfl⟩, rfl, rfl, rfl, ⟨rfl, rfl, rfl⟩, rfl, fun p hp => by simp [hp]⟩
  have hshape : (view { s with exited := Function.update s.exited q none } g q).Shape strict q c
      (.freeing .zombie 0) := by
    rw [hview]
    exact ⟨hzombie, .inr rfl, hvacant, rfl, by omega, by omega, by omega⟩
  have hinv₁ := hinv.entry_same hm hwork hentry rfl (by rintro ⟨_, ⟨⟩⟩) (fun _ => hshape) id id id
    fun chan hp => hp.of_update rfl rfl (by rintro _ _ ⟨⟩)
  have hm₁ : Moves { s with exited := Function.update s.exited q none }
      (Function.update g (.proc me) { g (.proc me) with work := some (q, .freeing .zombie 0) }) (.proc me) c :=
    ⟨hm.hart, by rw [Function.update_self]; exact live_proc halive⟩
  have hinv₂ := hinv₁.learn (ℓ := { g (.proc me) with work := some (q, .freeing .zombie 0), kid := none }) hm₁
    (by rw [Function.update_self]; exact ⟨rfl, rfl, rfl, rfl, rfl, rfl, rfl⟩) fun hk => by
      rw [Function.update_self] at hk
      exact ⟨hk.parent, by rintro _ _ _ ⟨⟩, hk.awake, hk.wake, hk.seen, hk.cleared⟩
  rw [Function.update_idem] at hinv₂
  refine ⟨(), { s with exited := Function.update s.exited q none },
    { g (.proc me) with work := some (q, .freeing .zombie 0), kid := none }, rfl,
    ⟨by rintro _ ⟨⟩, by rintro _ ⟨⟩, ?_, ?_, ?_, ?_, by rintro _ ⟨⟩, ?_⟩, hinv₂, rfl⟩
  · rintro p pid' status' ⟨⟩
    exact ⟨hzombie, hexited, me, rfl, (hinv.waiting.knows _ hwait).kid me q rfl hkid⟩
  · exact fun p hz hnz => absurd hz hnz
  · intro p hf ht
    rw [show s.killed p = true from ht] at hf
    cases hf
  · exact fun _ _ _ => .inl ⟨rfl, rfl, rfl, rfl, rfl, rfl⟩
  · exact fun _ p hu hnu => absurd hu hnu

end Xv6.Ptable
