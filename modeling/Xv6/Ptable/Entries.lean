import Xv6.Ptable.Steps

/-!
# Entries

The rules for the operations on the entry of a process whose lock the thread holds. The stage
of the thread says what the entry looks like before and after.
-/
namespace Xv6.Ptable

open Xv6.Library Xv6.Library.Thread Xv6.Source.Ptable

variable {Cpu : Type} [DecidableEq Cpu] {strict : Prop} {t : Thread Cpu} {ℓ : Local} {q : Slot}
  {st st' : Stage}

/-- Only the entry of process `q` changes, and not its parent. -/
structure EntryStep (s s' : State Cpu) (q : Slot) : Prop where
  placed : Placed s s'
  lock : s'.lock = s.lock
  noff : s'.noff = s.noff
  parent : s'.parent = s.parent
  unwoken : Unwoken s s'
  kills : s'.kills = s.kills
  others : ∀ p, p ≠ q → s'.state p = s.state p ∧ s'.chan p = s.chan p ∧ s'.killed p = s.killed p ∧
    s'.xstate p = s.xstate p ∧ s'.pid p = s.pid p ∧ s'.ctx p = s.ctx p ∧ s'.exited p = s.exited p

omit [DecidableEq Cpu] in
theorem EntryStep.view {s s' : State Cpu} (h : EntryStep s s' q) (g : Ghost Cpu) {p : Slot} (hp : p ≠ q) :
    view s' g p = view s g p := by
  obtain ⟨h₁, h₂, h₃, h₄, h₅, h₆, h₇⟩ := h.others p hp
  simp only [Ptable.view, h₁, h₂, h₃, h₄, h₅, h₆, h₇, h.parent, h.placed.loc, h.placed.trapped]

omit [DecidableEq Cpu] in
theorem EntryStep.refl (s : State Cpu) (q : Slot) : EntryStep s s q :=
  ⟨.rfl, rfl, rfl, rfl, ⟨rfl, rfl, rfl⟩, rfl, fun _ _ => ⟨rfl, rfl, rfl, rfl, rfl, rfl, rfl⟩⟩

section change
variable {s s' : State Cpu} {g : Ghost Cpu} {c : Cpu} {child : Option (Slot × Bool)}

/-- The work of one thread on one entry keeps the rest of the invariant if nobody stops being
alive, nobody exits and nobody begins to sleep. -/
theorem Inv.entry (hinv : Inv strict s g) (hm : Moves s g t c) (hold : (g t).work = some (q, st))
    (hs : EntryStep s s' q)
    (hcproc : ∀ c', s'.cproc c' = assigned (Function.update g t
      { g t with work := some (q, st'), child := child } (.sched c')).work)
    (hshape : (view s g q).Shape strict q c st → (view s' g q).Shape strict q c st')
    (halive : Alive (s.state q) → Alive (s'.state q)) (hzombie : s'.state q = .zombie → s.state q = .zombie)
    (hpending : ∀ chan, Pending s' (Function.update g t { g t with work := some (q, st'), child := child })
      q chan → Pending s g q chan)
    (hchildren : Children s' (Function.update g t { g t with work := some (q, st'), child := child })) :
    Inv strict s' (Function.update g t { g t with work := some (q, st'), child := child }) := by
  have hpend : ∀ p chan, Pending s' (Function.update g t { g t with work := some (q, st'), child := child })
      p chan → Pending s g p chan := by
    intro p chan hp
    by_cases hpq : p = q
    · subst hpq
      exact hpending chan hp
    · obtain ⟨h₁, h₂, -⟩ := hs.others p hpq
      refine hp.of_update h₁ h₂ fun _ b hb => ?_
      cases hb
      exact absurd rfl hpq
  have hsettled : Settled s g s' (Function.update g t { g t with work := some (q, st'), child := child }) := by
    refine ⟨hs.parent, fun p hz => ?_, fun p => hpend p _⟩
    by_cases hpq : p = q
    · subst hpq
      exact hzombie hz
    · rwa [(hs.others p hpq).1] at hz
  refine ⟨?_, ?_, hchildren, ?_, ?_, ?_⟩
  · exact hinv.core.change hm hs.placed hs.lock hs.noff hcproc rfl rfl rfl hold rfl
      (fun p hp => hs.view g hp) hshape
  · refine hinv.parents.keep (fun p r hp => by rwa [hs.parent] at hp) fun p hp => ?_
    by_cases hpq : p = q
    · subst hpq
      exact halive hp
    · rwa [(hs.others p hpq).1]
  · exact hinv.waiting.keep hsettled id (fun _ hk => hk.keep hsettled rfl rfl rfl rfl rfl rfl)
      fun hx hd => ⟨hx, hd⟩
  · exact hinv.wakes.same hs.unwoken hpend rfl
  · exact hinv.kills.same hs.kills rfl

/-- The children stay in use. -/
theorem Children.entry (h : Children s g) (hs : EntryStep s s' q)
    (hused : s.state q = .used → s'.state q = .used) :
    Children s' (Function.update g t { g t with work := some (q, st') }) := by
  refine h.keep (fun t' => ?_) fun t' p b hc => ⟨?_, by rw [hs.parent]⟩
  · by_cases ht : t' = t
    · rw [ht, Function.update_self]
    · rw [Function.update_of_ne ht]
  · by_cases hpq : p = q
    · subst hpq
      exact hused (h.used t' p b hc).1
    · rw [(hs.others p hpq).1]
      exact (h.used t' p b hc).1

theorem Inv.entry_same (hinv : Inv strict s g) (hm : Moves s g t c) (hold : (g t).work = some (q, st))
    (hs : EntryStep s s' q) (hcproc : s'.cproc = s.cproc)
    (hassigned : (∃ c', t = .sched c') → assigned (some (q, st')) = assigned (some (q, st)))
    (hshape : (view s g q).Shape strict q c st → (view s' g q).Shape strict q c st')
    (halive : Alive (s.state q) → Alive (s'.state q)) (hzombie : s'.state q = .zombie → s.state q = .zombie)
    (hused : s.state q = .used → s'.state q = .used)
    (hpending : ∀ chan, Pending s' (Function.update g t { g t with work := some (q, st') }) q chan →
      Pending s g q chan) :
    Inv strict s' (Function.update g t { g t with work := some (q, st') }) :=
  hinv.entry hm hold hs (hinv.core.switching.keep_cproc hcproc fun hx => by rw [hold]; exact hassigned hx)
    hshape halive hzombie hpending (hinv.children.entry hs hused)

end change

variable {op : Op}

/-! ## Reading and writing -/

/-- The thread reads the entry. -/
theorem does_read (op : Op) (hop : onCpu op = true) (hsp : special op = false) (f : State Cpu → Ret op)
    (hexec : ∀ s c, stepOn t c op s = .ok (f s, s)) (st' : Ret op → Stage) (hwork : ℓ.work = some (q, st))
    (hassigned : ∀ r, assigned (some (q, st' r)) = assigned (some (q, st)))
    (hbound : ∀ r chan b, st' r ≠ .bound chan b)
    (hshape : ∀ (s : State Cpu) g c, (view s g q).Shape strict q c st →
      (view s g q).Shape strict q c (st' (f s))) (hlive : Live t ℓ) :
    Does perform (logic Cpu strict) t op ℓ fun r ℓ' => ℓ' = { ℓ with work := some (q, st' r) } := by
  refine rule_ok hop hlive fun s g c hinv hg hm => ?_
  subst hg
  refine ⟨f s, s, { g t with work := some (q, st' (f s)) }, hexec s c, .same hsp .rfl, ?_, rfl⟩
  refine hinv.entry_same hm hwork (.refl s q) rfl (fun _ => hassigned _) (hshape s g c) id id id
    fun chan hp => hp.of_update rfl rfl fun _ b hb => ?_
  exact absurd (congrArg Prod.snd (Option.some.inj hb)) (hbound (f s) chan b)

theorem does_peek (op : Op) (q : Slot) (st : Stage) (hop : onCpu op = true) (hsp : special op = false) (f : State Cpu → Ret op)
    (hexec : ∀ s c, stepOn t c op s = .ok (f s, s)) (hwork : ℓ.work = some (q, st))
    (hbound : ∀ chan b, st ≠ .bound chan b) (hlive : Live t ℓ) :
    Does perform (logic Cpu strict) t op ℓ fun _ ℓ' => ℓ' = ℓ := by
  refine (does_read op hop hsp f hexec (fun _ => st) hwork (fun _ => rfl) (fun _ => hbound) (fun _ _ _ => id)
    hlive).mono ?_
  rintro _ _ rfl
  rw [← hwork]

/-- The thread writes to the entry, and leaves the state alone. -/
theorem does_write (hop : onCpu op = true) (hsp : special op = false) (r : Ret op)
    (upd : State Cpu → State Cpu) (hexec : ∀ s c, stepOn t c op s = .ok (r, upd s))
    (hentry : ∀ s, EntryStep s (upd s) q) (hstate : ∀ s, (upd s).state = s.state)
    (hcproc : ∀ s, (upd s).cproc = s.cproc) (hwork : ℓ.work = some (q, st))
    (hassigned : assigned (some (q, st')) = assigned (some (q, st)))
    (hbound : ∀ chan b, st' = .bound chan b → ∃ b', st = .bound chan b')
    (hshape : ∀ (s : State Cpu) g c, (view s g q).Shape strict q c st →
      (view (upd s) g q).Shape strict q c st')
    (hchan : ∀ (s : State Cpu) g c, (view s g q).Shape strict q c st →
      (upd s).chan q = s.chan q ∨ s.state q ≠ .sleeping)
    (hkilled : ∀ s p, s.killed p = false → (upd s).killed p = true → t = .proc p ∧ op = .setKilled p true)
    (hcall : ℓ.call = none) (hlive : Live t ℓ) :
    Does perform (logic Cpu strict) t op ℓ fun _ ℓ' => ℓ' = { ℓ with work := some (q, st') } := by
  refine rule_ok hop hlive fun s g c hinv hg hm => ?_
  subst hg
  have hkills := hinv.kills_eq hcall
  refine ⟨r, upd s, { g t with work := some (q, st') }, hexec s c, ?_, ?_, rfl⟩
  · refine .write hsp hkills (fun p hz hnz => ?_) (hkilled s) fun _ p hu hnu => ?_
    · rw [hstate] at hnz
      exact absurd hz hnz
    · rw [hstate] at hnu
      exact absurd hu hnu
  · refine hinv.entry_same hm hwork (hentry s) (hcproc s) (fun _ => hassigned) (hshape s g c) ?_ ?_ ?_ ?_
    · rw [hstate]
      exact id
    · rw [hstate]
      exact id
    · rw [hstate]
      exact id
    · intro chan hp
      refine hp.of_sleeping (fun hsl => ?_) fun _ b hb => ?_
      · rw [hstate] at hsl
        exact ⟨hsl, (hchan s g c (hinv.core.own_shape hm hwork).2).resolve_right fun hx => hx hsl⟩
      · obtain ⟨b', hb'⟩ := hbound chan b (congrArg Prod.snd (Option.some.inj hb))
        exact ⟨b', by rw [hwork, hb']⟩

section fields
variable (st st') (hwork : ℓ.work = some (q, st)) (hassigned : assigned (some (q, st')) = assigned (some (q, st)))
  (hcall : ℓ.call = none) (hlive : Live t ℓ)
include hwork hassigned hcall hlive

/-- The thread writes a field of the entry that says neither its state nor whether it is killed. -/
theorem does_field (upd : State Cpu → State Cpu) (f : View Cpu → View Cpu) (hop : onCpu op = true)
    (hsp : special op = false) (r : Ret op) (hexec : ∀ s c, stepOn t c op s = .ok (r, upd s))
    (hentry : ∀ s, EntryStep s (upd s) q)
    (hsame : ∀ s, (upd s).state = s.state ∧ (upd s).cproc = s.cproc ∧ (upd s).killed = s.killed)
    (hview : ∀ s g, view (upd s) g q = f (view s g q))
    (hbound : ∀ ch b, st' = .bound ch b → ∃ b', st = .bound ch b')
    (hchan : ∀ (v : View Cpu) c, v.Shape strict q c st → (f v).chan = v.chan ∨ v.state ≠ .sleeping)
    (hshape : ∀ (v : View Cpu) c, v.Shape strict q c st → (f v).Shape strict q c st') :
    Does perform (logic Cpu strict) t op ℓ fun _ ℓ' => ℓ' = { ℓ with work := some (q, st') } := by
  refine does_write hop hsp r upd hexec hentry (fun s => (hsame s).1) (fun s => (hsame s).2.1) hwork hassigned hbound
    (fun s g c hs => ?_) (fun s g c hs => ?_) (fun s p hf ht => ?_) hcall hlive
  · rw [hview]
    exact hshape _ c hs
  · have hfield := congrArg View.chan (hview s g)
    rw [show (upd s).chan q = _ from hfield]
    exact hchan _ c hs
  · rw [(hsame s).2.2, hf] at ht
    cases ht

theorem does_setChan {chan : Chan} (hbound : ∀ ch b, st' = .bound ch b → ∃ b', st = .bound ch b')
    (hsleep : ∀ (v : View Cpu) c, v.Shape strict q c st → v.state ≠ .sleeping)
    (hshape : ∀ (v : View Cpu) c, v.Shape strict q c st →
      ({ v with chan := chan } : View Cpu).Shape strict q c st') :
    Does perform (logic Cpu strict) t (.setChan q chan) ℓ fun _ ℓ' => ℓ' = { ℓ with work := some (q, st') } :=
  does_field st st' hwork hassigned hcall hlive (fun s => { s with chan := Function.update s.chan q chan })
    (fun v => { v with chan := chan }) rfl rfl () (fun _ _ => rfl)
    (fun s => ⟨⟨rfl, rfl, rfl, rfl, rfl⟩, rfl, rfl, rfl, ⟨rfl, rfl, rfl⟩, rfl, fun p hp => by simp [hp]⟩)
    (fun _ => ⟨rfl, rfl, rfl⟩) (fun s g => by simp [view]) hbound (fun v c hs => .inr (hsleep v c hs)) hshape

variable (hbound : ∀ ch b, st' ≠ .bound ch b)
include hbound

theorem does_setPid {pid : Int32} (hshape : ∀ (v : View Cpu) c, v.Shape strict q c st →
      ({ v with pid := pid } : View Cpu).Shape strict q c st') :
    Does perform (logic Cpu strict) t (.setPid q pid) ℓ fun _ ℓ' => ℓ' = { ℓ with work := some (q, st') } :=
  does_field st st' hwork hassigned hcall hlive (fun s => { s with pid := Function.update s.pid q pid })
    (fun v => { v with pid := pid }) rfl rfl () (fun _ _ => rfl)
    (fun s => ⟨⟨rfl, rfl, rfl, rfl, rfl⟩, rfl, rfl, rfl, ⟨rfl, rfl, rfl⟩, rfl, fun p hp => by simp [hp]⟩)
    (fun _ => ⟨rfl, rfl, rfl⟩) (fun s g => by simp [view]) (fun ch b hx => absurd hx (hbound ch b))
    (fun _ _ _ => .inl rfl) hshape

theorem does_setXstate {status : Int32} (hshape : ∀ (v : View Cpu) c, v.Shape strict q c st →
      ({ v with xstate := status } : View Cpu).Shape strict q c st') :
    Does perform (logic Cpu strict) t (.setXstate q status) ℓ fun _ ℓ' =>
      ℓ' = { ℓ with work := some (q, st') } :=
  does_field st st' hwork hassigned hcall hlive (fun s => { s with xstate := Function.update s.xstate q status })
    (fun v => { v with xstate := status }) rfl rfl () (fun _ _ => rfl)
    (fun s => ⟨⟨rfl, rfl, rfl, rfl, rfl⟩, rfl, rfl, rfl, ⟨rfl, rfl, rfl⟩, rfl, fun p hp => by simp [hp]⟩)
    (fun _ => ⟨rfl, rfl, rfl⟩) (fun s g => by simp [view]) (fun ch b hx => absurd hx (hbound ch b))
    (fun _ _ _ => .inl rfl) hshape

/-- Only the process itself marks itself in this way. -/
theorem does_setKilled {k : Bool} (hk : k = true → t = .proc q)
    (hshape : ∀ (v : View Cpu) c, v.Shape strict q c st →
      ({ v with killed := k } : View Cpu).Shape strict q c st') :
    Does perform (logic Cpu strict) t (.setKilled q k) ℓ fun _ ℓ' => ℓ' = { ℓ with work := some (q, st') } := by
  refine does_write rfl rfl () (fun s => { s with killed := Function.update s.killed q k }) (fun _ _ => rfl)
    (fun s => ⟨⟨rfl, rfl, rfl, rfl, rfl⟩, rfl, rfl, rfl, ⟨rfl, rfl, rfl⟩, rfl, fun p hp => by simp [hp]⟩)
    (fun _ => rfl) (fun _ => rfl) hwork hassigned (fun ch b hx => absurd hx (hbound ch b))
    (fun s g c hs => ?_) (fun _ _ _ _ => .inl rfl) (fun s p hf ht => ?_) hcall hlive
  · have hv : view { s with killed := Function.update s.killed q k } g q =
        { view s g q with killed := k } := by
      simp [view]
    rw [hv]
    exact hshape _ c hs
  · dsimp only at ht
    by_cases hpq : p = q
    · subst hpq
      rw [Function.update_self] at ht
      subst ht
      exact ⟨hk rfl, rfl⟩
    · rw [Function.update_of_ne hpq, hf] at ht
      cases ht

theorem does_makeCtx (hshape : ∀ (v : View Cpu) c, v.Shape strict q c st →
      ({ v with ctx := .forkret } : View Cpu).Shape strict q c st') :
    Does perform (logic Cpu strict) t (.makeCtx q) ℓ fun _ ℓ' => ℓ' = { ℓ with work := some (q, st') } :=
  does_field st st' hwork hassigned hcall hlive (fun s => { s with ctx := Function.update s.ctx q .forkret })
    (fun v => { v with ctx := .forkret }) rfl rfl () (fun _ _ => rfl)
    (fun s => ⟨⟨rfl, rfl, rfl, rfl, rfl⟩, rfl, rfl, rfl, ⟨rfl, rfl, rfl⟩, rfl, fun p hp => by simp [hp]⟩)
    (fun _ => ⟨rfl, rfl, rfl⟩) (fun s g => by simp [view]) (fun ch b hx => absurd hx (hbound ch b))
    (fun _ _ _ => .inl rfl) hshape

end fields

/-! ## The state of a process -/

section states
variable {stt : ProcState} {child : Option (Slot × Bool)}

/-- The thread changes the state of the process. -/
theorem does_setState (hwork : ℓ.work = some (q, st)) (hcall : ℓ.call = none) (hlive : Live t ℓ)
    (hassigned : assigned (some (q, st')) = assigned (some (q, st)))
    (hzombie : stt ≠ .zombie) (hbound : ∀ ch b, st' ≠ .bound ch b)
    (halive : ∀ (v : View Cpu) c, v.Shape strict q c st → Alive v.state → Alive stt)
    (hsleep : stt = .sleeping → t = .proc q ∧ ∃ chan, st = .bound chan true)
    (hfreed : ∀ (v : View Cpu) c, v.Shape strict q c st → v.state = .zombie → v.exited = none ∧ v.loc = none)
    (hborn : strict → ∀ (v : View Cpu) c, v.Shape strict q c st → v.state = .unused → v.killed = false)
    (hshape : ∀ (s : State Cpu) g c, Inv strict s g → g t = ℓ → (view s g q).Shape strict q c st →
      ({ view s g q with state := stt } : View Cpu).Shape strict q c st')
    (hchildren : ∀ (s : State Cpu) g c, Inv strict s g → g t = ℓ → (view s g q).Shape strict q c st →
      Children { s with state := Function.update s.state q stt }
        (Function.update g t { g t with work := some (q, st'), child := child })) :
    Does perform (logic Cpu strict) t (.setState q stt) ℓ fun _ ℓ' =>
      ℓ' = { ℓ with work := some (q, st'), child := child } := by
  refine rule_ok rfl hlive fun s g c hinv hg hm => ?_
  subst hg
  have hkills := hinv.kills_eq hcall
  have hold := (hinv.core.own_shape hm hwork).2
  refine ⟨(), { s with state := Function.update s.state q stt },
    { g t with work := some (q, st'), child := child }, rfl, ?_, ?_, rfl⟩
  · refine .write rfl hkills (fun p hz hnz => ?_) (fun p hf ht => ?_) fun hstrict p hu hnu => ?_
    · by_cases hpq : p = q
      · subst hpq
        exact hfreed _ c hold hz
      · dsimp only at hnz
        rw [Function.update_of_ne hpq] at hnz
        exact absurd hz hnz
    · rw [show s.killed p = true from ht] at hf
      exact nomatch hf
    · by_cases hpq : p = q
      · subst hpq
        exact hborn hstrict _ c hold hu
      · dsimp only at hnu
        rw [Function.update_of_ne hpq] at hnu
        exact absurd hu hnu
  · refine hinv.entry hm hwork ⟨⟨rfl, rfl, rfl, rfl, rfl⟩, rfl, rfl, rfl, ⟨rfl, rfl, rfl⟩, rfl,
      fun p hp => by simp [hp]⟩ (hinv.core.switching.keep_cproc rfl fun _ => by rw [hwork]; exact hassigned)
      (fun hs => ?_) (fun ha => ?_) (fun hz => ?_) (fun chan hp => ?_) (hchildren s g c hinv rfl hold)
    · have hv : view { s with state := Function.update s.state q stt } g q =
          { view s g q with state := stt } := by
        simp [view]
      rw [hv]
      exact hshape s g c hinv rfl hs
    · dsimp only
      rw [Function.update_self]
      exact halive _ c hold ha
    · dsimp only at hz
      rw [Function.update_self] at hz
      exact absurd hz hzombie
    · rcases hp with ⟨hsl, hch⟩ | ⟨b, hb⟩
      · dsimp only at hsl hch
        rw [Function.update_self] at hsl
        obtain ⟨rfl, ch, rfl⟩ := hsleep hsl
        have hstored : s.chan q = ch := hold.2 rfl
        exact .inr ⟨true, by rw [hwork, ← hch, hstored]⟩
      · refine .inr ⟨b, ?_⟩
        by_cases ht : .proc q = t
        · rw [ht, Function.update_self] at hb
          exact absurd (congrArg Prod.snd (Option.some.inj hb)) (hbound chan b)
        · rwa [Function.update_of_ne ht] at hb

/-- A change of state that concerns no `fork`. -/
theorem does_setState_same (hwork : ℓ.work = some (q, st)) (hcall : ℓ.call = none) (hlive : Live t ℓ)
    (hassigned : assigned (some (q, st')) = assigned (some (q, st)))
    (hzombie : stt ≠ .zombie) (hbound : ∀ ch b, st' ≠ .bound ch b)
    (halive : ∀ (v : View Cpu) c, v.Shape strict q c st → Alive v.state ∧ Alive stt)
    (hsleep : stt = .sleeping → t = .proc q ∧ ∃ chan, st = .bound chan true)
    (hshape : ∀ (v : View Cpu) c, v.Shape strict q c st →
      ({ v with state := stt } : View Cpu).Shape strict q c st') :
    Does perform (logic Cpu strict) t (.setState q stt) ℓ fun _ ℓ' => ℓ' = { ℓ with work := some (q, st') } := by
  refine does_setState hwork hcall hlive hassigned hzombie hbound (fun v c hs _ => (halive v c hs).2) hsleep
    (fun v c hs hz => ?_) (fun _ v c hs hu => ?_) (fun s g c _ _ hs => hshape _ c hs) fun s g c hinv hg hs => ?_
  · rcases (halive v c hs).1 with hx | hx | hx <;> exact nomatch hz.symm.trans hx
  · rcases (halive v c hs).1 with hx | hx | hx <;> exact nomatch hu.symm.trans hx
  · subst hg
    refine hinv.children.entry ⟨⟨rfl, rfl, rfl, rfl, rfl⟩, rfl, rfl, rfl, ⟨rfl, rfl, rfl⟩, rfl,
      fun p hp => by simp [hp]⟩ fun hu => ?_
    rcases (halive _ c hs).1 with hx | hx | hx <;> exact nomatch hu.symm.trans hx

end states

end Xv6.Ptable
