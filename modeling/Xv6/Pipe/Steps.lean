import Xv6.Pipe.Stream

/-!
# The steps of the pipe code

One rule for each operation: what the process must know before it, and what it knows after.
-/
namespace Xv6.Pipe

open Xv6.Library.Thread Xv6.Source.Pipe

variable {m : Mode} {t : Slot} {ℓ : Local}

/-- The invariant part by part. -/
theorem rule {op : Op} {post : Ret op → Local → Prop}
    (h : ∀ s g, Locks s g → (m.sleepers → Sleepers s g) → (m.stream → Stream s g) → g t = ℓ →
      (m.sleepers → Announced t op s) → perform t op s = .blocked ∨
      ∃ r s' ℓ', perform t op s = .ok (r, s') ∧ (m.stream → EndOfStream op s) ∧
        Locks s' (Function.update g t ℓ') ∧
        (m.sleepers → Sleepers s' (Function.update g t ℓ')) ∧
        (m.stream → Stream s' (Function.update g t ℓ')) ∧ post r ℓ') :
    Does perform (logic m) t op ℓ post := by
  refine Does.local (fun _ _ => rfl) fun s g hinv hg hguard => ?_
  rcases h s g hinv.1 hinv.2.1 hinv.2.2 hg hguard with hb | ⟨r, s', ℓ', hok, hend, hl, hs, hst, hp⟩
  · exact Or.inl hb
  · exact Or.inr ⟨r, s', ℓ', hok, hend, ⟨hl, hs, hst⟩, hp⟩

/-- The operation does not return from `piperead`. -/
theorem EndOfStream.other {op : Op} {s : State} (h : ∀ n got, op ≠ .report n got) : EndOfStream op s :=
  fun n heq => absurd heq (h n [])

theorem unsaid_same {s s' : State} {g : Ghost} (h : Sleepers s g) (heq : s'.unsaid = s.unsaid) :
    s'.unsaid = Function.update s.unsaid t (g t).unsaid := by
  rw [heq, ← h.unsaid t, Function.update_eq_self]

section same
variable {s s' : State} {g : Ghost}

/-- A step that nobody else can notice leaves the sleepers as they are. -/
theorem Sleepers.quiet (h : Sleepers s g) (hfields : s'.fields = s.fields)
    (hstate : s'.state = s.state) (hunsaid : s'.unsaid = Function.update s.unsaid t ℓ.unsaid)
    (hheld : ℓ.held = (g t).held) (hplock : ℓ.plock = (g t).plock)
    (hwaits : ℓ.waits = (g t).waits) (howes : ℓ.owes = (g t).owes) (hseen : ℓ.seen = (g t).seen) :
    Sleepers s' (Function.update g t ℓ) := by
  have hw : ∀ p, (Function.update g t ℓ p).waits = (g p).waits := by
    intro p
    by_cases hpt : p = t
    · subst hpt
      rw [Function.update_self, hwaits]
    · rw [Function.update_of_ne hpt]
  have hp : ∀ p, (Function.update g t ℓ p).plock = (g p).plock := by
    intro p
    by_cases hpt : p = t
    · subst hpt
      rw [Function.update_self, hplock]
    · rw [Function.update_of_ne hpt]
  refine h.same hfields hunsaid hheld howes (fun p c hpc => ?_) (fun p c hpc => ?_) ?_ ?_
  · rwa [Waits, hstate, hw, hp] at hpc
  · rw [hw]
    exact h.waits p c (hstate ▸ hpc)
  · rw [hwaits, hheld]
    exact h.apart t
  · intro c p hmem
    exact Or.inl (hseen ▸ hmem)

end same

/-! ## The pipe's lock -/

theorem does_acquire (hheld : ℓ.held = none) (hw : ℓ.waits = none) :
    Does perform (logic m) t .acquire ℓ fun _ ℓ' =>
      ∃ f, ℓ' = { ℓ with held := some f, seen := fun _ => [] } := by
  refine rule fun s g hl hs hst hg _ => ?_
  subst hg
  cases hlock : s.lock with
  | some u =>
    have hut : u ≠ t := fun h => (hl.lock t).mp (h ▸ hlock) hheld
    exact Or.inl (by simp [perform, hlock, hut])
  | none =>
    refine Or.inr ⟨(), { s with lock := some t }, { g t with held := some s.fields, seen := fun _ => [] },
      by simp [perform, hlock], fun _ => .other (by simp), ?_, fun hm => ?_, fun hm => ?_, ⟨_, rfl⟩⟩
    · exact hl.setLock (Or.inl hlock) rfl rfl rfl (Or.inl ⟨rfl, rfl⟩)
    · exact (hs hm).acquire (hl.free hlock) hw
    · exact (hst hm).same hl ⟨rfl, rfl, rfl, rfl, rfl, rfl⟩ rfl rfl
        (Or.inr ⟨Or.inl hlock, (hst hm).quiet t hheld⟩)

/-- The wakeups that are owed have been made. -/
def Local.Paid (t : Slot) (ℓ : Local) : Prop :=
  ∀ c, ℓ.owes c = true → ∀ p, p ≠ t → p ∈ ℓ.seen c

theorem does_release {f : Fields} (hheld : ℓ.held = some f) (hpaid : m.sleepers → ℓ.Paid t)
    (hgot : m.stream → ℓ.got = []) (w : Option Chan) (hw : ∀ c, w = some c → Blocked f c) :
    Does perform (logic m) t .release ℓ fun _ ℓ' =>
      ℓ' = { ℓ with held := none, owes := fun _ => false, waits := w } := by
  refine rule fun s g hl hs hst hg _ => ?_
  subst hg
  have hsome : (g t).held ≠ none := by simp [hheld]
  have hlock : s.lock = some t := (hl.lock t).mpr hsome
  refine Or.inr ⟨(), { s with lock := none }, _, by simp [perform, hlock],
    fun _ => .other (by simp), ?_, fun hm => ?_, fun hm => ?_, rfl⟩
  · exact hl.setLock (Or.inr hlock) rfl rfl rfl (Or.inr ⟨rfl, rfl⟩)
  · refine (hs hm).release hl hsome (hpaid hm) fun c hc => ?_
    rw [← hl.fields t f hheld]
    exact hw c hc
  · exact (hst hm).same hl ⟨rfl, rfl, rfl, rfl, rfl, rfl⟩ rfl rfl (Or.inr ⟨Or.inr hlock, hgot hm⟩)

theorem does_peek {f : Fields} (hheld : ℓ.held = some f) :
    Does perform (logic m) t .peek ℓ fun r ℓ' => r = f ∧ ℓ' = ℓ := by
  refine rule fun s g hl hs hst hg _ => Or.inr ?_
  subst hg
  refine ⟨s.fields, s, g t, rfl, fun _ => .other (by simp), ?_, ?_, ?_,
    (hl.fields t f hheld).symm, rfl⟩
  all_goals rwa [Function.update_eq_self]

/-! ## The locks of processes -/

/-- The lock of a process changes hands; it is not taken by a process that waits. -/
theorem Sleepers.setPlock {s : State} {g : Ghost} {p : Slot} {o v : Option Slot} (h : Sleepers s g)
    (hv : v = none ∨ (g t).waits = none) :
    Sleepers { s with plock := Function.update s.plock p o } (Function.update g t { g t with plock := v }) := by
  refine h.same rfl (unsaid_same h rfl) rfl rfl (fun q c hq => ?_) (fun q c hq => ?_) ?_ ?_
  · by_cases hqt : q = t
    · subst hqt
      refine Or.inl ?_
      rcases hv with hv | hv
      · simpa [Waits, hv] using hq
      · simpa [Waits, hv] using hq
    · simpa [Waits, Function.update_of_ne hqt] using hq
  · have hold := h.waits q c hq
    by_cases hqt : q = t
    · subst hqt
      simpa using hold
    · simpa [Function.update_of_ne hqt] using hold
  · exact h.apart t
  · exact fun c q hq => Or.inl hq

theorem does_acquireProc (p : Slot) (hp : ℓ.plock = none) (hw : ℓ.waits = none) :
    Does perform (logic m) t (.acquireProc p) ℓ fun _ ℓ' => ℓ' = { ℓ with plock := some p } := by
  refine rule fun s g hl hs hst hg _ => ?_
  subst hg
  cases hlock : s.plock p with
  | some u =>
    have hut : u ≠ t := by
      rintro rfl
      exact nomatch hp.symm.trans ((hl.plock p u).mp hlock)
    exact Or.inl (by simp [perform, hlock, hut])
  | none =>
    refine Or.inr ⟨(), { s with plock := Function.update s.plock p (some t) },
      { g t with plock := some p }, by simp [perform, hlock],
      fun _ => .other (by simp), ?_, fun hm => (hs hm).setPlock (.inr hw), fun hm => ?_, rfl⟩
    · exact hl.setPlock rfl rfl rfl (Or.inl ⟨hp, hlock, rfl, rfl⟩)
    · exact (hst hm).same hl ⟨rfl, rfl, rfl, rfl, rfl, rfl⟩ rfl rfl (Or.inl ⟨rfl, Iff.rfl⟩)

/-- The lock of a process is given up, by `release` or by switching away. -/
theorem does_giveProc {op : Op} {p : Slot} (r : Ret op) (hp : ℓ.plock = some p)
    (hexec : ∀ s : State, s.plock p = some t →
      perform t op s = .ok (r, { s with plock := Function.update s.plock p none }))
    (hother : ∀ n got, op ≠ .report n got) :
    Does perform (logic m) t op ℓ fun _ ℓ' => ℓ' = { ℓ with plock := none } := by
  refine rule fun s g hl hs hst hg _ => Or.inr ?_
  subst hg
  refine ⟨r, _, { g t with plock := none }, hexec s ((hl.plock p t).mpr hp), fun _ => .other hother, ?_,
    fun hm => (hs hm).setPlock (.inl rfl), fun hm => ?_, rfl⟩
  · exact hl.setPlock rfl rfl rfl (Or.inr ⟨hp, rfl, rfl⟩)
  · exact (hst hm).same hl ⟨rfl, rfl, rfl, rfl, rfl, rfl⟩ rfl rfl (Or.inl ⟨rfl, Iff.rfl⟩)

theorem does_releaseProc {p : Slot} (hp : ℓ.plock = some p) :
    Does perform (logic m) t (.releaseProc p) ℓ fun _ ℓ' => ℓ' = { ℓ with plock := none } :=
  does_giveProc () hp (fun s hlock => by simp [perform, hlock]) (by simp)

theorem does_swtchOut (hp : ℓ.plock = some t) :
    Does perform (logic m) t .swtchOut ℓ fun _ ℓ' => ℓ' = { ℓ with plock := none } :=
  does_giveProc () hp (fun s hlock => by simp [perform, hlock]) (by simp)

/-- A process that is switched to has been woken and does not wait any more. -/
theorem does_swtchIn (hp : ℓ.plock = none) :
    Does perform (logic m) t .swtchIn ℓ fun _ ℓ' => ℓ' = { ℓ with plock := some t, waits := none } := by
  refine rule fun s g hl hs hst hg _ => ?_
  subst hg
  by_cases hrun : s.state t = .runnable ∧ s.plock t = none
  swap
  · exact Or.inl (by rw [perform, if_neg hrun])
  refine Or.inr ⟨(), _, { g t with plock := some t, waits := none }, by rw [perform, if_pos hrun],
    fun _ => .other (by simp), ?_, fun hm => ?_, fun hm => ?_, rfl⟩
  · exact hl.setPlock rfl rfl rfl (Or.inl ⟨hp, hrun.2, rfl, rfl⟩)
  · refine (hs hm).same rfl (unsaid_same (hs hm) rfl) rfl rfl (fun q c hq => ?_) (fun q c hq => ?_) ?_ ?_
    · by_cases hqt : q = t
      · subst hqt
        simp [Waits, hrun.1] at hq
      · simpa [Waits, Function.update_of_ne hqt] using hq
    · have hold := (hs hm).waits q c hq
      by_cases hqt : q = t
      · subst hqt
        cases hrun.1.symm.trans hq
      · simpa [Function.update_of_ne hqt] using hold
    · exact fun h => absurd rfl h
    · exact fun c q hq => Or.inl hq
  · exact (hst hm).same hl ⟨rfl, rfl, rfl, rfl, rfl, rfl⟩ rfl rfl (Or.inl ⟨rfl, Iff.rfl⟩)

theorem does_stuck {post : Unit → Local → Prop} : Does perform (logic m) t .stuck ℓ post :=
  rule fun _ _ _ _ _ _ _ => Or.inl rfl

/-! ## Sleeping and waking -/

/-- A step that only reads, or only changes what the ghost state says nothing about. -/
theorem does_read {op : Op} {post : Ret op → Local → Prop} (hop : ∀ n got, op ≠ .report n got)
    (h : ∀ s, (m.sleepers → Announced t op s ∧ s.unsaid t = ℓ.unsaid) → ∃ r s',
      perform t op s = .ok (r, s') ∧ s'.lock = s.lock ∧ s'.plock = s.plock ∧
      s'.fields = s.fields ∧ s'.state = s.state ∧ s'.unsaid = s.unsaid ∧ SameBytes s s' ∧
      post r ℓ) : Does perform (logic m) t op ℓ post := by
  refine rule fun s g hl hs hst hg hguard => Or.inr ?_
  subst hg
  obtain ⟨r, s', hok, hlock, hplock, hfields, hstate, hunsaid, hsame, hpost⟩ :=
    h s fun hm => ⟨hguard hm, (hs hm).unsaid t⟩
  refine ⟨r, s', g t, hok, fun _ => .other hop, ?_, fun hm => ?_, fun hm => ?_, hpost⟩
  · exact hl.same hlock hplock hfields rfl rfl
  · exact (hs hm).quiet hfields hstate (unsaid_same (hs hm) hunsaid) rfl rfl rfl rfl rfl
  · exact (hst hm).same hl hsame rfl rfl (Or.inl ⟨hlock, Iff.rfl⟩)

theorem does_pid (p : Slot) : Does perform (logic m) t (.pid p) ℓ fun _ ℓ' => ℓ' = ℓ :=
  does_read (by simp) fun s _ =>
    ⟨s.pid p, s, rfl, rfl, rfl, rfl, rfl, rfl, ⟨rfl, rfl, rfl, rfl, rfl, rfl⟩, rfl⟩

theorem does_setKilled (p : Slot) :
    Does perform (logic m) t (.setKilled p) ℓ fun _ ℓ' => ℓ' = ℓ :=
  does_read (by simp) fun s _ => ⟨(), { s with killed := Function.update s.killed p true }, rfl,
    rfl, rfl, rfl, rfl, rfl, ⟨rfl, rfl, rfl, rfl, rfl, rfl⟩, rfl⟩

theorem does_getKilled (p : Slot) :
    Does perform (logic m) t (.getKilled p) ℓ fun k ℓ' =>
      ℓ' = ℓ ∧ (m.sleepers → ℓ.unsaid = true → k = false) :=
  does_read (by simp) fun s hs =>
    ⟨s.killed p, s, rfl, rfl, rfl, rfl, rfl, rfl, ⟨rfl, rfl, rfl, rfl, rfl, rfl⟩, rfl,
      fun hm hunsaid => (hs hm).1 p rfl ((hs hm).2.trans hunsaid)⟩

theorem rouse_eq_sleeping {st : ProcState} {chan c : Chan} (h : st.rouse chan = .sleeping c) :
    st = .sleeping c ∧ c ≠ chan := by
  cases st with
  | runnable => exact nomatch h
  | sleeping d =>
    rw [ProcState.rouse] at h
    split at h
    · exact nomatch h
    · cases h
      exact ⟨rfl, by assumption⟩

/-- Another process is found not to wait on the channel, or made so. -/
theorem does_rouse {p : Slot} (hp : ℓ.plock = some p) (hpt : p ≠ t) (chan : Chan) :
    Does perform (logic m) t (.rouse p chan) ℓ fun _ ℓ' =>
      ℓ' = { ℓ with seen := Function.update ℓ.seen chan (p :: ℓ.seen chan) } := by
  refine rule fun s g hl hs hst hg _ => Or.inr ?_
  subst hg
  refine ⟨(), { s with state := Function.update s.state p ((s.state p).rouse chan) },
    { g t with seen := Function.update (g t).seen chan (p :: (g t).seen chan) }, rfl,
    fun _ => .other (by simp), hl.same rfl rfl rfl rfl rfl, fun hm => ?_, fun hm => ?_, rfl⟩
  · have hstate : ∀ q c, Function.update s.state p ((s.state p).rouse chan) q = .sleeping c →
        s.state q = .sleeping c ∧ (q = p → c ≠ chan) := by
      intro q c hq
      by_cases hqp : q = p
      · subst hqp
        rw [Function.update_self] at hq
        exact ⟨(rouse_eq_sleeping hq).1, fun _ => (rouse_eq_sleeping hq).2⟩
      · rw [Function.update_of_ne hqp] at hq
        exact ⟨hq, fun h => absurd h hqp⟩
    have hfree : (g p).plock ≠ some p := by
      intro hown
      have hmine := (hl.plock p t).mpr hp
      rw [(hl.plock p p).mpr hown] at hmine
      exact hpt (Option.some.inj hmine)
    refine (hs hm).same rfl (unsaid_same (hs hm) rfl) rfl rfl (fun q c hq => ?_) (fun q c hq => ?_)
      ((hs hm).apart t) (fun c q hq => ?_)
    · rcases hq with hq | hq
      · exact Or.inl (hstate q c hq).1
      · refine Or.inr ?_
        by_cases hqt : q = t
        · subst hqt
          simpa using hq
        · simpa [Function.update_of_ne hqt] using hq
    · have hold := (hs hm).waits q c (hstate q c hq).1
      by_cases hqt : q = t
      · subst hqt
        simpa using hold
      · simpa [Function.update_of_ne hqt] using hold
    · dsimp only at hq
      by_cases hc : c = chan
      · subst hc
        rw [Function.update_self] at hq
        rcases List.mem_cons.mp hq with rfl | hq
        · refine Or.inr ?_
          rintro (hw | ⟨-, hw⟩)
          · exact (hstate q c hw).2 rfl rfl
          · rw [Function.update_of_ne hpt] at hw
            exact hfree hw
        · exact Or.inl hq
      · rw [Function.update_of_ne hc] at hq
        exact Or.inl hq
  · exact (hst hm).same hl ⟨rfl, rfl, rfl, rfl, rfl, rfl⟩ rfl rfl (Or.inl ⟨rfl, Iff.rfl⟩)

/-- A step that changes the state of one process only, to one the ghost state allows. -/
theorem does_state {op : Op} (hop : ∀ n got, op ≠ .report n got) {p : Slot} {st : ProcState}
    {post : Ret op → Local → Prop} {r : Ret op}
    (hok : ∀ s, perform t op s = .ok (r, { s with state := Function.update s.state p st }))
    (hst : ∀ c, st = .sleeping c → p = t ∧ ℓ.waits = some c ∧ ℓ.plock = some t) (hpost : post r ℓ) :
    Does perform (logic m) t op ℓ post := by
  refine rule fun s g hl hs hstr hg _ => Or.inr ?_
  subst hg
  have hself : Function.update g t (g t) = g := Function.update_eq_self t g
  have hnew : ∀ q c, Function.update s.state p st q = .sleeping c → Waits s g q c := by
    intro q c hq
    by_cases hqp : q = p
    · subst hqp
      rw [Function.update_self] at hq
      obtain ⟨rfl, hw, hpl⟩ := hst c hq
      exact Or.inr ⟨hw, hpl⟩
    · rw [Function.update_of_ne hqp] at hq
      exact Or.inl hq
  refine ⟨r, _, g t, hok s, fun _ => .other hop, hl.same rfl rfl rfl rfl rfl, fun hm => ?_,
    fun hm => ?_, hpost⟩
  · refine (hs hm).same rfl (unsaid_same (hs hm) rfl) rfl rfl (fun q c hq => ?_) (fun q c hq => ?_)
      ((hs hm).apart t) (fun c q hq => Or.inl hq)
    · rw [hself] at hq
      rcases hq with hq | hq
      · exact hnew q c hq
      · exact Or.inr hq
    · rw [hself]
      rcases hnew q c hq with hq | hq
      · exact (hs hm).waits q c hq
      · exact hq.1
  · exact (hstr hm).same hl ⟨rfl, rfl, rfl, rfl, rfl, rfl⟩ rfl rfl (Or.inl ⟨rfl, Iff.rfl⟩)

theorem does_rouseAny (p : Slot) :
    Does perform (logic m) t (.rouseAny p) ℓ fun _ ℓ' => ℓ' = ℓ :=
  does_state (by simp) (fun _ => rfl) nofun rfl

theorem does_doze {chan : Chan} (hw : ℓ.waits = some chan) (hp : ℓ.plock = some t) :
    Does perform (logic m) t (.doze chan) ℓ fun _ ℓ' => ℓ' = ℓ := by
  refine does_state (by simp) (fun _ => rfl) (fun c hc => ?_) rfl
  cases hc
  exact ⟨rfl, hw, hp⟩

/-! ## The pipe -/

theorem does_begin (src : Nat → Option UInt8) :
    Does perform (logic m) t (.begin src) ℓ fun c ℓ' => ℓ' = { ℓ with call := some (c, src, 0) } := by
  refine rule fun s g hl hs hst hg _ => Or.inr ?_
  subst hg
  refine ⟨s.calls.length, _, _, rfl, fun _ => .other (by simp), ?_, fun hm => ?_,
    fun hm => (hst hm).begin src, rfl⟩
  · exact hl.same rfl rfl rfl rfl rfl
  · exact (hs hm).quiet rfl rfl (unsaid_same (hs hm) rfl) rfl rfl rfl rfl rfl

theorem does_said :
    Does perform (logic m) t .said ℓ fun _ ℓ' => ℓ' = { ℓ with unsaid := false } := by
  refine rule fun s g hl hs hst hg _ => Or.inr ?_
  subst hg
  refine ⟨(), _, { g t with unsaid := false }, rfl, fun _ => .other (by simp), ?_, fun hm => ?_,
    fun hm => ?_, rfl⟩
  · exact hl.same rfl rfl rfl rfl rfl
  · exact (hs hm).quiet rfl rfl rfl rfl rfl rfl rfl rfl
  · exact (hst hm).same hl ⟨rfl, rfl, rfl, rfl, rfl, rfl⟩ rfl rfl (Or.inl ⟨rfl, Iff.rfl⟩)

theorem does_put {f : Fields} (hheld : ℓ.held = some f)
    (hroom : f.nwrite ≠ f.nread + BitVec.ofNat 32 PIPESIZE) (howes : ℓ.owes .nwrite = false)
    {c i : Nat} {src : Nat → Option UInt8} {ch : UInt8} (hcall : ℓ.call = some (c, src, i))
    (hsrc : src i = some ch) :
    Does perform (logic m) t (.put c i ch) ℓ fun _ ℓ' =>
      ℓ' = { ℓ with
        held := some { f with nwrite := f.nwrite + 1 }
        owes := Function.update ℓ.owes .nread true
        unsaid := true
        call := some (c, src, i + 1) } := by
  refine rule fun s g hl hs hst hg _ => Or.inr ?_
  subst hg
  have hsome : (g t).held ≠ none := by simp [hheld]
  have hf := hl.fields t f hheld
  subst hf
  refine ⟨(), _, _, rfl, fun _ => .other (by simp), ?_, fun hm => ?_, fun hm => ?_, rfl⟩
  · exact hl.change hsome rfl rfl rfl rfl
  · refine (hs hm).change hsome rfl rfl (by simp) rfl rfl rfl fun d hd => ?_
    cases d with
    | nread => simp at hd
    | nwrite => exact ⟨howes, fun hblocked => absurd hblocked.1 hroom⟩
  · exact (hst hm).put hl hsome hroom hcall hsrc rfl rfl rfl rfl rfl rfl (by simp) rfl rfl

theorem does_take {f : Fields} (hheld : ℓ.held = some f) (hne : f.nread ≠ f.nwrite)
    (howes : ℓ.owes .nread = false) :
    Does perform (logic m) t .take ℓ fun ch ℓ' =>
      ℓ' = { ℓ with
        held := some { f with nread := f.nread + 1 }
        owes := Function.update ℓ.owes .nwrite true
        got := ℓ.got ++ [ch] } := by
  refine rule fun s g hl hs hst hg _ => Or.inr ?_
  subst hg
  have hsome : (g t).held ≠ none := by simp [hheld]
  have hf := hl.fields t f hheld
  subst hf
  refine ⟨_, _, _, rfl, fun _ => .other (by simp), ?_, fun hm => ?_, fun hm => ?_, rfl⟩
  · exact hl.change hsome rfl rfl rfl rfl
  · refine (hs hm).change hsome rfl (unsaid_same (hs hm) rfl) (by simp) rfl rfl rfl fun d hd => ?_
    cases d with
    | nread => exact ⟨howes, fun hblocked => absurd hblocked.1 hne⟩
    | nwrite => simp at hd
  · refine (hst hm).shift hl hsome rfl rfl rfl (by simp) rfl ?_
    obtain ⟨q, hq, hbytes⟩ := (hst hm).bytes_of_held hsome
    cases q with
    | nil => exact absurd ((hq.empty_iff pipesize_lt).mpr rfl) hne
    | cons a q =>
      refine ⟨q, hq.pop, ?_⟩
      rw [hbytes, hq.head]
      simp

theorem does_report {f : Fields} (hheld : ℓ.held = some f) {n : Int} {got : List UInt8}
    (hgot : m.stream → ℓ.got = got)
    (hend : m.stream → 0 < n → got = [] → f.nread = f.nwrite ∧ f.writeopen = false) :
    Does perform (logic m) t (.report n got) ℓ fun _ ℓ' => ℓ' = { ℓ with got := [] } := by
  refine rule fun s g hl hs hst hg _ => Or.inr ?_
  subst hg
  have hsome : (g t).held ≠ none := by simp [hheld]
  have hf := hl.fields t f hheld
  subst hf
  refine ⟨(), _, { g t with got := [] }, rfl, fun hm n' heq hn => ?_, ?_, fun hm => ?_, fun hm => ?_,
    rfl⟩
  · obtain ⟨rfl, hnil⟩ := Op.report.inj heq
    exact hend hm hn hnil
  · exact hl.same rfl rfl rfl rfl rfl
  · exact (hs hm).quiet rfl rfl (unsaid_same (hs hm) rfl) rfl rfl rfl rfl rfl
  · refine (hst hm).shift hl hsome rfl rfl rfl (by simpa using hsome) rfl ?_
    obtain ⟨q, hq, hbytes⟩ := (hst hm).bytes_of_held hsome
    refine ⟨q, hq, ?_⟩
    rw [hbytes, hgot hm]
    simp

def closed (f : Fields) (writable : Bool) : Fields :=
  if writable then { f with writeopen := false } else { f with readopen := false }

/-- The channel on which `pipeclose` wakes. -/
abbrev wakes (writable : Bool) : Chan := if writable then .nread else .nwrite

theorem does_close {f : Fields} (hheld : ℓ.held = some f) (howes : ∀ c, ℓ.owes c = false)
    (writable : Bool) :
    Does perform (logic m) t (.close writable) ℓ fun _ ℓ' =>
      ℓ' = { ℓ with
        held := some (closed f writable)
        owes := Function.update ℓ.owes (wakes writable) true } := by
  refine rule fun s g hl hs hst hg _ => Or.inr ?_
  subst hg
  have hsome : (g t).held ≠ none := by simp [hheld]
  have hf := hl.fields t f hheld
  subst hf
  refine ⟨(), { s with fields := closed s.fields writable }, _, rfl, fun _ => .other (by simp), ?_,
    fun hm => ?_, fun hm => ?_, rfl⟩
  · exact hl.change hsome rfl rfl rfl rfl
  · refine (hs hm).change hsome rfl (unsaid_same (hs hm) rfl) (by simp) rfl rfl rfl fun d hd => ?_
    refine ⟨howes d, fun hblocked => ?_⟩
    cases writable <;> cases d
    · exact hblocked
    · simp [wakes] at hd
    · simp [wakes] at hd
    · exact hblocked
  · have hsame : SameBytes s { s with fields := closed s.fields writable } := by
      refine ⟨rfl, ?_, ?_, rfl, rfl, rfl⟩ <;> cases writable <;> rfl
    exact (hst hm).same hl hsame rfl rfl (Or.inl ⟨rfl, by simp [hheld]⟩)

end Xv6.Pipe
