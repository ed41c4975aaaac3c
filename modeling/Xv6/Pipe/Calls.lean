import Xv6.Pipe.Steps

/-!
# The functions of the pipe code

Each function keeps the invariant, in any company. `wakeup` has seen every other process when
it returns; the loop of `pipewrite` owes a wakeup on `&pi->nread` only while it has stored
bytes since its last one, and then the read end is open.
-/
namespace Xv6.Pipe

open Xv6.Library Xv6.Library.Thread Xv6.Source.Pipe

variable {m : Mode} {t : Slot} {ℓ : Local}

/-- Process `t` runs the program from what it knows, and knows `post` at its end. -/
abbrev Runs (m : Mode) (t : Slot) {α : Type} (p : Code α) (ℓ : Local) (post : α → Local → Prop) : Prop :=
  Safe perform (logic m) t p ℓ post

theorem runs_act {op : Op} {α : Type} {k : Ret op → Code α} {mid : Ret op → Local → Prop}
    {post : α → Local → Prop} (h : Does perform (logic m) t op ℓ mid)
    (hk : ∀ r ℓ', mid r ℓ' → Runs m t (k r) ℓ' post) : Runs m t (act op >>= k) ℓ post :=
  Safe.bind (Safe.op h) hk

/-! ## Sleeping and waking -/

/-- After `sleep` the process holds the pipe's lock again, and owes nothing. -/
theorem runs_sleep {f : Fields} {chan : Chan} (hheld : ℓ.held = some f) (hplock : ℓ.plock = none)
    (hwaits : ℓ.waits = none) (hpaid : m.sleepers → ℓ.Paid t) (hgot : m.stream → ℓ.got = [])
    (hblocked : Blocked f chan) :
    Runs m t (sleep t chan) ℓ fun _ ℓ' => ∃ f', ℓ' = { ℓ with
      held := some f'
      owes := fun _ => false
      seen := fun _ => [] } := by
  refine runs_act (does_acquireProc t hplock hwaits) ?_
  rintro _ _ rfl
  refine runs_act (does_release (f := f) ?_ ?_ ?_ (some chan) ?_) ?_
  · exact hheld
  · exact hpaid
  · exact hgot
  · rintro c hc
    cases hc
    exact hblocked
  rintro _ _ rfl
  refine runs_act (does_doze rfl rfl) ?_
  rintro _ _ rfl
  refine runs_act (does_swtchOut rfl) ?_
  rintro _ _ rfl
  refine runs_act (does_swtchIn rfl) ?_
  rintro _ _ rfl
  refine runs_act (does_releaseProc rfl) ?_
  rintro _ _ rfl
  refine Safe.op ((does_acquire rfl rfl).mono ?_)
  rintro _ _ ⟨f', rfl⟩
  refine ⟨f', ?_⟩
  rw [← hplock, ← hwaits]

theorem runs_wakeupLoop (chan : Chan) (ps : List Slot) (hplock : ℓ.plock = none)
    (hwaits : ℓ.waits = none) :
    Runs m t (wakeupLoop t chan ps) ℓ fun _ ℓ' => ∃ seen, ℓ' = { ℓ with seen := seen } ∧
      (∀ c, ℓ.seen c ⊆ seen c) ∧ ∀ p ∈ ps, p ≠ t → p ∈ seen chan := by
  induction ps generalizing ℓ with
  | nil => exact Safe.ret ⟨ℓ.seen, rfl, fun _ => List.Subset.refl _, by simp⟩
  | cons p ps ih =>
    rw [wakeupLoop]
    by_cases hpt : p ≠ t
    swap
    · rw [if_neg hpt]
      refine Safe.mono (ih hplock hwaits) ?_
      rintro _ ℓ' ⟨seen, rfl, hsub, hall⟩
      refine ⟨seen, rfl, hsub, fun q hq hqt => ?_⟩
      rcases List.mem_cons.mp hq with rfl | hq
      · exact absurd hqt hpt
      · exact hall q hq hqt
    · rw [if_pos hpt]
      refine runs_act (does_acquireProc p hplock hwaits) ?_
      rintro _ _ rfl
      refine runs_act (does_rouse rfl hpt chan) ?_
      rintro _ _ rfl
      refine runs_act (does_releaseProc rfl) ?_
      rintro _ _ rfl
      refine Safe.mono (ih rfl hwaits) ?_
      rintro _ ℓ' ⟨seen, rfl, hsub, hall⟩
      refine ⟨seen, by rw [← hplock], fun c q hq => ?_, fun q hq hqt => ?_⟩
      · refine hsub c ?_
        by_cases hc : c = chan
        · subst hc
          simp [hq]
        · simpa [Function.update_of_ne hc] using hq
      · rcases List.mem_cons.mp hq with rfl | hq
        · exact hsub chan (by simp)
        · exact hall q hq hqt

/-- `wakeup` looks at every other process. -/
theorem runs_wakeup (chan : Chan) (hplock : ℓ.plock = none) (hwaits : ℓ.waits = none) :
    Runs m t (wakeup t chan) ℓ fun _ ℓ' => ∃ seen, ℓ' = { ℓ with seen := seen } ∧
      ∀ p, p ≠ t → p ∈ seen chan := by
  refine Safe.mono (runs_wakeupLoop chan (List.finRange _) hplock hwaits) ?_
  rintro _ ℓ' ⟨seen, rfl, -, hall⟩
  exact ⟨seen, rfl, fun p hp => hall p (List.mem_finRange p) hp⟩

theorem runs_killed (p : Slot) (hplock : ℓ.plock = none) (hwaits : ℓ.waits = none) :
    Runs m t (killed p) ℓ fun k ℓ' => ℓ' = ℓ ∧ (m.sleepers → ℓ.unsaid = true → k = false) := by
  refine runs_act (does_acquireProc p hplock hwaits) ?_
  rintro _ _ rfl
  refine runs_act (does_getKilled p) ?_
  rintro k _ ⟨rfl, hk⟩
  refine runs_act (does_releaseProc rfl) ?_
  rintro _ _ rfl
  exact Safe.ret ⟨by rw [← hplock], hk⟩

theorem runs_killLoop (pid : Int) (ps : List Slot) (hplock : ℓ.plock = none)
    (hwaits : ℓ.waits = none) : Runs m t (killLoop pid ps) ℓ fun _ ℓ' => ℓ' = ℓ := by
  induction ps with
  | nil => exact Safe.ret rfl
  | cons p ps ih =>
    refine runs_act (does_acquireProc p hplock hwaits) ?_
    rintro _ _ rfl
    refine runs_act (does_pid p) ?_
    rintro q _ rfl
    have hback : { ℓ with plock := none } = ℓ := by rw [← hplock]
    by_cases hq : q = pid
    · rw [if_pos hq]
      refine runs_act (does_setKilled p) ?_
      rintro _ _ rfl
      refine runs_act (does_rouseAny p) ?_
      rintro _ _ rfl
      refine runs_act (does_releaseProc rfl) ?_
      rintro _ _ rfl
      exact Safe.ret hback
    · rw [if_neg hq]
      refine runs_act (does_releaseProc rfl) ?_
      rintro _ _ rfl
      rw [hback]
      exact ih

theorem runs_kill (pid : Int) (hq : ℓ.Quiet) : Runs m t (kill pid) ℓ fun _ => Local.Quiet := by
  refine Safe.mono (runs_killLoop pid (List.finRange _) hq.plock hq.waits) ?_
  rintro _ _ rfl
  exact hq

/-! ## Closing -/

theorem runs_pipeclose (writable : Bool) (hq : ℓ.Quiet) :
    Runs m t (pipeclose t writable) ℓ fun _ => Local.Quiet := by
  refine runs_act (does_acquire hq.held hq.waits) ?_
  rintro _ _ ⟨f, rfl⟩
  refine runs_act (does_close rfl ?_ writable) ?_
  · exact hq.owes
  rintro _ _ rfl
  refine Safe.bind (runs_wakeup (wakes writable) hq.plock hq.waits) ?_
  rintro _ _ ⟨seen, rfl, hall⟩
  refine runs_act (does_release rfl (fun _ c hc p hp => ?_) ?_ none nofun) ?_
  · by_cases hcw : c = wakes writable
    · subst hcw
      exact hall p hp
    · dsimp only at hc
      rw [Function.update_of_ne hcw, hq.owes] at hc
      exact nomatch hc
  · exact fun _ => hq.got
  rintro _ _ rfl
  exact Safe.ret ⟨rfl, hq.plock, rfl, fun _ => rfl, hq.got⟩

/-! ## Writing -/

/-- What a process knows in the loop of `pipewrite` when it has stored `i` bytes. -/
structure Writing (c : Nat) (src : Nat → Option UInt8) (i : Nat) (ℓ : Local) (f : Fields) :
    Prop where
  held : ℓ.held = some f
  plock : ℓ.plock = none
  waits : ℓ.waits = none
  got : ℓ.got = []
  call : ℓ.call = some (c, src, i)
  nwrite : ℓ.owes .nwrite = false
  nread : ℓ.owes .nread = true → ℓ.unsaid = true
  readopen : ℓ.owes .nread = true → f.readopen = true

/-- With nothing owed there is nothing to pay. -/
theorem Writing.paid {c i : Nat} {src : Nat → Option UInt8} {f : Fields} (hw : Writing c src i ℓ f)
    (hnread : ℓ.owes .nread = false) : ℓ.Paid t := by
  intro d hd
  cases d with
  | nread => exact nomatch hnread.symm.trans hd
  | nwrite => exact nomatch hw.nwrite.symm.trans hd

/-- The check at the head of the loop. A process that gives up owes nothing. -/
theorem runs_givesUp {c i : Nat} {src : Nat → Option UInt8} {f : Fields} (hw : Writing c src i ℓ f) :
    Runs m t (givesUp t f) ℓ fun k ℓ' => ℓ' = ℓ ∧ (k = true → m.sleepers → ℓ.owes .nread = false) ∧ (k = false → f.readopen = true) := by
  rw [givesUp]
  by_cases hopen : f.readopen = true
  · rw [if_pos hopen]
    refine Safe.mono (runs_killed t hw.plock hw.waits) ?_
    rintro k _ ⟨rfl, hk⟩
    refine ⟨rfl, fun htrue hm => ?_, fun _ => hopen⟩
    by_contra howes
    rw [hk hm (hw.nread (by simpa using howes))] at htrue
    exact nomatch htrue
  · rw [if_neg hopen]
    refine Safe.ret ⟨rfl, fun _ _ => ?_, nofun⟩
    by_contra howes
    exact hopen (hw.readopen (by simpa using howes))

/-- The loop is left with the lock held, or with −1. -/
theorem runs_writeLoop {src : Nat → Option UInt8} {n : Int} {c : Nat} (rounds i : Nat) {f : Fields}
    (hw : Writing c src i ℓ f) :
    Runs m t (writeLoop t src n c rounds i) ℓ fun r ℓ' => (r = none → ℓ'.Quiet) ∧
      ∀ j, r = some j → ∃ f', Writing c src j ℓ' f' := by
  induction rounds generalizing i ℓ f with
  | zero => exact runs_act does_stuck fun _ _ (h : False) => h.elim
  | succ rounds ih =>
    rw [writeLoop]
    by_cases hin : (i : Int) < n
    swap
    · rw [if_neg hin]
      refine Safe.ret ⟨nofun, fun j hj => ?_⟩
      cases hj
      exact ⟨f, hw⟩
    rw [if_pos hin]
    refine runs_act (does_peek hw.held) ?_
    rintro f _ ⟨rfl, rfl⟩
    refine Safe.bind (runs_givesUp hw) ?_
    rintro k _ ⟨rfl, hk, hopen⟩
    cases k with
    | true =>
      rw [if_pos rfl]
      refine runs_act (does_release hw.held (fun hm => hw.paid (hk rfl hm)) (fun _ => hw.got)
        none nofun) ?_
      rintro _ _ rfl
      refine Safe.ret ⟨fun _ => ⟨rfl, hw.plock, rfl, fun _ => rfl, hw.got⟩, nofun⟩
    | false =>
      rw [if_neg (by decide)]
      split
      · rename_i hfull
        refine Safe.bind (runs_wakeup .nread hw.plock hw.waits) ?_
        rintro _ _ ⟨seen, rfl, hall⟩
        refine runs_act does_said ?_
        rintro _ _ rfl
        refine Safe.bind (runs_sleep (f := f) ?_ ?_ ?_ ?_ ?_ ?_) ?_
        · exact hw.held
        · exact hw.plock
        · exact hw.waits
        · intro _ d hd p hp
          cases d with
          | nread => exact hall p hp
          | nwrite => exact nomatch hw.nwrite.symm.trans hd
        · exact fun _ => hw.got
        · exact ⟨hfull, hopen rfl⟩
        rintro _ _ ⟨f', rfl⟩
        exact ih i ⟨rfl, hw.plock, hw.waits, hw.got, hw.call, rfl, nofun, nofun⟩
      · rename_i hroom
        split
        · refine Safe.ret ⟨nofun, fun j hj => ?_⟩
          cases hj
          exact ⟨f, hw⟩
        · rename_i ch hsrc
          refine runs_act (does_put hw.held hroom hw.nwrite hw.call hsrc) ?_
          rintro _ _ rfl
          refine ih (i + 1) ⟨rfl, hw.plock, hw.waits, hw.got, rfl, ?_, fun _ => rfl,
            fun _ => hopen rfl⟩
          exact hw.nwrite

theorem runs_pipewrite (src : Nat → Option UInt8) (n : Int) (rounds : Nat) (hq : ℓ.Quiet) :
    Runs m t (pipewrite t src n rounds) ℓ fun _ => Local.Quiet := by
  refine runs_act (does_begin src) ?_
  rintro c _ rfl
  refine runs_act (does_acquire ?_ ?_) ?_
  · exact hq.held
  · exact hq.waits
  rintro _ _ ⟨f, rfl⟩
  have hnone : ∀ d, ℓ.owes d = true → False := fun d hd => nomatch (hq.owes d).symm.trans hd
  refine Safe.bind (runs_writeLoop rounds 0 (c := c) (f := f) ⟨rfl, hq.plock, hq.waits, hq.got, rfl,
    hq.owes .nwrite, fun h => (hnone _ h).elim, fun h => (hnone _ h).elim⟩) ?_
  rintro r ℓ' ⟨hleft, hdone⟩
  cases r with
  | none => exact Safe.ret (hleft rfl)
  | some i =>
    obtain ⟨f', hw⟩ := hdone i rfl
    refine Safe.bind (runs_wakeup .nread hw.plock hw.waits) ?_
    rintro _ _ ⟨seen, rfl, hall⟩
    refine runs_act does_said ?_
    rintro _ _ rfl
    refine runs_act (does_release (f := f') ?_ (fun _ d hd p hp => ?_) ?_ none nofun) ?_
    · exact hw.held
    · cases d with
      | nread => exact hall p hp
      | nwrite => exact nomatch hw.nwrite.symm.trans hd
    · exact fun _ => hw.got
    rintro _ _ rfl
    exact Safe.ret ⟨rfl, hw.plock, rfl, fun _ => rfl, hw.got⟩

/-! ## Reading -/

/-- What a process knows in `piperead` when it has taken the bytes `got`. -/
structure Reading (m : Mode) (got : List UInt8) (ℓ : Local) (f : Fields) : Prop where
  held : ℓ.held = some f
  plock : ℓ.plock = none
  waits : ℓ.waits = none
  got : m.stream → ℓ.got = got
  nread : ℓ.owes .nread = false

/-- The first loop is left at a byte or at the end of the stream, with nothing owed. -/
theorem runs_awaitByte (rounds : Nat) {f : Fields} (hr : Reading m [] ℓ f)
    (hnwrite : ℓ.owes .nwrite = false) :
    Runs m t (awaitByte t rounds) ℓ fun r ℓ' => (r = false → ℓ'.held = none ∧ ℓ'.plock = none ∧
        ℓ'.waits = none ∧ (∀ c, ℓ'.owes c = false) ∧ ℓ'.got = ℓ.got) ∧
      (r = true → ∃ f', Reading m [] ℓ' f' ∧ ℓ'.got = ℓ.got ∧
        (f'.nread = f'.nwrite → f'.writeopen = false)) := by
  induction rounds generalizing ℓ f with
  | zero => exact runs_act does_stuck fun _ _ (h : False) => h.elim
  | succ rounds ih =>
    have hpaid : ℓ.Paid t := by
      intro d hd
      cases d with
      | nread => exact nomatch hr.nread.symm.trans hd
      | nwrite => exact nomatch hnwrite.symm.trans hd
    refine runs_act (does_peek hr.held) ?_
    rintro f _ ⟨rfl, rfl⟩
    split
    · rename_i hempty
      refine Safe.bind (runs_killed t hr.plock hr.waits) ?_
      rintro k _ ⟨rfl, -⟩
      cases k with
      | true =>
        refine runs_act (does_release hr.held (fun _ => hpaid) hr.got none nofun) ?_
        rintro _ _ rfl
        exact Safe.ret ⟨fun _ => ⟨rfl, hr.plock, rfl, fun _ => rfl, rfl⟩, nofun⟩
      | false =>
        refine Safe.bind (runs_sleep hr.held hr.plock hr.waits (fun _ => hpaid) hr.got
          (show Blocked f .nread from hempty)) ?_
        rintro _ _ ⟨f', rfl⟩
        exact ih ⟨rfl, hr.plock, hr.waits, hr.got, rfl⟩ rfl
    · rename_i hready
      refine Safe.ret ⟨nofun, fun _ => ⟨f, hr, rfl, fun heq => ?_⟩⟩
      simpa [heq] using hready

/-- The second loop takes bytes and, with addresses that can be written, returns them all. It
returns none only when there are none. -/
theorem runs_readLoop {room : Nat → Bool} (todo : Nat) (got : List UInt8)
    (hroom : m.stream → ∀ i, i < got.length + todo → room i = true) {f : Fields}
    (hr : Reading m got ℓ f) :
    Runs m t (readLoop room todo got) ℓ fun got' ℓ' => ∃ f', Reading m got' ℓ' f' ∧
      got.length ≤ got'.length ∧ (m.stream → 0 < todo → got' = [] → f' = f ∧ f.nread = f.nwrite) := by
  induction todo generalizing got ℓ f with
  | zero => exact Safe.ret ⟨f, hr, le_rfl, fun _ h => absurd h (Nat.lt_irrefl 0)⟩
  | succ todo ih =>
    refine runs_act (does_peek hr.held) ?_
    rintro f _ ⟨rfl, rfl⟩
    split
    · rename_i hempty
      exact Safe.ret ⟨f, hr, le_rfl, fun _ _ _ => ⟨rfl, hempty⟩⟩
    · rename_i hne
      refine runs_act (does_take hr.held hne hr.nread) ?_
      rintro ch _ rfl
      by_cases hok : room got.length = true
      · rw [if_pos hok]
        refine Safe.mono (ih (got ++ [ch]) ?_ (f := { f with nread := f.nread + 1 }) ?_) ?_
        · intro hm i hi
          rw [List.length_append, List.length_singleton] at hi
          exact hroom hm i (by omega)
        · refine ⟨rfl, hr.plock, hr.waits, fun hm => ?_, ?_⟩
          · exact congrArg (· ++ [ch]) (hr.got hm)
          · exact hr.nread
        · rintro got' ℓ' ⟨f', hr', hlen, -⟩
          rw [List.length_append, List.length_singleton] at hlen
          refine ⟨f', hr', by omega, fun _ _ hnil => ?_⟩
          rw [hnil, List.length_nil] at hlen
          omega
      · rw [if_neg hok]
        have hbad : ¬ m.stream := fun hm => hok (hroom hm got.length (by omega))
        refine Safe.ret ⟨{ f with nread := f.nread + 1 }, ⟨rfl, hr.plock, hr.waits, ?_, ?_⟩, le_rfl, ?_⟩
        · exact fun hm => absurd hm hbad
        · exact hr.nread
        · exact fun hm => absurd hm hbad

theorem runs_piperead {room : Nat → Bool} {n : Int}
    (hroom : m.stream → ∀ i : Nat, (i : Int) < n → room i = true) (rounds : Nat) (hq : ℓ.Quiet) :
    Runs m t (piperead t room n rounds) ℓ fun _ => Local.Quiet := by
  refine runs_act (does_acquire hq.held hq.waits) ?_
  rintro _ _ ⟨f, rfl⟩
  refine Safe.bind (runs_awaitByte rounds (f := f) ⟨rfl, hq.plock, hq.waits, fun _ => hq.got,
    hq.owes .nread⟩ ?_) ?_
  · exact hq.owes .nwrite
  rintro r ℓ₁ ⟨hleft, hready⟩
  cases r with
  | false =>
    obtain ⟨hheld, hplock, hwaits, howes, hgot⟩ := hleft rfl
    exact Safe.ret ⟨hheld, hplock, hwaits, howes, hgot.trans hq.got⟩
  | true =>
    obtain ⟨f₁, hr, -, hend⟩ := hready rfl
    refine Safe.bind (runs_readLoop n.toNat [] ?_ hr) ?_
    · intro hm i hi
      rw [List.length_nil] at hi
      exact hroom hm i (by omega)
    rintro got ℓ₂ ⟨f₂, hr₂, -, hnone⟩
    refine runs_act (does_report hr₂.held hr₂.got fun hm hn hnil => ?_) ?_
    · obtain ⟨rfl, hempty⟩ := hnone hm (by omega) hnil
      exact ⟨hempty, hend hempty⟩
    rintro _ _ rfl
    refine Safe.bind (runs_wakeup .nwrite ?_ ?_) ?_
    · exact hr₂.plock
    · exact hr₂.waits
    rintro _ _ ⟨seen, rfl, hall⟩
    refine runs_act (does_release (f := f₂) ?_ (fun _ d hd p hp => ?_) ?_ none nofun) ?_
    · exact hr₂.held
    · cases d with
      | nread => exact nomatch hr₂.nread.symm.trans hd
      | nwrite => exact hall p hp
    · exact fun _ => rfl
    rintro _ _ rfl
    exact Safe.ret ⟨rfl, hr₂.plock, rfl, fun _ => rfl, rfl⟩

/-! ## Runs -/

/-- A pipe that `pipealloc` has made, before anybody uses it. -/
structure Fresh (s : State) : Prop where
  lock : s.lock = none
  plock : ∀ p, s.plock p = none
  nread : s.fields.nread = 0
  nwrite : s.fields.nwrite = 0
  state : ∀ p, s.state p = .runnable
  calls : s.calls = []
  accepted : s.accepted = []
  returned : s.returned = []
  unsaid : ∀ p, s.unsaid p = false

/-- The calls a process can make. The addresses it gives are valid if `valid` holds. -/
inductive Call (valid : Prop) (t : Slot) : Code Int → Prop
  | write (src : Nat → Option UInt8) (n : Int) (rounds : Nat) :
      (valid → ∀ i : Nat, (i : Int) < n → (src i).isSome) → Call valid t (pipewrite t src n rounds)
  | read (room : Nat → Bool) (n : Int) (rounds : Nat) :
      (valid → ∀ i : Nat, (i : Int) < n → room i = true) → Call valid t (piperead t room n rounds)
  | close (writable : Bool) : Call valid t (pipeclose t writable)
  | kill (pid : Int) : Call valid t (kill pid)

theorem runs_call {p : Code Int} (h : Call m.stream t p) (hq : ℓ.Quiet) :
    Runs m t p ℓ fun _ => Local.Quiet := by
  cases h with
  | write src n rounds _ => exact runs_pipewrite src n rounds hq
  | read room n rounds hroom => exact runs_piperead hroom rounds hq
  | close writable => exact runs_pipeclose writable hq
  | kill pid => exact runs_kill pid hq

/-- Nobody is in a call. -/
def idle : Local where
  held := none
  plock := none
  waits := none
  owes _ := false
  seen _ := []
  unsaid := false
  call := none
  got := []

theorem idle_quiet : idle.Quiet := ⟨rfl, rfl, rfl, fun _ => rfl, rfl⟩

theorem Fresh.inv {s : State} (h : Fresh s) : (logic m).inv s fun _ => idle := by
  refine ⟨⟨?_, nofun, ?_⟩, fun _ => ⟨?_, ?_, nofun, ?_, nofun, h.unsaid⟩,
    fun _ => ⟨?_, fun _ _ => rfl, ?_, ?_, nofun, nofun⟩⟩
  · intro t
    simp [h.lock, idle]
  · intro p t
    simp [h.plock, idle]
  · intro t c ht
    exact nomatch (h.state t).symm.trans ht
  · exact fun _ _ => rfl
  · rintro c - t (ht | ⟨ht, -⟩)
    · exact nomatch (h.state t).symm.trans ht
    · exact nomatch ht
  · refine ⟨[], [], fun _ ht => absurd rfl ht, fun _ => rfl, ?_, ?_⟩
    · rw [h.nread, h.nwrite]
      exact .nil
    · simp [h.accepted, h.returned]
  · simp [h.accepted]
  · intro c src hc
    simp [h.calls] at hc

/-- The machine: processes call the functions of the pipe, one step at a time, in any order. -/
abbrev Machine (guard : Slot → Op → State → Prop) (valid : Prop) :=
  Step (α := Int) perform guard fun _ t p => Call valid t p

/-- The invariant holds in every run in which the steps meet the condition. -/
theorem good_of_run {c₀ c : Config Slot State Op Ret Int} (hfresh : Fresh c₀.state)
    (hidle : ∀ t, c₀.prog t = none) {tr : List (Move Slot Op Int)}
    (hrun : Transition.Run (Machine (logic m).guard m.stream) c₀ tr c) :
    ∃ g, Good perform (logic m) Local.Quiet c g :=
  Good.run (fun _ _ _ _ hcall hq => runs_call hcall hq)
    ⟨hfresh.inv, fun _ _ => idle_quiet, fun t _ hp => nomatch (hidle t).symm.trans hp⟩ hrun

/-- A pipe with every process awake and outside the kernel. -/
def start : Config Slot State Op Ret Int where
  state := {
    lock := none
    plock := fun _ => none
    fields := ⟨0, 0, true, true⟩
    data := fun _ => 0
    state := fun _ => .runnable
    killed := fun _ => false
    pid := fun p => p.val + 1
    calls := []
    accepted := []
    returned := []
    unsaid := fun _ => false }
  prog _ := none

theorem start_fresh : Fresh start.state := by
  constructor <;> first | rfl | exact fun _ => rfl

end Xv6.Pipe
