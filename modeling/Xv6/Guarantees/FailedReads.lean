import Xv6.Console.Turns
import Xv6.Source.Pipe

/-!
# What a read with a bad destination takes

`piperead` and `consoleread` advance the read index before they copy the byte out. Where the copy
fails the byte is gone, and it is not counted. What a read takes is what it reports if and only if
it can store every byte that it comes to.
-/
namespace Xv6.Guarantees.FailedReads

open Xv6.Library Xv6.Library.Thread

/-! ## The copying loop -/

/-- How many of the `n` bytes in front of it a reader takes, and how many of these it stores, from
position `i` of its destination on. -/
def copies (room : Nat → Bool) : Nat → Nat → Nat × Nat
  | 0, _ => (0, 0)
  | n + 1, i =>
    if room i then ((copies room n (i + 1)).1 + 1, (copies room n (i + 1)).2 + 1) else (1, 0)

section Copies

variable {room : Nat → Bool}

theorem room_succ_iff {n i : Nat} :
    (∀ k < n + 1, room (i + k) = true) ↔ room i = true ∧ ∀ k < n, room (i + 1 + k) = true := by
  refine ⟨fun h => ⟨h 0 (Nat.succ_pos n), fun k hk => ?_⟩, fun h k hk => ?_⟩
  · rw [Nat.add_assoc, Nat.add_comm 1 k]
    exact h (k + 1) (Nat.succ_lt_succ hk)
  · cases k with
    | zero => exact h.1
    | succ k =>
      have hnext := h.2 k (Nat.lt_of_succ_lt_succ hk)
      rwa [Nat.add_assoc, Nat.add_comm 1 k] at hnext

theorem copies_full {n i : Nat} (h : ∀ k < n, room (i + k) = true) : copies room n i = (n, n) := by
  induction n generalizing i with
  | zero => rfl
  | succ n ih =>
    have hall := room_succ_iff.1 h
    rw [copies, if_pos hall.1, ih hall.2]

/-- The byte that cannot be stored is the last one taken. -/
theorem copies_short {n i : Nat} (h : ¬ ∀ k < n, room (i + k) = true) :
    (copies room n i).1 = (copies room n i).2 + 1 := by
  induction n generalizing i with
  | zero => exact absurd (fun k hk => absurd hk (Nat.not_lt_zero k)) h
  | succ n ih =>
    rw [copies]
    by_cases hroom : room i = true
    · rw [if_pos hroom]
      have hrest := ih fun hall => h (room_succ_iff.2 ⟨hroom, hall⟩)
      exact congrArg Nat.succ hrest
    · rw [if_neg hroom]

theorem copies_le (room : Nat → Bool) (n i : Nat) : (copies room n i).1 ≤ n := by
  induction n generalizing i with
  | zero => exact Nat.le_refl 0
  | succ n ih =>
    rw [copies]
    split
    · exact Nat.succ_le_succ (ih (i + 1))
    · exact Nat.succ_le_succ (Nat.zero_le n)

theorem copies_eq_iff (room : Nat → Bool) (n i : Nat) :
    (copies room n i).1 = (copies room n i).2 ↔ ∀ k < n, room (i + k) = true := by
  refine ⟨fun heq => ?_, fun h => by rw [copies_full h]⟩
  by_contra hshort
  have := copies_short hshort
  omega

end Copies

/-! ## Pipes -/

section Pipes

open Xv6.Source.Pipe

/-- A process runs `p` while no other one uses the pipe. -/
abbrev Runs {α : Type} (me : Slot) (p : Code α) (s : State) (r : α) (s' : State) : Prop :=
  Alone perform (fun _ _ _ => True) me p s r s'

/-- A call that found the bytes `q` in the pipe: it has removed what it returns, and if it could not
store the first byte, it has removed nothing and does not report the end of the stream. -/
structure PipeExact (room : Nat → Bool) (n : Int) (q : List UInt8) (s : State) (r : Int) (s' : State) : Prop where
  removed : (s'.fields.nread - s.fields.nread).toNat = r.toNat
  nothing : q ≠ [] → 0 < n → room 0 = false → s'.fields = s.fields ∧ s'.data = s.data ∧ r ≠ 0

/-- What `piperead` does when it has waited. -/
def finishRead (me : Slot) (room : Nat → Bool) (n : Int) : Code Int := do
  let got ← readLoop room n.toNat []
  act (.report n got)
  wakeup me .nwrite
  act .release
  pure got.length

theorem piperead_eq (me : Slot) (room : Nat → Bool) (n : Int) (rounds : Nat) :
    piperead me room n rounds = (do
      act .acquire
      if ← awaitByte me rounds then finishRead me room n else pure (-1)) := rfl

theorem pipesize_lt : PIPESIZE < 2 ^ 32 := by decide

variable {me : Slot} {room : Nat → Bool} {s : State} {q : List UInt8}

/-- The pipe when `k` more bytes have been taken. -/
def skip (k : Nat) (s : State) : State :=
  { s with fields := { s.fields with nread := s.fields.nread + BitVec.ofNat 32 k } }

theorem skip_zero (s : State) : skip 0 s = s := by
  have hzero : s.fields.nread + BitVec.ofNat 32 0 = s.fields.nread := BitVec.add_zero _
  rw [skip, hzero]

theorem skip_succ (k : Nat) (s : State) : skip k (skip 1 s) = skip (k + 1) s := by
  simp only [skip, BitVec.ofNat_add, BitVec.add_assoc]
  rw [BitVec.add_comm (BitVec.ofNat 32 1)]

theorem readLoop_copies (me : Slot) (room : Nat → Bool)
    (hq : Fifo.Holds s.data s.fields.nread s.fields.nwrite q) (todo : Nat) (got : List UInt8) :
    ∃ got', Runs me (readLoop room todo got) s got' (skip (copies room (min todo q.length) got.length).1 s) ∧
      got'.length = got.length + (copies room (min todo q.length) got.length).2 := by
  induction todo generalizing s q got with
  | zero =>
    rw [Nat.zero_min, copies, skip_zero]
    exact ⟨got, .ret got s, rfl⟩
  | succ todo ih =>
    cases q with
    | nil =>
      have hempty := (hq.empty_iff pipesize_lt).2 rfl
      have hstop : Runs me (readLoop room (todo + 1) got) s got s := by
        refine .call trivial rfl ?_
        show Runs me (if s.fields.nread = s.fields.nwrite then pure got else _) s got s
        rw [if_pos hempty]
        exact .ret got s
      rw [List.length_nil, Nat.min_zero, copies, skip_zero]
      exact ⟨got, hstop, rfl⟩
    | cons c q =>
      have hne : s.fields.nread ≠ s.fields.nwrite := fun heq => nomatch (hq.empty_iff pipesize_lt).1 heq
      have hpop : Fifo.Holds (skip 1 s).data (skip 1 s).fields.nread (skip 1 s).fields.nwrite q := hq.pop
      have htake : ∀ got' s', Runs me (if room got.length then readLoop room todo (got ++ [c]) else pure got)
          (skip 1 s) got' s' → Runs me (readLoop room (todo + 1) got) s got' s' := by
        intro got' s' hrest
        refine .call trivial rfl ?_
        show Runs me (if s.fields.nread = s.fields.nwrite then pure got else _) s got' s'
        rw [if_neg hne]
        refine .call trivial rfl ?_
        rw [hq.head]
        exact hrest
      rw [List.length_cons, Nat.succ_min_succ, copies]
      by_cases hroom : room got.length = true
      · rw [if_pos hroom] at htake ⊢
        obtain ⟨got', hrun, hlen⟩ := ih hpop (got ++ [c])
        rw [List.length_append, List.length_singleton] at hrun hlen
        rw [skip_succ] at hrun
        exact ⟨got', htake _ _ hrun, hlen.trans (by dsimp only; omega)⟩
      · rw [if_neg hroom] at htake ⊢
        exact ⟨got, htake _ _ (.ret got _), rfl⟩

theorem wakeupLoop_runs (me : Slot) (hfree : ∀ p, s.plock p = none) (chan : Chan) (ps : List Slot) :
    ∃ state, Runs me (wakeupLoop me chan ps) s () { s with state := state } := by
  induction ps generalizing s with
  | nil => exact ⟨s.state, .ret () s⟩
  | cons p ps ih =>
    by_cases hme : p = me
    · obtain ⟨state, hrest⟩ := ih hfree
      refine ⟨state, ?_⟩
      rw [wakeupLoop, if_neg (not_not_intro hme)]
      exact hrest
    · obtain ⟨state, hrest⟩ := @ih { s with
        state := Function.update s.state p ((s.state p).rouse chan) } hfree
      have hback : Function.update (Function.update s.plock p (some me)) p none = s.plock := by
        rw [Function.update_idem, ← hfree p, Function.update_eq_self]
      have hacquire : perform me (.acquireProc p) s =
          .ok ((), { s with plock := Function.update s.plock p (some me) }) := by
        simp only [perform, hfree p]
      have hrelease : perform me (.releaseProc p) { s with
            plock := Function.update s.plock p (some me)
            state := Function.update s.state p ((s.state p).rouse chan) } =
          .ok ((), { s with state := Function.update s.state p ((s.state p).rouse chan) }) := by
        simp only [perform, Function.update_self, if_pos, hback]
      refine ⟨state, ?_⟩
      rw [wakeupLoop, if_pos hme]
      exact .call trivial hacquire (.call trivial rfl (.call trivial hrelease hrest))

/-- The rest of a call, under the lock of the pipe. -/
theorem finishRead_runs (room : Nat → Bool) (hlock : s.lock = some me) (hfree : ∀ p, s.plock p = none)
    (hq : Fifo.Holds s.data s.fields.nread s.fields.nwrite q) (n : Int) :
    ∃ s', Runs me (finishRead me room n) s (copies room (min n.toNat q.length) 0).2 s' ∧
      s'.fields = (skip (copies room (min n.toNat q.length) 0).1 s).fields ∧ s'.data = s.data := by
  obtain ⟨got, hloop, hlen⟩ := readLoop_copies me room hq n.toNat []
  rw [List.length_nil] at hloop hlen
  rw [Nat.zero_add] at hlen
  generalize hk : (copies room (min n.toNat q.length) 0).1 = k at hloop
  obtain ⟨state, hwake⟩ := wakeupLoop_runs me (s := { skip k s with returned := s.returned ++ got })
    hfree .nwrite (List.finRange Source.Tables.NPROC)
  have hrelease : perform me .release { skip k s with
        returned := s.returned ++ got
        state := state } =
      .ok ((), { skip k s with
        returned := s.returned ++ got
        state := state
        lock := none }) := by
    simp only [perform, skip, hlock, if_pos]
  refine ⟨{ skip k s with
    returned := s.returned ++ got
    state := state
    lock := none }, ?_, rfl, rfl⟩
  rw [← hlen]
  exact hloop.bind (.call trivial rfl (hwake.bind (.call trivial hrelease (.ret _ _))))

/-- A call that need not wait. -/
theorem piperead_runs (me : Slot) (room : Nat → Bool) (hlock : s.lock = none) (hfree : ∀ p, s.plock p = none)
    (hq : Fifo.Holds s.data s.fields.nread s.fields.nwrite q) (hready : q = [] → s.fields.writeopen = false)
    (n : Int) (rounds : Nat) :
    ∃ s', Runs me (piperead me room n (rounds + 1)) s (copies room (min n.toNat q.length) 0).2 s' ∧
      s'.fields = (skip (copies room (min n.toNat q.length) 0).1 s).fields ∧ s'.data = s.data := by
  have hacquire : perform me .acquire s = .ok ((), { s with lock := some me }) := by
    simp only [perform, hlock]
  have hwait : Runs me (awaitByte me (rounds + 1)) { s with lock := some me } true { s with lock := some me } := by
    have hgo : ¬ (s.fields.nread = s.fields.nwrite ∧ s.fields.writeopen = true) := by
      rintro ⟨heq, hopen⟩
      rw [hready ((hq.empty_iff pipesize_lt).1 heq)] at hopen
      exact nomatch hopen
    refine .call trivial rfl ?_
    show Runs me (if s.fields.nread = s.fields.nwrite ∧ s.fields.writeopen = true then _ else pure true) _ _ _
    rw [if_neg hgo]
    exact .ret true _
  obtain ⟨s', hrun, hfields, hdata⟩ := finishRead_runs room (s := { s with lock := some me }) rfl hfree hq n
  refine ⟨s', ?_, hfields, hdata⟩
  rw [piperead_eq]
  exact .call trivial hacquire (hwait.bind hrun)

/-- A killed process does not wait, and takes nothing. -/
theorem piperead_killed (room : Nat → Bool) (hlock : s.lock = none) (hfree : ∀ p, s.plock p = none)
    (hempty : s.fields.nread = s.fields.nwrite) (hopen : s.fields.writeopen = true) (hkilled : s.killed me = true)
    (n : Int) (rounds : Nat) : Runs me (piperead me room n (rounds + 1)) s (-1) s := by
  have hacquire : perform me .acquire s = .ok ((), { s with lock := some me }) := by
    simp only [perform, hlock]
  have hback : Function.update (Function.update s.plock me (some me)) me none = s.plock := by
    rw [Function.update_idem, ← hfree me, Function.update_eq_self]
  have hasks : Runs me (killed me) { s with lock := some me } true { s with lock := some me } := by
    have hproc : perform me (.acquireProc me) { s with lock := some me } =
        .ok ((), { s with
          lock := some me
          plock := Function.update s.plock me (some me) }) := by
      simp only [perform, hfree me]
    have hunproc : perform me (.releaseProc me) { s with
          lock := some me
          plock := Function.update s.plock me (some me) } = .ok ((), { s with lock := some me }) := by
      simp only [perform, Function.update_self, if_pos, hback]
    have hread : perform me (.getKilled me) { s with
          lock := some me
          plock := Function.update s.plock me (some me) } =
        .ok (true, { s with
          lock := some me
          plock := Function.update s.plock me (some me) }) := by
      rw [← hkilled]
      rfl
    exact .call trivial hproc (.call trivial hread (.call trivial hunproc (.ret _ _)))
  have hrelease : perform me .release { s with lock := some me } = .ok ((), s) := by
    simp only [perform, if_pos, ← hlock]
  have hwait : Runs me (awaitByte me (rounds + 1)) { s with lock := some me } false s := by
    refine .call trivial rfl ?_
    show Runs me (if s.fields.nread = s.fields.nwrite ∧ s.fields.writeopen = true then _ else _) _ _ _
    rw [if_pos ⟨hempty, hopen⟩]
    exact hasks.bind (.call trivial hrelease (.ret _ _))
  rw [piperead_eq]
  exact .call trivial hacquire (hwait.bind (.ret _ _))

theorem pipeExact_iff {n : Int} {s' : State} (hq : q.length ≤ PIPESIZE)
    (hfields : s'.fields = (skip (copies room (min n.toNat q.length) 0).1 s).fields) :
    PipeExact room n q s (copies room (min n.toNat q.length) 0).2 s' ↔
      ∀ i < min n.toNat q.length, room i = true := by
  have hlt := pipesize_lt
  have hle := copies_le room (min n.toNat q.length) 0
  have hremoved : (s'.fields.nread - s.fields.nread).toNat = (copies room (min n.toNat q.length) 0).1 := by
    rw [hfields]
    show (s.fields.nread + _ - s.fields.nread).toNat = _
    rw [BitVec.add_comm, BitVec.add_sub_cancel, BitVec.toNat_ofNat, Nat.mod_eq_of_lt (by omega)]
  have hexact := copies_eq_iff room (min n.toNat q.length) 0
  simp only [Nat.zero_add] at hexact
  constructor
  · intro h
    have heq := h.removed
    rw [hremoved, Int.toNat_natCast] at heq
    exact hexact.1 heq
  · intro hall
    refine ⟨?_, fun hne hn hroom => ?_⟩
    · rw [hremoved, Int.toNat_natCast]
      exact hexact.2 hall
    · have hpos : 0 < q.length := List.length_pos_iff.2 hne
      have := hall 0 (by omega)
      rw [hroom] at this
      exact nomatch this

end Pipes

/-! ## The console -/

section Console

open Xv6.Source.Console Xv6.Console

/-- A turn of a reader: it has removed the bytes that it counts, and perhaps an end of file; and if
it could not store the first byte, it has removed nothing and does not report an end of file. -/
structure ConsoleExact (room : Nat → Bool) (call : Call) (s : Cons) (r : Turn) : Prop where
  removed : (r.cons.r - s.r).toNat = (r.got.length - call.got.length) + r.taken.count .eof
  nothing : bytesOf (call.turn (fun _ => true) s).taken ≠ [] → room call.got.length = false →
    r.cons = s ∧ ¬ (r.done = true ∧ r.got = [])

theorem turn_copies (room : Nat → Bool) (target n : Nat) (s : Cons) (got : List UInt8) :
    ∃ eofs, (turn room target n s got).taken.count .eof = eofs ∧
      let full := (bytesOf (turn (fun _ => true) target n s got).taken).length
      (turn room target n s got).cons.r = s.r + BitVec.ofNat 32 ((copies room full got.length).1 + eofs) ∧
      (turn room target n s got).got.length = got.length + (copies room full got.length).2 ∧
      (copies room full got.length).1 + eofs ≤ n := by
  induction n generalizing s got with
  | zero => exact ⟨0, rfl, (BitVec.add_zero s.r).symm, rfl, Nat.le_refl 0⟩
  | succ n ih =>
    rw [turn, turn]
    by_cases hempty : s.r = s.w
    · rw [if_pos hempty, if_pos hempty]
      exact ⟨0, rfl, (BitVec.add_zero s.r).symm, rfl, Nat.zero_le _⟩
    rw [if_neg hempty, if_neg hempty]
    generalize s.buf (Fifo.cell INPUT_BUF_SIZE s.r) = c
    dsimp only
    by_cases hD : c = C 'D'
    · rw [if_pos hD, if_pos hD]
      by_cases hback : n + 1 < target
      · rw [if_pos hback]
        refine ⟨0, rfl, ?_, rfl, Nat.zero_le _⟩
        show s.r + 1 - 1 = s.r + 0#32
        rw [BitVec.add_sub_cancel, BitVec.add_zero]
      · rw [if_neg hback]
        exact ⟨1, rfl, rfl, rfl, Nat.succ_le_succ (Nat.zero_le n)⟩
    rw [if_neg hD, if_neg hD, if_pos rfl]
    by_cases hnl : c = newline
    · rw [if_pos hnl, if_pos hnl]
      have hone : (bytesOf [Item.byte c]).length = 0 + 1 := rfl
      simp only [hone, copies]
      by_cases hroom : room got.length = true
      · rw [if_pos hroom, if_pos hroom]
        exact ⟨0, rfl, rfl, by simp, Nat.succ_le_succ (Nat.zero_le n)⟩
      · rw [if_neg hroom, if_neg hroom]
        exact ⟨0, rfl, rfl, rfl, Nat.succ_le_succ (Nat.zero_le n)⟩
    · rw [if_neg hnl, if_neg hnl]
      have hmore : (bytesOf ((turn (fun _ => true) target n { s with r := s.r + 1 } (got ++ [c])).after (.byte c)).taken).length =
          (bytesOf (turn (fun _ => true) target n { s with r := s.r + 1 } (got ++ [c])).taken).length + 1 := rfl
      simp only [hmore, copies]
      by_cases hroom : room got.length = true
      · obtain ⟨eofs, hcount, hr, hlen, hle⟩ := ih { s with r := s.r + 1 } (got ++ [c])
        rw [List.length_append, List.length_singleton] at hr hlen hle
        rw [if_pos hroom, if_pos hroom]
        refine ⟨eofs, ?_, ?_, ?_, ?_⟩
        · rw [← hcount]
          exact List.count_cons_of_ne (by simp)
        · refine hr.trans ?_
          rw [Nat.add_right_comm, Fifo.add_ofNat_succ, BitVec.add_assoc, BitVec.add_comm 1, ← BitVec.add_assoc]
        · refine hlen.trans ?_
          omega
        · omega
      · rw [if_neg hroom, if_neg hroom]
        exact ⟨0, rfl, rfl, rfl, Nat.succ_le_succ (Nat.zero_le n)⟩

theorem consoleExact_iff (room : Nat → Bool) (call : Call) (s : Cons) (hint : call.target < 2 ^ 31) :
    ConsoleExact room call s (call.turn room s) ↔
      ∀ i < (bytesOf (call.turn (fun _ => true) s).taken).length, room (call.got.length + i) = true := by
  obtain ⟨eofs, hcount, hr, hlen, hle⟩ :=
    turn_copies room call.target (call.target - call.got.length) s call.got
  have hexact := copies_eq_iff room (bytesOf (call.turn (fun _ => true) s).taken).length call.got.length
  generalize hfull : (bytesOf (call.turn (fun _ => true) s).taken).length = full at hexact
  have hremoved : ((call.turn room s).cons.r - s.r).toNat = (copies room full call.got.length).1 + eofs := by
    rw [← hfull]
    rw [Call.turn, hr, BitVec.add_comm, BitVec.add_sub_cancel, BitVec.toNat_ofNat]
    exact Nat.mod_eq_of_lt (by omega)
  have hstored : (call.turn room s).got.length - call.got.length = (copies room full call.got.length).2 := by
    rw [← hfull, Call.turn, hlen, Nat.add_sub_cancel_left]
    rfl
  have heofs : (call.turn room s).taken.count .eof = eofs := hcount
  rw [← hexact]
  constructor
  · intro h
    have heq := h.removed
    rw [hremoved, hstored, heofs] at heq
    exact Nat.add_right_cancel heq
  · intro heq
    refine ⟨?_, fun hne hroom => ?_⟩
    · rw [hremoved, hstored, heofs, heq]
    · have hpos : 0 < full := by
        rw [← hfull]
        exact List.length_pos_iff.2 hne
      have := hexact.1 heq 0 hpos
      rw [Nat.add_zero, hroom] at this
      exact nomatch this

end Console

/-! ## What reads take is what they report -/

open Source.Pipe (Slot piperead PIPESIZE)

/-- A pipe with one byte in it. -/
def oneByte : Source.Pipe.State where
  lock := none
  plock := fun _ => none
  fields := ⟨0, 1, true, true⟩
  data := fun _ => 97
  state := fun _ => .runnable
  killed := fun _ => false
  pid := fun _ => 0
  calls := []
  accepted := []
  returned := []
  unsaid := fun _ => false

theorem oneByte_holds : Fifo.Holds oneByte.data oneByte.fields.nread oneByte.fields.nwrite [97] where
  length := by decide
  count := rfl
  get k hk := by
    cases k with
    | zero => rfl
    | succ k => exact absurd hk (by simp)

def oneLine : Source.Console.Cons := ⟨fun _ => Source.Console.newline, 0, 1, 1⟩

end Xv6.Guarantees.FailedReads
