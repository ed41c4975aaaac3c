import Xv6.Source.Uart

/-!
# The order of console output

Whatever processes call `uartputc`, whenever interrupts call `uartstart`, and whatever the
device does in between: the bytes written to the device are those accepted, in order, at most
`UART_TX_BUF_SIZE` wait, and nobody leaves bytes behind unless the device was found busy.
-/
namespace Xv6.Guarantees.ConsoleOutput

open Xv6.Library Xv6.Library.Thread Xv6.Source.Uart

/-- What the holder of the lock knows. -/
structure Known where
  pending : List UInt8
  /-- A byte taken from the buffer and not yet written to the device. -/
  hand : List UInt8
  /-- The byte that `uartputc` has stored and not yet counted. -/
  next : Option UInt8
  looked : Bool
  room : hand.length + pending.length ≤ UART_TX_BUF_SIZE

/-- Nothing is left to do before the device interrupts. -/
structure Known.Rested (k : Known) : Prop where
  hand : k.hand = []
  busy : k.pending ≠ [] → k.looked = false

structure Knows {Tid : Type} (s : State Tid) (k : Known) : Prop where
  holds : Fifo.Holds s.buf s.r s.w k.pending
  bytes : s.accepted = s.sent ++ k.hand ++ k.pending
  next : ∀ c, k.next = some c → s.buf (Fifo.cell UART_TX_BUF_SIZE s.w) = c
  looked : s.looked = k.looked

structure Inv {Tid : Type} (s : State Tid) (g : Tid → Option Known) : Prop where
  lock : ∀ t, s.lock = some t ↔ g t ≠ none
  held : ∀ t k, g t = some k → Knows s k
  free : s.lock = none → ∃ k, Knows s k ∧ k.Rested

def logic (Tid : Type) : Logic Tid (State Tid) (Op Tid) (Tid → Option Known) (Option Known) where
  loc t g := g t
  inv := Inv
  guard _ _ _ := True
  panics _ := False
  step _ _ _ _ := True

variable {Tid : Type} {s s' : State Tid} {g : Tid → Option Known} {k : Known}

theorem Inv.some_known (h : Inv s g) : ∃ k, Knows s k := by
  cases hlock : s.lock with
  | none =>
    obtain ⟨k, hk, -⟩ := h.free hlock
    exact ⟨k, hk⟩
  | some t =>
    obtain ⟨k, hk⟩ := Option.ne_none_iff_exists'.mp ((h.lock t).mp hlock)
    exact ⟨k, h.held t k hk⟩

variable [DecidableEq Tid] {t : Tid}

/-! ## One rule for each operation -/

/-- An operation of the thread that holds the lock. -/
theorem does_held {op : Op Tid} {post : Ret op → Option Known → Prop}
    (h : ∀ s, Knows s k → ∃ r s' k', perform t op s = .ok (r, s') ∧ s'.lock = s.lock ∧
      Knows s' k' ∧ post r (some k')) : Does perform (logic Tid) t op (some k) post := by
  apply Does.local (fun _ _ => rfl)
  intro s g hinv hg _
  have hmine : s.lock = some t := (hinv.lock t).mpr (by simp [hg])
  obtain ⟨r, s', k', hexec, hlock, hknows, hpost⟩ := h s (hinv.held t k hg)
  refine .inr ⟨r, s', some k', hexec, trivial, ⟨fun u => ?_, fun u k₁ hu => ?_, fun hnone => ?_⟩, hpost⟩
  · by_cases hut : u = t
    · subst hut
      simp [hlock, hmine]
    · rw [Function.update_of_ne hut, hlock]
      exact hinv.lock u
  · by_cases hut : u = t
    · subst hut
      rw [Function.update_self] at hu
      cases hu
      exact hknows
    · rw [Function.update_of_ne hut] at hu
      have hother := (hinv.lock u).mpr (by simp [hu])
      rw [hmine] at hother
      exact absurd (Option.some.inj hother).symm hut
  · rw [hlock, hmine] at hnone
    exact nomatch hnone

/-- An operation that nobody needs the lock for. -/
theorem does_any {op : Op Tid} {ℓ : Option Known}
    (h : ∀ s, perform t op s = .blocked ∨ ∃ r s', perform t op s = .ok (r, s') ∧
      s'.lock = s.lock ∧ ∀ k, Knows s k → Knows s' k) :
    Does perform (logic Tid) t op ℓ fun _ ℓ' => ℓ' = ℓ := by
  apply Does.local (fun _ _ => rfl)
  intro s g hinv hg _
  rcases h s with hblocked | ⟨r, s', hexec, hlock, hknows⟩
  · exact .inl hblocked
  · refine .inr ⟨r, s', ℓ, hexec, trivial, ?_, rfl⟩
    rw [← hg, Function.update_eq_self]
    refine ⟨fun u => ?_, fun u k hu => hknows k (hinv.held u k hu), fun hnone => ?_⟩
    · rw [hlock]
      exact hinv.lock u
    · rw [hlock] at hnone
      obtain ⟨k, hk, hrested⟩ := hinv.free hnone
      exact ⟨k, hknows k hk, hrested⟩

theorem does_acquire : Does perform (logic Tid) t .acquire none
    fun _ ℓ => ∃ k, ℓ = some k ∧ k.Rested := by
  apply Does.local (fun _ _ => rfl)
  intro s g hinv hg _
  cases hlock : s.lock with
  | some u =>
    have hut : u ≠ t := by
      intro heq
      subst heq
      exact (hinv.lock u).mp hlock hg
    exact .inl (by simp [perform, hlock, hut])
  | none =>
    obtain ⟨k, hk, hrested⟩ := hinv.free hlock
    refine .inr ⟨(), { s with lock := some t }, some k, by simp [perform, hlock], trivial,
      ⟨fun u => ?_, fun u k₁ hu => ?_, nofun⟩, k, rfl, hrested⟩
    · by_cases hut : u = t
      · simp [hut]
      · have hu := hinv.lock u
        simp [hlock] at hu
        simp [Function.update_of_ne hut, ← hu, Ne.symm hut]
    · by_cases hut : u = t
      · rw [hut, Function.update_self] at hu
        cases hu
        exact ⟨hk.holds, hk.bytes, hk.next, hk.looked⟩
      · rw [Function.update_of_ne hut] at hu
        exact nomatch hlock.symm.trans ((hinv.lock u).mpr (by simp [hu]))

/-- The lock is given up by a thread that has left nothing to do. -/
theorem does_leave {op : Op Tid} (hrested : k.Rested)
    (h : ∀ s : State Tid, s.lock = some t → ∃ r s', perform t op s = .ok (r, s') ∧ s'.lock = none ∧
      ∀ k, Knows s k → Knows s' k) :
    Does perform (logic Tid) t op (some k) fun _ ℓ => ℓ = none := by
  apply Does.local (fun _ _ => rfl)
  intro s g hinv hg _
  have hmine : s.lock = some t := (hinv.lock t).mpr (by simp [hg])
  have hothers : ∀ u, u ≠ t → g u = none := by
    intro u hut
    by_contra hu
    exact hut (Option.some.inj ((hinv.lock u).mpr hu |>.symm.trans hmine))
  obtain ⟨r, s', hexec, hlock, hknows⟩ := h s hmine
  refine .inr ⟨r, s', none, hexec, trivial, ⟨fun u => ?_, fun u k₁ hu => ?_, fun _ => ?_⟩, rfl⟩
  · by_cases hut : u = t
    · simp [hut, hlock]
    · simp [Function.update_of_ne hut, hothers u hut, hlock]
  · by_cases hut : u = t
    · simp [hut] at hu
    · simp [Function.update_of_ne hut, hothers u hut] at hu
  · exact ⟨k, hknows k (hinv.held t k hg), hrested⟩

omit [DecidableEq Tid] in
/-- A step that does not touch the buffer. -/
theorem Knows.same (h : Knows s k) (hbuf : s'.buf = s.buf) (hw : s'.w = s.w) (hr : s'.r = s.r)
    (haccepted : s'.accepted = s.accepted) (hsent : s'.sent = s.sent)
    (hlooked : s'.looked = s.looked) : Knows s' k := by
  obtain ⟨hholds, hbytes, hnext, hl⟩ := h
  refine ⟨?_, ?_, ?_, ?_⟩ <;> simp_all

theorem does_release (hrested : k.Rested) :
    Does perform (logic Tid) t .release (some k) fun _ ℓ => ℓ = none := by
  apply does_leave hrested
  intro s hmine
  exact ⟨(), { s with lock := none }, if_pos hmine, rfl, fun k hk => hk.same rfl rfl rfl rfl rfl rfl⟩

theorem does_doze (hrested : k.Rested) :
    Does perform (logic Tid) t .doze (some k) fun _ ℓ => ℓ = none := by
  apply does_leave hrested
  intro s hmine
  exact ⟨(), _, if_pos hmine, rfl, fun k hk => hk.same rfl rfl rfl rfl rfl rfl⟩

theorem does_resume : Does perform (logic Tid) t .resume none fun _ ℓ => ℓ = none := by
  apply does_any
  intro s
  cases hasleep : s.asleep t with
  | true => exact .inl (by simp [perform, hasleep])
  | false => exact .inr ⟨(), s, by simp [perform, hasleep], rfl, fun k hk => hk⟩

theorem does_stuck {ℓ : Option Known} {post : Unit → Option Known → Prop} :
    Does perform (logic Tid) t .stuck ℓ post := fun _ _ _ _ _ => ⟨nofun, nofun⟩

theorem does_isPanicked :
    Does perform (logic Tid) t .isPanicked (some k) fun _ ℓ => ℓ = some k :=
  does_any fun s => .inr ⟨_, s, rfl, rfl, fun _ hk => hk⟩

theorem does_wakeup : Does perform (logic Tid) t .wakeup (some k) fun _ ℓ => ℓ = some k :=
  does_any fun _ => .inr ⟨(), _, rfl, rfl, fun _ hk => hk.same rfl rfl rfl rfl rfl rfl⟩

theorem does_peek : Does perform (logic Tid) t .peek (some k) fun wr ℓ => ℓ = some k ∧
    (wr.1 = wr.2 ↔ k.pending = []) ∧
    (wr.1 ≠ wr.2 + BitVec.ofNat 64 UART_TX_BUF_SIZE → k.pending.length < UART_TX_BUF_SIZE) := by
  apply does_held
  intro s hk
  refine ⟨_, s, k, rfl, rfl, hk, rfl, ?_, fun hroom => ?_⟩
  · rw [← hk.holds.empty_iff (by decide)]
    exact eq_comm
  · exact lt_of_le_of_ne hk.holds.length (mt (hk.holds.full_iff (by decide)).mpr hroom)

theorem does_store (c : UInt8) (hroom : k.pending.length < UART_TX_BUF_SIZE) :
    Does perform (logic Tid) t (.store c) (some k) fun _ ℓ => ∃ k', ℓ = some k' ∧
      k'.hand = k.hand ∧ k'.pending = k.pending ∧ k'.next = some c := by
  apply does_held
  intro s hk
  refine ⟨(), _, { k with next := some c }, rfl, rfl,
    ⟨hk.holds.store (by decide) hroom c, hk.bytes, fun a ha => ?_, hk.looked⟩, _, rfl, rfl, rfl, rfl⟩
  cases ha
  exact Function.update_self ..

theorem does_advanceW {c : UInt8} (hnext : k.next = some c) (hhand : k.hand = [])
    (hroom : k.pending.length < UART_TX_BUF_SIZE) :
    Does perform (logic Tid) t (.advanceW c) (some k) fun _ ℓ => ∃ k', ℓ = some k' ∧ k'.hand = [] := by
  have hroom' : ([] : List UInt8).length + (k.pending ++ [c]).length ≤ UART_TX_BUF_SIZE := by
    simpa using Nat.succ_le_of_lt hroom
  apply does_held
  intro s hk
  have hholds := hk.holds.advance hroom
  rw [hk.next c hnext] at hholds
  refine ⟨(), _, ⟨k.pending ++ [c], [], none, k.looked, hroom'⟩, rfl, rfl,
    ⟨hholds, ?_, nofun, hk.looked⟩, _, rfl, rfl⟩
  simp [hk.bytes, hhand]

theorem does_readLsr : Does perform (logic Tid) t .readLsr (some k) fun idle ℓ =>
    ∃ k', ℓ = some k' ∧ k'.hand = k.hand ∧ k'.pending = k.pending ∧ k'.looked = idle := by
  apply does_held
  intro s hk
  exact ⟨s.idle, _, { k with looked := s.idle }, rfl, rfl,
    ⟨hk.holds, hk.bytes, hk.next, rfl⟩, _, rfl, rfl, rfl, rfl⟩

theorem does_load {c : UInt8} {q : List UInt8} (hq : k.pending = c :: q) :
    Does perform (logic Tid) t .load (some k) fun a ℓ => a = c ∧ ℓ = some k := by
  apply does_held
  intro s hk
  refine ⟨_, s, k, rfl, rfl, hk, ?_, rfl⟩
  have hholds := hk.holds
  rw [hq] at hholds
  exact hholds.head

theorem does_advanceR {c : UInt8} {q : List UInt8} (hq : k.pending = c :: q) (hhand : k.hand = []) :
    Does perform (logic Tid) t .advanceR (some k)
      fun _ ℓ => ∃ k', ℓ = some k' ∧ k'.hand = [c] ∧ k'.pending = q := by
  have hroom := k.room
  simp only [hq, hhand, List.length_nil, List.length_cons] at hroom
  apply does_held
  intro s hk
  have hholds := hk.holds
  have hbytes := hk.bytes
  rw [hq] at hholds hbytes
  refine ⟨(), _, ⟨q, [c], none, k.looked, by rw [List.length_singleton]; omega⟩, rfl, rfl,
    ⟨hholds.pop, ?_, nofun, hk.looked⟩, _, rfl, rfl, rfl⟩
  simp [hbytes, hhand]

theorem does_writeThr {c : UInt8} (hhand : k.hand = [c]) :
    Does perform (logic Tid) t (.writeThr c) (some k)
      fun _ ℓ => ∃ k', ℓ = some k' ∧ k'.hand = [] ∧ k'.pending = k.pending := by
  have hroom := k.room
  apply does_held
  intro s hk
  refine ⟨(), _, { k with hand := [], room := by rw [List.length_nil]; omega }, rfl, rfl,
    ⟨hk.holds, ?_, hk.next, hk.looked⟩, _, rfl, rfl, rfl⟩
  simp [hk.bytes, hhand]

/-! ## The functions -/

/-- `uartstart` leaves nothing to do. -/
theorem safe_startLoop {rounds : Nat} (hhand : k.hand = []) (hrounds : k.pending.length < rounds) :
    Safe perform (logic Tid) t (startLoop rounds) (some k) fun _ ℓ => ∃ k', ℓ = some k' ∧ k'.Rested := by
  induction rounds generalizing k with
  | zero => omega
  | succ rounds ih =>
    unfold startLoop
    apply Safe.bind (Safe.op does_peek)
    rintro ⟨w, r⟩ _ ⟨rfl, hempty, -⟩
    dsimp only at hempty ⊢
    by_cases hwr : w = r
    · rw [if_pos hwr]
      exact Safe.ret ⟨k, rfl, hhand, fun hne => absurd (hempty.mp hwr) hne⟩
    · rw [if_neg hwr]
      obtain ⟨c, q, hq⟩ := List.exists_cons_of_ne_nil (mt hempty.mpr hwr)
      apply Safe.bind (Safe.op does_readLsr)
      rintro idle _ ⟨k₀, rfl, hhand₀, hq₀, hlooked⟩
      rw [hhand] at hhand₀
      rw [hq] at hq₀
      cases idle with
      | false => exact Safe.ret ⟨k₀, rfl, hhand₀, fun _ => hlooked⟩
      | true =>
        rw [if_pos rfl]
        apply Safe.bind (Safe.op (does_load hq₀))
        rintro _ _ ⟨rfl, rfl⟩
        apply Safe.bind (Safe.op (does_advanceR hq₀ hhand₀))
        rintro _ _ ⟨k₁, rfl, hhand₁, hq₁⟩
        apply Safe.bind (Safe.op does_wakeup)
        rintro _ _ rfl
        apply Safe.bind (Safe.op (does_writeThr hhand₁))
        rintro _ _ ⟨k₂, rfl, hhand₂, hq₂⟩
        apply ih hhand₂
        rw [hq₂, hq₁]
        rw [hq] at hrounds
        exact Nat.lt_of_succ_lt_succ hrounds

theorem safe_uartstart (hhand : k.hand = []) :
    Safe perform (logic Tid) t uartstart (some k) fun _ ℓ => ∃ k', ℓ = some k' ∧ k'.Rested := by
  apply safe_startLoop hhand
  have hroom := k.room
  omega

theorem safe_sleep (hrested : k.Rested) :
    Safe perform (logic Tid) t sleep (some k) fun _ ℓ => ∃ k', ℓ = some k' ∧ k'.Rested := by
  apply Safe.bind (Safe.op (does_doze hrested))
  rintro _ _ rfl
  apply Safe.bind (Safe.op does_resume)
  rintro _ _ rfl
  exact Safe.op does_acquire

/-- The loop of `uartputc` ends with room in the buffer. -/
theorem safe_awaitRoom {rounds : Nat} (hrested : k.Rested) :
    Safe perform (logic Tid) t (awaitRoom rounds) (some k) fun _ ℓ =>
      ∃ k', ℓ = some k' ∧ k'.Rested ∧ k'.pending.length < UART_TX_BUF_SIZE := by
  induction rounds generalizing k with
  | zero => exact Safe.op does_stuck
  | succ rounds ih =>
    unfold awaitRoom
    apply Safe.bind (Safe.op does_peek)
    rintro ⟨w, r⟩ _ ⟨rfl, -, hroom⟩
    dsimp only at hroom ⊢
    by_cases hfull : w = r + BitVec.ofNat 64 UART_TX_BUF_SIZE
    · rw [if_pos hfull]
      apply Safe.bind (safe_sleep hrested)
      rintro _ _ ⟨k', rfl, hrested'⟩
      exact ih hrested'
    · rw [if_neg hfull]
      exact Safe.ret ⟨k, rfl, hrested, hroom hfull⟩

theorem safe_uartputc (c : UInt8) (rounds : Nat) :
    Safe perform (logic Tid) t (uartputc c rounds) none fun _ ℓ => ℓ = none := by
  apply Safe.bind (Safe.op does_acquire)
  rintro _ _ ⟨k, rfl, hrested⟩
  apply Safe.bind (Safe.op does_isPanicked)
  rintro panicked _ rfl
  have hrest : Safe perform (logic Tid) t (do
      awaitRoom rounds
      act (.store c)
      act (.advanceW c)
      uartstart
      act .release) (some k) fun _ ℓ => ℓ = none := by
    apply Safe.bind (safe_awaitRoom hrested)
    rintro _ _ ⟨k, rfl, hrested, hroom⟩
    apply Safe.bind (Safe.op (does_store c hroom))
    rintro _ _ ⟨k₁, rfl, hhand₁, hq₁, hnext⟩
    rw [hrested.hand] at hhand₁
    rw [← hq₁] at hroom
    apply Safe.bind (Safe.op (does_advanceW hnext hhand₁ hroom))
    rintro _ _ ⟨k₂, rfl, hhand₂⟩
    apply Safe.bind (safe_uartstart hhand₂)
    rintro _ _ ⟨k, rfl, hrested⟩
    exact Safe.op (does_release hrested)
  cases panicked with
  | false => exact hrest
  | true => exact Safe.op does_stuck

theorem safe_uartintr : Safe perform (logic Tid) t uartintr none fun _ ℓ => ℓ = none := by
  apply Safe.bind (Safe.op does_acquire)
  rintro _ _ ⟨k, rfl, hrested⟩
  apply Safe.bind (safe_uartstart hrested.hand)
  rintro _ _ ⟨k, rfl, hrested⟩
  exact Safe.op (does_release hrested)

/-! ## Every run -/

/-- What a thread may start: a process writes a byte, is killed or panics, an interrupt arrives,
or the device changes. -/
inductive Starts : Code Tid Unit → Prop
  | uartputc (c : UInt8) (rounds : Nat) : Starts (uartputc c rounds)
  | uartintr : Starts uartintr
  | device (idle : Bool) : Starts (act (.device idle))
  | kill (p : Tid) : Starts (act (.rouse p))
  | panics : Starts (act .setPanicked)

theorem Starts.safe {p : Code Tid Unit} (h : Starts p) :
    Safe perform (logic Tid) t p none fun _ ℓ => ℓ = none := by
  cases h with
  | uartputc c rounds => exact safe_uartputc c rounds
  | uartintr => exact safe_uartintr
  | device idle | kill q | panics =>
    exact Safe.op (does_any fun _ => .inr ⟨(), _, rfl, rfl, fun _ hk => hk.same rfl rfl rfl rfl rfl rfl⟩)

/-- The machine: threads make their moves one at a time, in any order. -/
abbrev Machine (Tid : Type) [DecidableEq Tid] :=
  Step (α := Unit) (@perform Tid _) (fun _ _ _ => True) fun _ _ p => Starts p

/-- No byte has been accepted yet. -/
structure Fresh (s : State Tid) : Prop where
  lock : s.lock = none
  empty : s.w = s.r
  accepted : s.accepted = []
  sent : s.sent = []

omit [DecidableEq Tid] in
theorem Fresh.inv (h : Fresh s) : Inv s fun _ => none := by
  refine ⟨fun t => by simp [h.lock], nofun, fun _ => ?_⟩
  refine ⟨⟨[], [], none, s.looked, Nat.zero_le _⟩, ⟨?_, ?_, nofun, rfl⟩, rfl, fun hne => absurd rfl hne⟩
  · rw [h.empty]
    exact .nil
  · simp [h.accepted, h.sent]

/-- The output so far is in order. -/
structure InOrder (s : State Tid) : Prop where
  pre : s.sent <+: s.accepted
  /-- What has not been sent is in the buffer, between two uses of it. -/
  rest : s.lock = none → ∃ q, s.accepted = s.sent ++ q ∧ Fifo.Holds s.buf s.r s.w q
  pending : s.accepted.length ≤ s.sent.length + UART_TX_BUF_SIZE
  counters : (s.w - s.r).toNat ≤ UART_TX_BUF_SIZE
  busy : s.lock = none → s.sent ≠ s.accepted → s.looked = false

omit [DecidableEq Tid] in
theorem Inv.inOrder (h : Inv s g) : InOrder s := by
  obtain ⟨k, hk⟩ := h.some_known
  have hroom := k.room
  have hlength := congrArg List.length hk.bytes
  simp only [List.length_append] at hlength
  refine ⟨?_, fun hlock => ?_, by omega, ?_, fun hlock hne => ?_⟩
  · rw [hk.bytes, List.append_assoc]
    exact List.prefix_append _ _
  · obtain ⟨k, hk, hrested⟩ := h.free hlock
    refine ⟨k.pending, ?_, hk.holds⟩
    rw [hk.bytes, hrested.hand, List.append_nil]
  · rw [hk.holds.sub_eq (by decide)]
    exact hk.holds.length
  · obtain ⟨k, hk, hrested⟩ := h.free hlock
    rw [hk.looked]
    apply hrested.busy
    intro hnil
    exact hne (by simp [hk.bytes, hrested.hand, hnil])

theorem console_output_in_order {c₀ c : Config Tid (State Tid) (Op Tid) Ret Unit}
    (hfresh : Fresh c₀.state) (hidle : ∀ t, c₀.prog t = none) {tr : List (Move Tid (Op Tid) Unit)}
    (hrun : Transition.Run (Machine Tid) c₀ tr c) : InOrder c.state := by
  have hgood : Good perform (logic Tid) (· = none) c₀ fun _ => none :=
    ⟨hfresh.inv, fun _ _ => rfl, fun t p hp => nomatch (hidle t).symm.trans hp⟩
  have hsafe : ∀ (s : State Tid) t p ℓ, Starts p → ℓ = none →
      Safe perform (logic Tid) t p ℓ fun _ ℓ' => ℓ' = none := by
    rintro s t p _ hstarts rfl
    exact hstarts.safe
  obtain ⟨g, hend⟩ := hgood.run hsafe hrun
  exact hend.inv.inOrder

/-- A busy device, with nothing to send. -/
def start : Config Bool (State Bool) (Op Bool) Ret Unit where
  state := {
    lock := none
    buf := fun _ => 0
    w := 0
    r := 0
    idle := false
    asleep := fun _ => false
    panicked := false
    accepted := []
    sent := []
    looked := false }
  prog _ := none

/-- A process writes a byte while the device is busy. -/
def written : Option (Config Bool (State Bool) (Op Bool) Ret Unit) :=
  script perform (fun _ _ _ => true) [.start true (uartputc 97 1), .moves (List.replicate 8 true)] start

theorem console_output_in_order_one_byte : ∃ c tr, Transition.Run (Machine Bool) start tr c ∧
    c.state.accepted = [97] ∧ c.state.sent = [] ∧ InOrder c.state := by
  have hsome : written.isSome = true := by decide +kernel
  obtain ⟨c, hc⟩ := Option.isSome_iff_exists.mp hsome
  obtain ⟨tr, hrun⟩ := script_run perform (fun _ _ _ => True) (fun _ _ p => Starts p)
    (fun _ _ _ _ => trivial) (fun t p hp s => by simp at hp; exact hp.2 ▸ .uartputc 97 1) hc
  have hstate : written.map (fun c => (c.state.accepted, c.state.sent)) = some ([97], []) := by
    decide +kernel
  rw [hc] at hstate
  have hboth := Prod.mk.inj (Option.some.inj hstate)
  exact ⟨c, tr, hrun, hboth.1, hboth.2, console_output_in_order ⟨rfl, rfl, rfl, rfl⟩ (fun _ => rfl) hrun⟩

end Xv6.Guarantees.ConsoleOutput
