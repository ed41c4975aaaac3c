import Xv6.Kernel.FlatLog

/-!
# Invariants of the flat log

What the log code holds, has pinned and has still to write at each program point,
and the protocol invariant of `begin_op`, `end_op`, `log_write` and `commit` that
follows from it. Nothing is assumed about the blocks the processes modify, nor about
the log on the disk at power on.
-/
namespace Xv6.Kernel.FlatLog
open Xv6.Source Xv6.Library.Transition

/-- The blocks of the local buffer pointers at a program point, latest first. -/
def locals (g : Geometry) (lh : List UInt32) : LogPc → List UInt32
  | .writeLog tail .gotTo | .writeLog tail .releasedFrom => [g.logBlock tail]
  | .writeLog tail .gotFrom | .writeLog tail .moved | .writeLog tail .written =>
    [lh.getD tail 0, g.logBlock tail]
  | .installTrans _ tail .gotLbuf => [g.logBlock tail]
  | .installTrans _ tail .gotDbuf | .installTrans _ tail .moved
  | .installTrans _ tail .written | .installTrans _ tail .unpinned =>
    [lh.getD tail 0, g.logBlock tail]
  | .installTrans _ tail .releasedLbuf => [lh.getD tail 0]
  | .writeHead _ .gotBuf | .writeHead _ .stored | .writeHead _ .written => [g.start]
  | .readHead .gotBuf | .readHead .loaded => [g.start]
  | _ => []

/-- The block the log code has stored into and not yet written. -/
def unwritten (g : Geometry) (lh : List UInt32) : LogPc → List UInt32
  | .writeLog tail .moved => [g.logBlock tail]
  | .installTrans _ tail .moved => [lh.getD tail 0]
  | .writeHead _ .stored => [g.start]
  | _ => []

/-- The blocks whose buffers still carry the pin of `log_write`. -/
def pinned (lh : List UInt32) : LogPc → List UInt32
  | .commit | .writeLog _ _ | .writeHead .commit _ => lh
  | .installTrans false tail .unpinned | .installTrans false tail .releasedLbuf => lh.drop (tail + 1)
  | .installTrans false tail _ => lh.drop tail
  | _ => []

theorem pinned_sublist (lh : List UInt32) (c : LogPc) : (pinned lh c).Sublist lh := by
  unfold pinned
  split
  all_goals first
    | exact List.Sublist.refl _
    | exact List.drop_sublist _ _
    | exact List.nil_sublist _

/-- Loop indices are in range; behind the assignment `log.lh.n = 0` the log is empty. -/
def Located (lh : List UInt32) : LogPc → Prop
  | .writeLog tail .test | .installTrans _ tail .test => tail ≤ lh.length
  | .writeLog tail _ | .installTrans _ tail _ => tail < lh.length
  | .writeHead .erase _ | .writeHead .recover _ | .finish | .recovered => lh = []
  | _ => True

/-- The program points of `recover_from_log`. -/
def recovery : LogPc → Bool
  | .installTrans r _ _ | .clear r => r
  | .writeHead .recover _ | .readHead _ | .recovered => true
  | _ => false

/-- What the call at a program point does to the shared state. -/
def effect {n : Nat} (g : Geometry) (s : State n) : LogPc → State n
  | .writeLog tail .gotFrom =>
    { s with mem := Function.update s.mem (g.logBlock tail) (s.mem (s.lh.getD tail 0)) }
  | .writeLog tail .moved =>
    { s with disk := Function.update s.disk (g.logBlock tail) (s.mem (g.logBlock tail)) }
  | .writeHead _ .gotBuf =>
    { s with mem := Function.update s.mem g.start (setHead (s.mem g.start) s.lh) }
  | .writeHead _ .stored =>
    { s with disk := Function.update s.disk g.start (s.mem g.start) }
  | .installTrans _ tail .gotDbuf =>
    { s with mem := Function.update s.mem (s.lh.getD tail 0) (s.mem (g.logBlock tail)) }
  | .installTrans _ tail .moved =>
    { s with disk := Function.update s.disk (s.lh.getD tail 0) (s.mem (s.lh.getD tail 0)) }
  | .installTrans false tail .written => { s with pins := s.pins.erase (s.lh.getD tail 0) }
  | .clear _ => { s with lh := [] }
  | .readHead .gotBuf => { s with lh := getHead (s.mem g.start) }
  | .finish => { s with committing := false }.wakeup
  | .recovered => { s with booting := false }
  | _ => s

/-- Where control goes from a program point. -/
def following (g : Geometry) (lh : List UInt32) : LogPc → Pc
  | .finish | .recovered => .out
  | c => .log (code g lh c).2

/-- What a step of the log code shows. -/
def shown {n : Nat} (g : Geometry) (s : State n) (p : Fin n) : LogPc → Label n
  | .writeLog tail .test =>
    if tail < s.lh.length then .bread p (g.logBlock tail) (s.mem (g.logBlock tail)) else .tau
  | .writeLog tail .gotTo => .bread p (s.lh.getD tail 0) (s.mem (s.lh.getD tail 0))
  | .writeLog tail .gotFrom => .logStore (g.logBlock tail) (s.mem (s.lh.getD tail 0))
  | .writeHead _ .entry | .readHead .entry => .bread p g.start (s.mem g.start)
  | .writeHead _ .gotBuf => .logStore g.start (setHead (s.mem g.start) s.lh)
  | .writeHead .commit .stored => .commit
  | .installTrans _ tail .test =>
    if tail < s.lh.length then .bread p (g.logBlock tail) (s.mem (g.logBlock tail)) else .tau
  | .installTrans _ tail .gotLbuf => .bread p (s.lh.getD tail 0) (s.mem (s.lh.getD tail 0))
  | .installTrans _ tail .gotDbuf => .logStore (s.lh.getD tail 0) (s.mem (g.logBlock tail))
  | .recovered => .recovered
  | _ => .tau

section fields
variable {n : Nat} (s : State n) (p q : Fin n) (x : Proc) (pc : Pc)

@[simp] theorem setProc_mem : (s.setProc p x).mem = s.mem := rfl
@[simp] theorem setProc_disk : (s.setProc p x).disk = s.disk := rfl
@[simp] theorem setProc_lh : (s.setProc p x).lh = s.lh := rfl
@[simp] theorem setProc_outstanding : (s.setProc p x).outstanding = s.outstanding := rfl
@[simp] theorem setProc_committing : (s.setProc p x).committing = s.committing := rfl
@[simp] theorem setProc_pins : (s.setProc p x).pins = s.pins := rfl
@[simp] theorem setProc_booting : (s.setProc p x).booting = s.booting := rfl
@[simp] theorem setProc_panicked : (s.setProc p x).panicked = s.panicked := rfl
@[simp] theorem setProc_self : (s.setProc p x).proc p = x := Function.update_self ..
@[simp] theorem setProc_ne (h : q ≠ p) : (s.setProc p x).proc q = s.proc q :=
  Function.update_of_ne h ..

theorem setProc_proc : (s.setProc p x).proc q = if q = p then x else s.proc q := by
  split
  · next h => subst h; simp
  · next h => simp [h]

@[simp] theorem wake_held : (wake x).held = x.held := by unfold wake; split <;> rfl
@[simp] theorem wake_dirty : (wake x).dirty = x.dirty := by unfold wake; split <;> rfl

theorem wake_pc : (wake x).pc = if x.pc = .sleeping then .entering else x.pc := by
  unfold wake
  split <;> rfl

@[simp] theorem wake_pc_log (c : LogPc) : (wake x).pc = .log c ↔ x.pc = .log c := by
  rw [wake_pc]
  split <;> simp_all

@[simp] theorem wake_pc_inOp : (wake x).pc = .inOp ↔ x.pc = .inOp := by
  rw [wake_pc]
  split <;> simp_all

@[simp] theorem wake_pc_sleeping : (wake x).pc ≠ .sleeping := by
  rw [wake_pc]
  split <;> simp_all

end fields

variable {n : Nat} {g : Geometry}

/-- An instruction of the log code does what `effect` says, on the blocks that the
local pointers stand for. -/
theorem exec_effect {s s' : State n} {p : Fin n} {c c' : LogPc} {i : Instr} {l : Label n}
    {rest : List UInt32} (held : (s.proc p).held = locals g s.lh c ++ rest)
    (text : code g s.lh c = (i, c')) (does : s.exec p c c' i = some (l, s')) :
    l = shown g s p c ∧ s' = (effect g s c).setProc p
      { pc := following g s.lh c
        held := locals g (effect g s c).lh c' ++ rest
        dirty := (s.proc p).dirty } ∧
      (c = .readHead .gotBuf → (getHead (s.mem g.start)).length ≤ LOGSIZE) := by
  obtain rfl : i = (code g s.lh c).1 := by rw [text]
  obtain rfl : c' = (code g s.lh c).2 := by rw [text]
  cases c with
  | commit =>
    by_cases h : 0 < s.lh.length <;>
      simp_all [code, State.exec, shown, effect, following, locals, State.goto]
  | writeLog tail pt =>
    rcases Nat.lt_or_ge tail s.lh.length with h | h
    · cases pt <;> simp_all [code, State.exec, shown, effect, following, locals, State.goto]
    · cases pt <;> simp_all [code, State.exec, shown, effect, following, locals, State.goto,
        Nat.not_lt.mpr h]
  | writeHead call pt =>
    cases call <;> cases pt <;>
      simp_all [code, State.exec, shown, effect, following, locals, State.goto]
  | installTrans recovering tail pt =>
    rcases Nat.lt_or_ge tail s.lh.length with h | h
    · cases recovering <;> cases pt <;>
        simp_all [code, State.exec, shown, effect, following, locals, State.goto]
    · cases recovering <;> cases pt <;>
        simp_all [code, State.exec, shown, effect, following, locals, State.goto, Nat.not_lt.mpr h]
  | clear recovering =>
    cases recovering <;>
      simp_all [code, State.exec, shown, effect, following, locals, State.goto]
  | finish =>
    simp_all [code, State.exec, shown, effect, following, locals, State.goto, State.wakeup]
  | readHead pt =>
    rcases Nat.lt_or_ge LOGSIZE (getHead (s.mem g.start)).length with h | h
    · cases pt <;> simp_all [code, State.exec, shown, effect, following, locals, State.goto, guard,
        Nat.not_le.mpr h]
    · cases pt <;> simp_all [code, State.exec, shown, effect, following, locals, State.goto, guard]
  | recovered =>
    simp_all [code, State.exec, shown, effect, following, locals, State.goto]

/-- The number of processes inside an operation. -/
def opCount (s : State n) : Nat := ∑ q, if (s.proc q).pc = .inOp then 1 else 0

/-- The facts at a program point of the log code. -/
structure At (g : Geometry) (s : State n) (p : Fin n) (c : LogPc) : Prop where
  held : ∃ rest, (s.proc p).held = locals g s.lh c ++ rest
  located : Located s.lh c
  pins : s.pins = pinned s.lh c
  mode : recovery c = s.booting
  settled : ∀ r tail, c = .installTrans r tail .written →
    s.mem (s.lh.getD tail 0) = s.disk (s.lh.getD tail 0)

structure Inv (g : Geometry) (s : State n) : Prop where
  count : s.outstanding = opCount s
  log : ∀ p c, (s.proc p).pc = .log c →
    At g s p c ∧ s.outstanding = 0 ∧ s.committing = !s.booting
  one : ∀ p q c c', (s.proc p).pc = .log c → (s.proc q).pc = .log c' → p = q
  running : s.committing = true ∨ s.booting = true → ∃ p c, (s.proc p).pc = .log c
  idle : s.committing = false → s.booting = false →
    s.pins = s.lh ∧ (s.outstanding = 0 → s.lh = [])
  asleep : ∀ p, (s.proc p).pc = .sleeping → s.committing = true ∨ 0 < s.outstanding
  dirty : ∀ p b, b ∈ (s.proc p).dirty → (s.proc p).pc = .inOp ∧ b ∈ (s.proc p).held
  fits : s.booting = false → s.lh.Nodup ∧ s.lh.length ≤ LOGSIZE ∧ s.lh.length ≤ g.size - 1
  sync : ∀ b, s.mem b ≠ s.disk b → b ∈ s.pins ∨ (∃ p, b ∈ (s.proc p).dirty) ∨
    ∃ p c, (s.proc p).pc = .log c ∧ b ∈ unwritten g s.lh c
  noPanic : s.panicked ≠ some .logCommitting ∧ s.panicked ≠ some .outsideOfTrans

theorem opCount_pos {s : State n} {p : Fin n} (h : (s.proc p).pc = .inOp) : 0 < opCount s := by
  have hle := le_sum (fun q => if (s.proc q).pc = .inOp then 1 else 0) p
  simp only [h, if_true] at hle
  exact hle

theorem opCount_congr {s s' : State n}
    (h : ∀ q, (s'.proc q).pc = .inOp ↔ (s.proc q).pc = .inOp) : opCount s' = opCount s := by
  unfold opCount
  apply Finset.sum_congr rfl
  intro q _
  simp only [h q]

/-- An operation begins or ends at one process. -/
theorem opCount_change {s s' : State n} (p : Fin n)
    (h : ∀ q, q ≠ p → ((s'.proc q).pc = .inOp ↔ (s.proc q).pc = .inOp)) :
    opCount s' + (if (s.proc p).pc = .inOp then 1 else 0) =
      opCount s + (if (s'.proc p).pc = .inOp then 1 else 0) := by
  apply sum_change (fun q => if (s.proc q).pc = .inOp then 1 else 0)
    (fun q => if (s'.proc q).pc = .inOp then 1 else 0) p
  intro q hq
  simp only [h q hq]

@[simp] theorem logWrite_pc (s : State n) (p q : Fin n) (b : UInt32) :
    ((s.logWrite g p b).proc q).pc = (s.proc q).pc := by
  unfold State.logWrite
  split
  · rfl
  · dsimp only
    rw [Function.update_apply]
    split
    · next h => rw [h]
    · rfl

theorem logWrite_ok {s : State n} (p : Fin n) (b : UInt32)
    (h : logWriteCheck g s.lh s.outstanding = none) :
    (s.logWrite g p b).lh = (absorb s.lh b).1 ∧ (s.logWrite g p b).panicked = s.panicked := by
  simp only [State.logWrite, h, and_self]

theorem logWrite_panics {s : State n} {x : Panic} (p : Fin n) (b : UInt32)
    (h : logWriteCheck g s.lh s.outstanding = some x) :
    s.logWrite g p b = { s with panicked := some x } := by
  unfold State.logWrite
  simp only [h]

theorem endOp_last {s : State n} {p : Fin n} (hc : s.committing = false)
    (h : s.outstanding - 1 = 0) : s.endOp p =
      { s with outstanding := s.outstanding - 1, committing := true }.goto p (.log .commit) := by
  unfold State.endOp
  rw [if_neg (by simp [hc]), if_pos h]

theorem endOp_more {s : State n} {p : Fin n} (hc : s.committing = false)
    (h : s.outstanding - 1 ≠ 0) : s.endOp p =
      { s.wakeup with outstanding := s.outstanding - 1 }.goto p .out := by
  unfold State.endOp
  rw [if_neg (by simp [hc]), if_neg h]
  rfl

/-- What `end_op` leaves to the other processes. -/
theorem endOp_view {s : State n} (p : Fin n) (hc : s.committing = false) :
    (s.endOp p).lh = s.lh ∧ (s.endOp p).panicked = s.panicked ∧
    ∀ q, ((s.endOp p).proc q).pc = .inOp ↔ q ≠ p ∧ (s.proc q).pc = .inOp := by
  by_cases hlast : s.outstanding - 1 = 0
  · rw [endOp_last hc hlast]
    refine ⟨rfl, rfl, ?_⟩
    intro q
    simp only [State.goto, setProc_proc]
    split
    · next h => simp [h]
    · next h => simp [h]
  · rw [endOp_more hc hlast]
    refine ⟨rfl, rfl, ?_⟩
    intro q
    simp only [State.goto, setProc_proc]
    split
    · next h => simp [h]
    · next h => simp [h, State.wakeup]

namespace Inv
variable {s : State n} (inv : Inv g s)
include inv

theorem no_log_of_inOp {p : Fin n} (h : (s.proc p).pc = .inOp) (q : Fin n) (c : LogPc) :
    (s.proc q).pc ≠ .log c := by
  intro hq
  have h0 := (inv.log q c hq).2.1
  have hc := inv.count
  have hp := opCount_pos h
  omega

theorem quiet_of_inOp {p : Fin n} (h : (s.proc p).pc = .inOp) :
    s.committing = false ∧ s.booting = false := by
  constructor
  · by_contra hc
    obtain ⟨q, c, hq⟩ := inv.running (Or.inl (by simpa using hc))
    exact inv.no_log_of_inOp h q c hq
  · by_contra hc
    obtain ⟨q, c, hq⟩ := inv.running (Or.inr (by simpa using hc))
    exact inv.no_log_of_inOp h q c hq

theorem outstanding_pos {p : Fin n} (h : (s.proc p).pc = .inOp) : 0 < s.outstanding := by
  have hc := inv.count
  have hp := opCount_pos h
  omega

theorem no_log_of_quiet (hc : s.committing = false) (hb : s.booting = false) (q : Fin n) (c : LogPc) :
    (s.proc q).pc ≠ .log c := by
  intro hq
  have h := (inv.log q c hq).2.2
  simp [hc, hb] at h

theorem clean_of_log {p : Fin n} {c : LogPc} (h : (s.proc p).pc = .log c) (q : Fin n) :
    (s.proc q).dirty = [] := by
  rw [List.eq_nil_iff_forall_not_mem]
  intro b hb
  exact inv.no_log_of_inOp (inv.dirty q b hb).1 p c h

/-- Reading and releasing blocks changes the held blocks of processes that are
not in the log code, and nothing else. -/
theorem rehold {p : Fin n} (hp : ∀ c, (s.proc p).pc ≠ .log c) (held : List UInt32)
    (hd : ∀ b ∈ (s.proc p).dirty, b ∈ held) :
    Inv g (s.setProc p { s.proc p with held := held }) := by
  have hpc : ∀ q, ((s.setProc p { s.proc p with held := held }).proc q).pc = (s.proc q).pc := by
    intro q
    rw [setProc_proc]
    split
    · next h => rw [h]
    · rfl
  have hdirty : ∀ q, ((s.setProc p { s.proc p with held := held }).proc q).dirty = (s.proc q).dirty := by
    intro q
    rw [setProc_proc]
    split
    · next h => rw [h]
    · rfl
  constructor
  · rw [opCount_congr (s := s) (fun q => by rw [hpc])]
    exact inv.count
  · intro q c hq
    rw [hpc] at hq
    have hqp : q ≠ p := by rintro rfl; exact hp c hq
    obtain ⟨hat, h0, hc⟩ := inv.log q c hq
    refine ⟨⟨?_, hat.located, hat.pins, hat.mode, hat.settled⟩, h0, hc⟩
    rw [setProc_ne _ _ _ _ hqp]
    exact hat.held
  · intro q q' c c' h h'
    rw [hpc] at h h'
    exact inv.one q q' c c' h h'
  · intro h
    obtain ⟨q, c, hq⟩ := inv.running h
    exact ⟨q, c, by rw [hpc]; exact hq⟩
  · exact inv.idle
  · intro q hq
    rw [hpc] at hq
    exact inv.asleep q hq
  · intro q b hb
    rw [hdirty] at hb
    rw [hpc]
    refine ⟨(inv.dirty q b hb).1, ?_⟩
    rw [setProc_proc]
    split
    · next h => subst h; exact hd b hb
    · exact (inv.dirty q b hb).2
  · exact inv.fits
  · intro b hb
    rcases inv.sync b hb with h | ⟨q, h⟩ | ⟨q, c, hq, h⟩
    · exact Or.inl h
    · exact Or.inr (Or.inl ⟨q, by rw [hdirty]; exact h⟩)
    · exact Or.inr (Or.inr ⟨q, c, by rw [hpc]; exact hq, h⟩)
  · exact inv.noPanic

theorem store {p : Fin n} {b : UInt32} (h : (s.proc p).pc = .inOp) (held : b ∈ (s.proc p).held)
    (d : Block) : Inv g ({ s with mem := Function.update s.mem b d }.setProc p
      { s.proc p with dirty := b :: (s.proc p).dirty }) := by
  have hpc : ∀ q, (({ s with mem := Function.update s.mem b d }.setProc p
      { s.proc p with dirty := b :: (s.proc p).dirty }).proc q).pc = (s.proc q).pc := by
    intro q
    rw [setProc_proc]
    split
    · next h => rw [h]
    · rfl
  constructor
  · rw [opCount_congr (s := s) (fun q => by rw [hpc])]
    exact inv.count
  · intro q c hq
    rw [hpc] at hq
    exact absurd hq (inv.no_log_of_inOp h q c)
  · intro q q' c c' hq _
    rw [hpc] at hq
    exact absurd hq (inv.no_log_of_inOp h q c)
  · intro hr
    obtain ⟨q, c, hq⟩ := inv.running hr
    exact absurd hq (inv.no_log_of_inOp h q c)
  · exact inv.idle
  · intro q hq
    rw [hpc] at hq
    exact inv.asleep q hq
  · intro q b' hb'
    rw [hpc]
    by_cases hqp : q = p
    · subst hqp
      simp only [setProc_self, List.mem_cons] at hb' ⊢
      refine ⟨h, ?_⟩
      rcases hb' with rfl | hb'
      · exact held
      · exact (inv.dirty q b' hb').2
    · rw [setProc_ne _ _ _ _ hqp] at hb' ⊢
      exact inv.dirty q b' hb'
  · exact inv.fits
  · intro b' hb'
    simp only [setProc_mem, setProc_disk, setProc_pins] at hb' ⊢
    by_cases hbb : b' = b
    · subst hbb
      exact Or.inr (Or.inl ⟨p, by simp⟩)
    · rw [Function.update_of_ne hbb] at hb'
      rcases inv.sync b' hb' with hs | ⟨q, hs⟩ | ⟨q, c, hq, -⟩
      · exact Or.inl hs
      · refine Or.inr (Or.inl ⟨q, ?_⟩)
        rw [setProc_proc]
        split
        · next hqp => subst hqp; exact List.mem_cons_of_mem _ hs
        · exact hs
      · exact absurd hq (inv.no_log_of_inOp h q c)
  · exact inv.noPanic

/-- `log_write` inside an operation panics for lack of space or appends, and the
buffer it releases from the caller's care is pinned. -/
theorem logWrite {p : Fin n} {b : UInt32} (h : (s.proc p).pc = .inOp)
    : Inv g (s.logWrite g p b) := by
  unfold State.logWrite logWriteCheck
  by_cases hfull : s.lh.length ≥ LOGSIZE ∨ (s.lh.length : Int) ≥ (g.size : Int) - 1
  · simp only [hfull, if_true]
    exact ⟨inv.count, fun q c hq => absurd hq (inv.no_log_of_inOp h q c), inv.one, inv.running,
      inv.idle, inv.asleep, inv.dirty, inv.fits, inv.sync, by simp⟩
  · have hpos := inv.outstanding_pos h
    simp only [hfull, if_false, if_neg (show ¬ s.outstanding < 1 by omega)]
    obtain ⟨hc, hb⟩ := inv.quiet_of_inOp h
    obtain ⟨hpins, -⟩ := inv.idle hc hb
    obtain ⟨hnd, -, -⟩ := inv.fits hb
    have hpc : ∀ q, (Function.update s.proc p { s.proc p with
        dirty := (s.proc p).dirty.filter (· != b) } q).pc = (s.proc q).pc := by
      intro q
      by_cases hqp : q = p
      · subst hqp; simp
      · simp [hqp]
    have hgrow : (absorb s.lh b).1.Nodup ∧ (absorb s.lh b).1.length ≤ LOGSIZE ∧
        (absorb s.lh b).1.length ≤ g.size - 1 ∧
        (if (absorb s.lh b).2 then s.pins ++ [b] else s.pins) = (absorb s.lh b).1 ∧
        b ∈ (absorb s.lh b).1 ∧ ∀ x ∈ s.lh, x ∈ (absorb s.lh b).1 := by
      by_cases hm : b ∈ s.lh
      · rw [absorb_of_mem hm]
        exact ⟨hnd, by simp only; omega, by simp only; omega, by simpa using hpins, hm, fun x hx => hx⟩
      · rw [absorb_of_not_mem hm]
        refine ⟨?_, ?_, ?_, ?_, ?_, ?_⟩
        · exact List.nodup_append.mpr ⟨hnd, by simp, by rintro x hx y hy rfl; simp_all⟩
        · simp only [List.length_append, List.length_singleton]; omega
        · simp only [List.length_append, List.length_singleton]; omega
        · simp [hpins]
        · simp
        · intro x hx; simp [hx]
    obtain ⟨g₁, g₂, g₃, g₄, g₅, g₆⟩ := hgrow
    constructor
    · rw [opCount_congr (s := s) (fun q => by rw [hpc])]
      exact inv.count
    · intro q c hq
      rw [hpc] at hq
      exact absurd hq (inv.no_log_of_inOp h q c)
    · intro q q' c c' hq _
      rw [hpc] at hq
      exact absurd hq (inv.no_log_of_inOp h q c)
    · intro hr
      obtain ⟨q, c, hq⟩ := inv.running hr
      exact absurd hq (inv.no_log_of_inOp h q c)
    · intro _ _
      exact ⟨g₄, fun h0 => absurd h0 (by simpa using (ne_of_gt hpos))⟩
    · intro q hq
      rw [hpc] at hq
      exact inv.asleep q hq
    · intro q b' hb'
      rw [hpc]
      by_cases hqp : q = p
      · subst hqp
        simp only [Function.update_self, List.mem_filter] at hb' ⊢
        exact inv.dirty q b' hb'.1
      · simp only [Function.update_of_ne hqp] at hb' ⊢
        exact inv.dirty q b' hb'
    · intro _
      exact ⟨g₁, g₂, g₃⟩
    · intro b' hb'
      simp only [g₄]
      rcases inv.sync b' hb' with hs | ⟨q, hs⟩ | ⟨q, c, hq, -⟩
      · exact Or.inl (g₆ b' (hpins ▸ hs))
      · by_cases hbb : b' = b
        · subst hbb; exact Or.inl g₅
        · refine Or.inr (Or.inl ⟨q, ?_⟩)
          by_cases hqp : q = p
          · subst hqp; simp [hs, hbb]
          · simpa [hqp] using hs
      · exact absurd hq (inv.no_log_of_inOp h q c)
    · exact inv.noPanic

theorem clean_of_ne {q : Fin n} (h : (s.proc q).pc ≠ .inOp) : (s.proc q).dirty = [] := by
  rw [List.eq_nil_iff_forall_not_mem]
  intro b hb
  exact h (inv.dirty q b hb).1

theorem wakeup : Inv g s.wakeup := by
  constructor
  · rw [opCount_congr (s := s) (fun q => wake_pc_inOp _)]
    exact inv.count
  · intro q c hq
    obtain ⟨hat, h0, hc⟩ := inv.log q c ((wake_pc_log _ c).mp hq)
    obtain ⟨rest, hrest⟩ := hat.held
    exact ⟨⟨⟨rest, (wake_held _).trans hrest⟩, hat.located, hat.pins, hat.mode, hat.settled⟩, h0, hc⟩
  · intro q q' c c' h h'
    exact inv.one q q' c c' ((wake_pc_log _ c).mp h) ((wake_pc_log _ c').mp h')
  · intro hr
    obtain ⟨q, c, hq⟩ := inv.running hr
    exact ⟨q, c, (wake_pc_log _ c).mpr hq⟩
  · exact inv.idle
  · intro q hq
    exact absurd hq (wake_pc_sleeping _)
  · intro q b hb
    obtain ⟨h₁, h₂⟩ := inv.dirty q b (wake_dirty (s.proc q) ▸ hb)
    exact ⟨(wake_pc_inOp _).mpr h₁, (wake_held (s.proc q)).symm ▸ h₂⟩
  · exact inv.fits
  · intro b hb
    rcases inv.sync b hb with h | ⟨q, h⟩ | ⟨q, c, hq, h⟩
    · exact Or.inl h
    · exact Or.inr (Or.inl ⟨q, (wake_dirty (s.proc q)).symm ▸ h⟩)
    · exact Or.inr (Or.inr ⟨q, c, (wake_pc_log _ c).mpr hq, h⟩)
  · exact inv.noPanic

/-- A process moves between two points outside the log code, and the number of
outstanding operations follows it. -/
theorem goto {p : Fin n} {pc : Pc} {o : Int} (hp : ∀ c, (s.proc p).pc ≠ .log c)
    (hpc : ∀ c, pc ≠ .log c) (hclean : pc ≠ .inOp → (s.proc p).dirty = [])
    (hcount : o + (if (s.proc p).pc = .inOp then 1 else 0) =
      s.outstanding + (if pc = .inOp then 1 else 0))
    (hlog : ∀ q c, (s.proc q).pc = .log c → o = 0)
    (hidle : s.committing = false → s.booting = false → o = 0 → s.lh = [])
    (hasleep : ∀ q, (s.proc q).pc = .sleeping ∨ pc = .sleeping → s.committing = true ∨ 0 < o) :
    Inv g ({ s with outstanding := o }.goto p pc) := by
  have hne : ∀ q, q ≠ p → ({ s with outstanding := o }.goto p pc).proc q = s.proc q :=
    fun q hq => setProc_ne _ _ _ _ hq
  have hself : ({ s with outstanding := o }.goto p pc).proc p = { s.proc p with pc := pc } :=
    setProc_self ..
  have hlogs : ∀ q c, (({ s with outstanding := o }.goto p pc).proc q).pc = .log c →
      q ≠ p ∧ (s.proc q).pc = .log c := by
    intro q c hq
    have hqp : q ≠ p := by
      rintro rfl
      rw [hself] at hq
      exact hpc c hq
    rw [hne q hqp] at hq
    exact ⟨hqp, hq⟩
  constructor
  · have hchange := opCount_change (s := s) p (fun q hq => by rw [hne q hq])
    have hold := inv.count
    rw [hself] at hchange
    show o = _
    split_ifs at hcount hchange <;> omega
  · intro q c hq
    obtain ⟨hqp, hq⟩ := hlogs q c hq
    obtain ⟨hat, -, hc⟩ := inv.log q c hq
    refine ⟨⟨?_, hat.located, hat.pins, hat.mode, hat.settled⟩, hlog q c hq, hc⟩
    rw [hne q hqp]
    exact hat.held
  · intro q q' c c' h h'
    exact inv.one q q' c c' (hlogs q c h).2 (hlogs q' c' h').2
  · intro hr
    obtain ⟨q, c, hq⟩ := inv.running hr
    have hqp : q ≠ p := by rintro rfl; exact hp c hq
    exact ⟨q, c, by rw [hne q hqp]; exact hq⟩
  · intro hc hb
    exact ⟨(inv.idle hc hb).1, hidle hc hb⟩
  · intro q hq
    by_cases hqp : q = p
    · subst hqp
      rw [hself] at hq
      exact hasleep q (Or.inr hq)
    · rw [hne q hqp] at hq
      exact hasleep q (Or.inl hq)
  · intro q b hb
    by_cases hqp : q = p
    · subst hqp
      rw [hself] at hb ⊢
      by_cases hin : pc = .inOp
      · exact ⟨hin, (inv.dirty q b hb).2⟩
      · rw [hclean hin] at hb
        simp at hb
    · rw [hne q hqp] at hb ⊢
      exact inv.dirty q b hb
  · exact inv.fits
  · intro b hb
    rcases inv.sync b hb with h | ⟨q, h⟩ | ⟨q, c, hq, h⟩
    · exact Or.inl h
    · refine Or.inr (Or.inl ⟨q, ?_⟩)
      by_cases hqp : q = p
      · subst hqp; rw [hself]; exact h
      · rw [hne q hqp]; exact h
    · have hqp : q ≠ p := by rintro rfl; exact hp c hq
      exact Or.inr (Or.inr ⟨q, c, by rw [hne q hqp]; exact hq, h⟩)
  · exact inv.noPanic

theorem beginOp {p : Fin n} (up : s.booting = false)
    (calls : (s.proc p).pc = .out ∨ (s.proc p).pc = .entering)
    (admitted : admits s.committing s.lh s.outstanding = true) :
    Inv g ({ s with outstanding := s.outstanding + 1 }.goto p .inOp) := by
  have hc : s.committing = false := by
    simp only [admits, Bool.and_eq_true, Bool.not_eq_true'] at admitted
    exact admitted.1
  have hcount := inv.count
  apply inv.goto
  · intro c; rcases calls with h | h <;> simp [h]
  · simp
  · simp
  · rcases calls with h | h <;> simp [h]
  · intro q c hq
    exact absurd hq (inv.no_log_of_quiet hc up q c)
  · intro _ _ h0; omega
  · intro q _; right; omega

theorem sleep {p : Fin n} (up : s.booting = false)
    (calls : (s.proc p).pc = .out ∨ (s.proc p).pc = .entering)
    (refused : admits s.committing s.lh s.outstanding = false) :
    Inv g (s.goto p .sleeping) := by
  have hwait : s.committing = true ∨ 0 < s.outstanding := by
    -- with no operation outstanding the log is empty and ten blocks fit
    by_contra hn
    simp only [not_or, Bool.not_eq_true] at hn
    obtain ⟨hc, ho⟩ := hn
    have hcount := inv.count
    have h0 : s.outstanding = 0 := by omega
    have hlh := (inv.idle hc up).2 h0
    simp [admits, hc, h0, hlh, MAXOPBLOCKS, LOGSIZE] at refused
  have hp : (s.proc p).pc ≠ .inOp := by rcases calls with h | h <;> simp [h]
  apply inv.goto
  · intro c; rcases calls with h | h <;> simp [h]
  · simp
  · intro _; exact inv.clean_of_ne hp
  · simp [hp]
  · intro q c hq; exact (inv.log q c hq).2.1
  · intro hc hb; exact (inv.idle hc hb).2
  · intro _ _; exact hwait

/-- The last operation ends: its process enters `commit` with every pin in place. -/
theorem commit {p : Fin n} (h : (s.proc p).pc = .inOp) (clean : (s.proc p).dirty = [])
    (hlast : s.outstanding = 1) :
    Inv g ({ s with outstanding := s.outstanding - 1, committing := true }.goto p (.log .commit)) := by
  obtain ⟨hc, hb⟩ := inv.quiet_of_inOp h
  have hne : ∀ q, q ≠ p → ({ s with outstanding := s.outstanding - 1, committing := true }.goto p
      (.log .commit)).proc q = s.proc q := fun q hq => setProc_ne _ _ _ _ hq
  have hself : ({ s with outstanding := s.outstanding - 1, committing := true }.goto p
      (.log .commit)).proc p = { s.proc p with pc := .log .commit } := setProc_self ..
  have honly : ∀ q c, (({ s with outstanding := s.outstanding - 1, committing := true }.goto p
      (.log .commit)).proc q).pc = .log c → q = p ∧ c = .commit := by
    intro q c hq
    by_cases hqp : q = p
    · subst hqp
      rw [hself] at hq
      exact ⟨rfl, by simpa using hq.symm⟩
    · rw [hne q hqp] at hq
      exact absurd hq (inv.no_log_of_inOp h q c)
  constructor
  · have hchange := opCount_change (s := s) p (fun q hq => by rw [hne q hq])
    have hold := inv.count
    rw [hself] at hchange
    simp only [h, if_true, reduceCtorEq, if_false, Nat.add_zero] at hchange
    show s.outstanding - 1 = _
    omega
  · intro q c hq
    obtain ⟨rfl, rfl⟩ := honly q c hq
    refine ⟨⟨⟨(s.proc q).held, by rw [hself]; rfl⟩, trivial, (inv.idle hc hb).1, hb.symm, ?_⟩, ?_, ?_⟩
    · intro r tail hr; cases hr
    · show s.outstanding - 1 = 0
      omega
    · show true = !s.booting
      rw [hb]; rfl
  · intro q q' c c' hq hq'
    rw [(honly q c hq).1, (honly q' c' hq').1]
  · intro _
    exact ⟨p, .commit, by rw [hself]⟩
  · intro hcc
    exact absurd hcc (by simp [State.goto])
  · intro q _
    exact Or.inl rfl
  · intro q b hbd
    by_cases hqp : q = p
    · subst hqp
      rw [hself] at hbd
      rw [clean] at hbd
      simp at hbd
    · rw [hne q hqp] at hbd ⊢
      exact inv.dirty q b hbd
  · exact inv.fits
  · intro b hbs
    rcases inv.sync b hbs with hs | ⟨q, hs⟩ | ⟨q, c, hq, -⟩
    · exact Or.inl hs
    · refine Or.inr (Or.inl ⟨q, ?_⟩)
      by_cases hqp : q = p
      · subst hqp; rw [hself]; exact hs
      · rw [hne q hqp]; exact hs
    · exact absurd hq (inv.no_log_of_inOp h q c)
  · exact inv.noPanic

theorem endOp {p : Fin n} (h : (s.proc p).pc = .inOp) (clean : (s.proc p).dirty = []) :
    Inv g (s.endOp p) := by
  obtain ⟨hc, hb⟩ := inv.quiet_of_inOp h
  have hpos := inv.outstanding_pos h
  by_cases hlast : s.outstanding - 1 = 0
  · rw [endOp_last hc hlast]
    exact inv.commit h clean (by omega)
  · rw [endOp_more hc hlast]
    apply inv.wakeup.goto
    · intro c; simp [State.wakeup, wake_pc, h]
    · simp
    · intro _; simpa [State.wakeup] using clean
    · simp [State.wakeup, h]
    · intro q c hq
      exact absurd ((wake_pc_log _ c).mp hq) (inv.no_log_of_inOp h q c)
    · intro _ _ h0; exact absurd h0 hlast
    · intro q _; right; omega

end Inv

theorem pinned_unpin {lh : List UInt32} {tail : Nat} (h : tail < lh.length) :
    (lh.drop tail).erase (lh.getD tail 0) = lh.drop (tail + 1) := by
  have hget : lh.getD tail 0 = lh[tail] := by simp [h]
  rw [List.drop_eq_getElem_cons h, hget, List.erase_cons_head]

/-- The call at a program point leads to the facts of the next one. -/
theorem At.next {s : State n} {p : Fin n} {c : LogPc} (hat : At g s p c)
    (hf : c ≠ .finish) (hr : c ≠ .recovered) :
    Located (effect g s c).lh (code g s.lh c).2 ∧
    (effect g s c).pins = pinned (effect g s c).lh (code g s.lh c).2 ∧
    recovery (code g s.lh c).2 = recovery c ∧
    ∀ r tail, (code g s.lh c).2 = .installTrans r tail .written →
      (effect g s c).mem ((effect g s c).lh.getD tail 0) =
        (effect g s c).disk ((effect g s c).lh.getD tail 0) := by
  have hloc := hat.located
  have hpins := hat.pins
  cases c with
  | commit =>
    by_cases h : 0 < s.lh.length
    · simp_all [code, effect, Located, pinned, recovery]
    · have hnil : s.lh = [] := by simpa using h
      simp_all [code, effect, Located, pinned, recovery]
  | writeLog tail pt =>
    rcases Nat.lt_or_ge tail s.lh.length with h | h
    · cases pt <;> simp_all [code, effect, Located, pinned, recovery] <;> omega
    · cases pt <;> simp_all [code, effect, Located, pinned, recovery, Nat.not_lt.mpr h]
  | writeHead call pt =>
    cases call <;> cases pt <;> simp_all [code, effect, Located, pinned, recovery]
  | installTrans recovering tail pt =>
    rcases Nat.lt_or_ge tail s.lh.length with h | h
    · have herase := pinned_unpin h
      cases recovering <;> cases pt <;> simp_all [code, effect, Located, pinned, recovery] <;> omega
    · cases recovering <;> cases pt <;>
        simp_all [code, effect, Located, pinned, recovery, Nat.not_lt.mpr h]
  | clear recovering =>
    cases recovering <;> simp_all [code, effect, Located, pinned, recovery]
  | finish => exact absurd rfl hf
  | readHead pt => cases pt <;> simp_all [code, effect, Located, pinned, recovery]
  | recovered => exact absurd rfl hr

/-- What the log code has stored it writes before it goes on. -/
theorem At.sync {s : State n} {p : Fin n} {c : LogPc} (hat : At g s p c)
    (hsync : ∀ b, s.mem b ≠ s.disk b → b ∈ s.pins ∨ b ∈ unwritten g s.lh c) (b : UInt32)
    (hb : (effect g s c).mem b ≠ (effect g s c).disk b) :
    b ∈ (effect g s c).pins ∨ b ∈ unwritten g (effect g s c).lh (code g s.lh c).2 := by
  have hset := hat.settled
  have hold := hsync b
  cases c with
  | commit => simp_all [effect, unwritten]
  | writeLog tail pt => cases pt <;> simp_all [effect, unwritten, code, Function.update_apply] <;> grind
  | writeHead call pt => cases pt <;> simp_all [effect, unwritten, code, Function.update_apply] <;> grind
  | installTrans recovering tail pt =>
    cases recovering <;> cases pt <;> simp_all [effect, unwritten, code, Function.update_apply] <;> grind
  | clear recovering => simp_all [effect, unwritten]
  | finish => simp_all [effect, unwritten, State.wakeup]
  | readHead pt => cases pt <;> simp_all [effect, unwritten]
  | recovered => simp_all [effect, unwritten]

/-- The data a step of the log code leaves alone. -/
theorem effect_frame (s : State n) {c : LogPc} (hf : c ≠ .finish) (hr : c ≠ .recovered) :
    (effect g s c).outstanding = s.outstanding ∧ (effect g s c).committing = s.committing ∧
    (effect g s c).booting = s.booting ∧ (effect g s c).panicked = s.panicked ∧
    (effect g s c).proc = s.proc := by
  cases c with
  | commit | clear => exact ⟨rfl, rfl, rfl, rfl, rfl⟩
  | writeLog tail pt => cases pt <;> exact ⟨rfl, rfl, rfl, rfl, rfl⟩
  | writeHead call pt => cases pt <;> exact ⟨rfl, rfl, rfl, rfl, rfl⟩
  | installTrans recovering tail pt =>
    cases recovering <;> cases pt <;> exact ⟨rfl, rfl, rfl, rfl, rfl⟩
  | readHead pt => cases pt <;> exact ⟨rfl, rfl, rfl, rfl, rfl⟩
  | finish => exact absurd rfl hf
  | recovered => exact absurd rfl hr

@[simp] theorem effect_panicked (s : State n) (c : LogPc) :
    (effect g s c).panicked = s.panicked := by
  unfold effect
  split <;> rfl

@[simp] theorem effect_outstanding (s : State n) (c : LogPc) :
    (effect g s c).outstanding = s.outstanding := by
  unfold effect
  split <;> rfl

theorem effect_pc_log (s : State n) (c d : LogPc) (q : Fin n) :
    ((effect g s c).proc q).pc = .log d ↔ (s.proc q).pc = .log d := by
  unfold effect
  split <;> simp [State.wakeup]

/-- `log.lh` shrinks to nothing, except in `read_head`. -/
theorem effect_lh (s : State n) {c : LogPc} (hc : recovery c = false) :
    (effect g s c).lh = s.lh ∨ (effect g s c).lh = [] := by
  cases c with
  | commit | finish | recovered => exact Or.inl rfl
  | clear => exact Or.inr rfl
  | writeLog tail pt => cases pt <;> exact Or.inl rfl
  | writeHead call pt => cases pt <;> exact Or.inl rfl
  | installTrans recovering tail pt => cases recovering <;> cases pt <;> exact Or.inl rfl
  | readHead pt => simp [recovery] at hc

namespace Inv
variable {s : State n} (inv : Inv g s)
include inv

/-- Only the process that ran the log code may still be in it. -/
theorem log_only {p q : Fin n} {c d : LogPc} {x : Proc} (h : (s.proc p).pc = .log c)
    (hq : (((effect g s c).setProc p x).proc q).pc = .log d) : q = p ∧ x.pc = .log d := by
  rw [setProc_proc] at hq
  split at hq
  · next hqp => exact ⟨hqp, hq⟩
  · next hqp =>
    rw [effect_pc_log] at hq
    exact absurd (inv.one q p d c hq h) hqp

theorem sync_of_log {p : Fin n} {c : LogPc} (h : (s.proc p).pc = .log c) (b : UInt32)
    (hb : s.mem b ≠ s.disk b) : b ∈ s.pins ∨ b ∈ unwritten g s.lh c := by
  rcases inv.sync b hb with hs | ⟨q, hs⟩ | ⟨q, c', hq, hs⟩
  · exact Or.inl hs
  · rw [inv.clean_of_log h q] at hs
    simp at hs
  · obtain rfl := inv.one p q c c' h hq
    rw [h] at hq
    cases hq
    exact Or.inr hs

theorem opCount_of_log {p : Fin n} {c : LogPc} (h : (s.proc p).pc = .log c) : opCount s = 0 := by
  have h0 := (inv.log p c h).2.1
  have hc := inv.count
  omega

theorem log_next {p : Fin n} {c : LogPc} (h : (s.proc p).pc = .log c) (hf : c ≠ .finish)
    (hr : c ≠ .recovered) (rest : List UInt32) :
    Inv g ((effect g s c).setProc p
      { pc := .log (code g s.lh c).2
        held := locals g (effect g s c).lh (code g s.lh c).2 ++ rest
        dirty := (s.proc p).dirty }) := by
  obtain ⟨hat, h0, hc⟩ := inv.log p c h
  obtain ⟨n₁, n₂, n₃, n₄⟩ := hat.next hf hr
  obtain ⟨e₁, e₂, e₃, e₄, e₅⟩ := effect_frame (g := g) s hf hr
  have hclean := inv.clean_of_log h
  have hpcs : ∀ q c', (((effect g s c).setProc p
      { pc := .log (code g s.lh c).2
        held := locals g (effect g s c).lh (code g s.lh c).2 ++ rest
        dirty := (s.proc p).dirty }).proc q).pc = .log c' → q = p ∧ c' = (code g s.lh c).2 := by
    intro q c' hq
    rw [setProc_proc] at hq
    split at hq
    · next hqp => exact ⟨hqp, by simpa using hq.symm⟩
    · next hqp =>
      rw [e₅] at hq
      exact absurd (inv.one q p c' c hq h) hqp
  constructor
  · rw [opCount_congr (s := s)]
    · rw [setProc_outstanding, e₁]
      exact inv.count
    · intro q
      rw [setProc_proc]
      split
      · next hqp => subst hqp; simp [h]
      · rw [e₅]
  · intro q c' hq
    obtain ⟨rfl, rfl⟩ := hpcs q c' hq
    refine ⟨⟨⟨rest, ?_⟩, n₁, n₂, ?_, n₄⟩, ?_, ?_⟩
    · rw [setProc_self, setProc_lh]
    · rw [n₃, setProc_booting, e₃]
      exact hat.mode
    · rw [setProc_outstanding, e₁]
      exact h0
    · rw [setProc_committing, setProc_booting, e₂, e₃]
      exact hc
  · intro q q' c₁ c₂ hq hq'
    rw [(hpcs q c₁ hq).1, (hpcs q' c₂ hq').1]
  · intro _
    exact ⟨p, _, by rw [setProc_self]⟩
  · intro hcc hbb
    rw [setProc_committing, e₂] at hcc
    rw [setProc_booting, e₃] at hbb
    simp [hcc, hbb] at hc
  · intro q hq
    rw [setProc_proc] at hq
    rw [setProc_committing, setProc_outstanding, e₁, e₂]
    split at hq
    · simp at hq
    · rw [e₅] at hq
      exact inv.asleep q hq
  · intro q b hb
    rw [setProc_proc] at hb
    split at hb
    · simp [hclean] at hb
    · rw [e₅, hclean q] at hb
      simp at hb
  · intro hbb
    rw [setProc_booting, e₃] at hbb
    have hfits := inv.fits hbb
    rw [setProc_lh]
    rcases effect_lh (g := g) s (hat.mode.trans hbb) with hl | hl <;> rw [hl]
    · exact hfits
    · simp
  · intro b hb
    rcases hat.sync (inv.sync_of_log h) b hb with hs | hs
    · exact Or.inl hs
    · exact Or.inr (Or.inr ⟨p, _, by rw [setProc_self], hs⟩)
  · rw [setProc_panicked, e₄]
    exact inv.noPanic

/-- The end of `end_op` or of recovery: the log is empty and everything is on disk. -/
theorem log_exit {p : Fin n} {c : LogPc} (h : (s.proc p).pc = .log c)
    (hend : c = .finish ∨ c = .recovered) (rest : List UInt32) :
    Inv g ((effect g s c).setProc p
      { pc := .out, held := rest, dirty := (s.proc p).dirty }) := by
  obtain ⟨hat, h0, hc⟩ := inv.log p c h
  have hloc := hat.located
  have hpins := hat.pins
  have hmode := hat.mode
  have hclean := inv.clean_of_log h
  have hcount := inv.opCount_of_log h
  have hlh : s.lh = [] := by rcases hend with rfl | rfl <;> exact hloc
  have hp0 : s.pins = [] := by rcases hend with rfl | rfl <;> exact hpins
  have hdata : (effect g s c).lh = [] ∧ (effect g s c).pins = [] ∧
      (effect g s c).outstanding = 0 ∧ (effect g s c).committing = false ∧
      (effect g s c).booting = false ∧ (effect g s c).mem = s.mem ∧ (effect g s c).disk = s.disk ∧
      (effect g s c).panicked = s.panicked := by
    rcases hend with rfl | rfl
    · have hb : s.booting = false := hmode.symm
      exact ⟨hlh, hp0, h0, rfl, hb, rfl, rfl, rfl⟩
    · have hb : s.booting = true := hmode.symm
      exact ⟨hlh, hp0, h0, hc.trans (by rw [hb]; rfl), rfl, rfl, rfl, rfl⟩
  obtain ⟨d₁, d₂, d₃, d₄, d₅, d₆, d₇, d₈⟩ := hdata
  have hpc : ∀ q, q ≠ p → ∀ c', ((effect g s c).proc q).pc ≠ .log c' := by
    intro q hqp c' hq
    have hq' : (s.proc q).pc = .log c' := by
      rcases hend with rfl | rfl
      · exact (wake_pc_log _ c').mp hq
      · exact hq
    exact hqp (inv.one q p c' c hq' h)
  have hin : ∀ q, ((effect g s c).proc q).pc ≠ .inOp := by
    intro q hq
    have hq' : (s.proc q).pc = .inOp := by
      rcases hend with rfl | rfl
      · exact (wake_pc_inOp _).mp hq
      · exact hq
    have hpos := opCount_pos hq'
    omega
  have hsl : ∀ q, ((effect g s c).proc q).pc ≠ .sleeping := by
    intro q hq
    rcases hend with rfl | rfl
    · exact wake_pc_sleeping _ hq
    · have hb : s.booting = true := hmode.symm
      rcases inv.asleep q hq with hcc | ho
      · simp [hb, hcc] at hc
      · omega
  have hdirty : ∀ q, ((effect g s c).proc q).dirty = [] := by
    intro q
    rcases hend with rfl | rfl
    · exact (wake_dirty _).trans (hclean q)
    · exact hclean q
  constructor
  · rw [setProc_outstanding, d₃]
    have hzero : opCount ((effect g s c).setProc p
        { pc := .out, held := rest, dirty := (s.proc p).dirty }) = 0 := by
      unfold opCount
      apply Finset.sum_eq_zero
      intro q _
      rw [setProc_proc]
      split
      · simp
      · simp [hin q]
    rw [hzero]
    rfl
  · intro q c' hq
    rw [setProc_proc] at hq
    split at hq
    · simp at hq
    · next hqp => exact absurd hq (hpc q hqp c')
  · intro q q' c₁ c₂ hq _
    rw [setProc_proc] at hq
    split at hq
    · simp at hq
    · next hqp => exact absurd hq (hpc q hqp c₁)
  · intro hr
    rw [setProc_committing, setProc_booting, d₄, d₅] at hr
    simp at hr
  · intro _ _
    rw [setProc_pins, setProc_lh, d₁, d₂]
    simp
  · intro q hq
    rw [setProc_proc] at hq
    split at hq
    · simp at hq
    · exact absurd hq (hsl q)
  · intro q b hb
    rw [setProc_proc] at hb
    split at hb
    · simp [hclean] at hb
    · simp [hdirty] at hb
  · intro _
    rw [setProc_lh, d₁]
    simp
  · intro b hb
    rw [setProc_mem, setProc_disk, d₆, d₇] at hb
    rcases inv.sync_of_log h b hb with hs | hs
    · simp [hp0] at hs
    · rcases hend with rfl | rfl <;> simp [unwritten] at hs
  · rw [setProc_panicked, d₈]
    exact inv.noPanic

theorem log_step {p : Fin n} {c c' : LogPc} {i : Instr} {l : Label n} {s' : State n}
    (h : (s.proc p).pc = .log c) (text : code g s.lh c = (i, c'))
    (does : s.exec p c c' i = some (l, s')) : Inv g s' := by
  obtain ⟨rest, hrest⟩ := (inv.log p c h).1.held
  obtain ⟨-, rfl, -⟩ := exec_effect hrest text does
  by_cases hend : c = .finish ∨ c = .recovered
  · have hx := inv.log_exit h hend rest
    rcases hend with rfl | rfl
    all_goals
      obtain ⟨-, rfl⟩ := Prod.mk.inj text
      exact hx
  · simp only [not_or] at hend
    have hx := inv.log_next h hend.1 hend.2 rest
    rw [text] at hx
    have hfol : following g s.lh c = .log c' := by
      unfold following
      split
      · exact absurd rfl hend.1
      · exact absurd rfl hend.2
      · rw [text]
    rw [hfol]
    exact hx

end Inv

theorem step_inv {s s' : State n} {l : Label n} (inv : Inv g s) (h : Step g s l s') : Inv g s' := by
  cases h with
  | stutter => exact inv
  | bread p b user =>
    apply inv.rehold
    · intro c hc; rcases user.2.2 with hp | hp <;> simp [hp] at hc
    · intro x hx; exact List.mem_cons_of_mem _ (inv.dirty p x hx).2
  | brelse p k b user held clean =>
    apply inv.rehold
    · intro c hc; rcases user.2.2 with hp | hp <;> simp [hp] at hc
    · intro x hx
      obtain ⟨j, hj⟩ := List.mem_iff_getElem?.mp (inv.dirty p x hx).2
      refine List.mem_eraseIdx_iff_getElem?.mpr ⟨j, ?_, hj⟩
      rintro rfl
      rw [hj] at held
      obtain rfl := Option.some.inj held
      exact clean hx
  | store p b d live inOp held => exact inv.store inOp held d
  | logWrite p b live inOp held => exact inv.logWrite inOp
  | beginOp p live up calls admitted => exact inv.beginOp up calls admitted
  | sleep p live up calls refused => exact inv.sleep up calls refused
  | endOp p live inOp clean => exact inv.endOp inOp clean
  | log _ p c c' i _ live here text does => exact inv.log_step here text does
  | noBuffers live =>
    exact ⟨inv.count, fun p c hp => ⟨⟨(inv.log p c hp).1.held, (inv.log p c hp).1.located,
      (inv.log p c hp).1.pins, (inv.log p c hp).1.mode, (inv.log p c hp).1.settled⟩,
      (inv.log p c hp).2⟩, inv.one, inv.running, inv.idle, inv.asleep, inv.dirty, inv.fits,
      inv.sync, by simp⟩

/-- The log code begins no operation and logs no block. -/
theorem shown_ne (s : State n) (p : Fin n) (c : LogPc) :
    (∀ q, shown g s p c ≠ .beginOp q) ∧ ∀ q b, shown g s p c ≠ .logWrite q b := by
  unfold shown
  split <;> try split
  all_goals simp

theorem Step.of_beginOp {s s' : State n} {p : Fin n} (inv : Inv g s)
    (h : Step g s (.beginOp p) s') : admits s.committing s.lh s.outstanding = true := by
  cases h with
  | beginOp _ live up calls admitted => exact admitted
  | log _ q c c' i _ live here text does =>
    obtain ⟨rest, held⟩ := (inv.log q c here).1.held
    exact absurd (exec_effect held text does).1.symm ((shown_ne s q c).1 p)

theorem Step.of_logWrite {s s' : State n} {p : Fin n} {b : UInt32} (inv : Inv g s)
    (h : Step g s (.logWrite p b) s') : (s.proc p).pc = .inOp := by
  cases h with
  | logWrite _ _ live inOp held => exact inOp
  | log _ q c c' i _ live here text does =>
    obtain ⟨rest, held⟩ := (inv.log q c here).1.held
    exact absurd (exec_effect held text does).1.symm ((shown_ne s q c).2 p b)

theorem Step.of_bread {s s' : State n} {p : Fin n} {b : UInt32} {d : Block} (inv : Inv g s)
    (h : Step g s (.bread p b d) s') : d = s.mem b := by
  cases h with
  | bread _ _ user => rfl
  | log _ q c c' i _ live here text does =>
    obtain ⟨rest, held⟩ := (inv.log q c here).1.held
    have hshown := (exec_effect held text does).1
    unfold shown at hshown
    split at hshown <;> try split at hshown
    all_goals cases hshown
    all_goals rfl

theorem boot_inv (p₀ : Fin n) (disk : UInt32 → Block) : Inv g (boot p₀ disk) := by
  have hlog : ∀ q c, ((boot p₀ disk).proc q).pc = .log c → q = p₀ ∧ c = .readHead .entry := by
    intro q c hq
    simp only [boot] at hq
    split at hq
    · next hqp => exact ⟨hqp, by simpa using hq.symm⟩
    · simp at hq
  have hpc : ∀ q, ((boot p₀ disk).proc q).pc ≠ .inOp ∧ ((boot p₀ disk).proc q).pc ≠ .sleeping := by
    intro q
    simp only [boot]
    split <;> simp
  constructor
  · have hzero : opCount (boot p₀ disk) = 0 := by
      unfold opCount
      apply Finset.sum_eq_zero
      intro q _
      simp [(hpc q).1]
    rw [hzero]
    rfl
  · intro q c hq
    obtain ⟨rfl, rfl⟩ := hlog q c hq
    exact ⟨⟨⟨[], rfl⟩, trivial, rfl, rfl, by simp⟩, rfl, rfl⟩
  · intro q q' c c' hq hq'
    rw [(hlog q c hq).1, (hlog q' c' hq').1]
  · intro _
    exact ⟨p₀, .readHead .entry, by simp [boot]⟩
  · intro _ hb
    simp [boot] at hb
  · intro q hq
    exact absurd hq (hpc q).2
  · intro q b hb
    simp [boot] at hb
  · intro hb
    simp [boot] at hb
  · intro b hb
    exact absurd rfl hb
  · simp [boot]

end Xv6.Kernel.FlatLog
