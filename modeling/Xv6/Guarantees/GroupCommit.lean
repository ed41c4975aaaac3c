import Xv6.Kernel.Refinement
import Xv6.Kernel.Schedule

/-!
# Group commit

What holds in every state the operations can reach: the counter, the flag, the header
in memory and the pins on the buffers. `install_trans` unpins the logged blocks one by
one before the header is cleared, so a logged block has its pin until then only.
-/
namespace Xv6.Guarantees.GroupCommit
open Xv6.Source Xv6.Library.Transition Xv6.Kernel Xv6.Kernel.BlockLayer
open Xv6.Kernel.FlatLog (Label Inv)

variable {n : Nat} {g : Geometry}

/-- How many references of a buffer are pins: those that no process accounts for. -/
def pins (s : State n) (i : Fin NBUF) : Nat := (s.cache.buf i).refcnt - users s.use i

/-- The pins are distinct: they are part of the header in memory. -/
theorem pins_nodup {a : FlatLog.State n} (inv : Inv g a) (up : a.booting = false) : a.pins.Nodup := by
  have hlh := (inv.fits up).1
  cases hc : a.committing with
  | false =>
    rw [(inv.idle hc up).1]
    exact hlh
  | true =>
    obtain ⟨p, c, hp⟩ := inv.running (Or.inl hc)
    rw [(inv.log p c hp).1.pins]
    exact hlh.sublist (FlatLog.pinned_sublist _ _)

/-- The reference count of the buffer that caches a block. -/
theorem refcnt_eq {s : State n} {a : FlatLog.State n} (inv : Inv g a) (sim : Sim g s a)
    (up : s.booting = false) {b : UInt32} (hb : b ∈ s.lh) {i : Fin NBUF} (hi : Caches s.cache i b) :
    (Pinned s b → pins s i = 1) ∧ (¬ Pinned s b → pins s i = 0) := by
  have hcount := sim.cache.counted i b hi
  have hup : a.booting = false := by rw [sim.booting, up]
  rw [pinned_iff inv sim up hb]
  unfold pins
  constructor
  · intro h
    have hone := List.count_eq_one_of_mem (pins_nodup inv hup) h
    omega
  · intro h
    have hzero := List.count_eq_zero.mpr h
    omega

/-- The group commit protocol. -/
structure Protocol (g : Geometry) (s : State n) : Prop where
  /-- While a commit runs no operation is open, admitted or logging. -/
  alone : s.committing = true → s.outstanding = 0 ∧
    admits s.committing s.lh s.outstanding = false ∧
    ∀ l s', Step g s l s' → (∀ p, l ≠ .beginOp p) ∧ ∀ p b, l ≠ .logWrite p b
  noPanic : s.panicked ≠ some .logCommitting ∧ s.panicked ≠ some .outsideOfTrans
  distinct : s.lh.Nodup
  /-- A logged block sits in exactly one buffer, with exactly one pin. -/
  pinned : ∀ b, Pinned s b → ∃ i, (∀ j, Caches s.cache j b ↔ j = i) ∧ pins s i = 1
  /-- What `install_trans` has unpinned has no pin left. -/
  unpinned : ∀ b ∈ s.lh, ¬ Pinned s b → ∀ i, Caches s.cache i b → pins s i = 0
  empty : s.outstanding = 0 → s.committing = false → s.lh = []
  awake : ∀ p, (s.proc p).pc = .sleeping → s.committing = true ∨ 0 < s.outstanding

/-- The protocol holds in every state reachable once recovery is over. -/
theorem group_commit_protocol {p₀ : Fin n} {disk : UInt32 → Block} {tr : List (Label n)} {s : State n}
    (run : Run (Step g) (boot p₀ disk) tr s) (up : s.booting = false) : Protocol g s := by
  obtain ⟨a, -, inv, sim⟩ := run_sim run
  have hup : a.booting = false := by rw [sim.booting, up]
  constructor
  · intro hc
    obtain ⟨q, c, hq⟩ := inv.running (Or.inl (by rw [sim.committing, hc]))
    have hzero : a.outstanding = 0 := (inv.log q c hq).2.1
    have hrefused : admits s.committing s.lh s.outstanding = false := by simp [admits, hc]
    refine ⟨by rw [← sim.outstanding, hzero], hrefused, ?_⟩
    intro l s' hstep
    obtain ⟨a', hflat, -⟩ := sim.step inv hstep
    constructor
    · rintro p rfl
      have hadmitted := hflat.of_beginOp inv
      rw [sim.committing, sim.lh, sim.outstanding, hrefused] at hadmitted
      cases hadmitted
    · rintro p b rfl
      exact inv.no_log_of_inOp (hflat.of_logWrite inv) q c hq
  · rw [← sim.panicked]
    exact inv.noPanic
  · rw [← sim.lh]
    exact (inv.fits hup).1
  · intro b h
    obtain ⟨i, hi, -⟩ := sim.cache.pinned b ((pinned_iff inv sim up h.1).mp h)
    refine ⟨i, fun j => ⟨fun hj => sim.cache.uniq j i b hj hi, ?_⟩, (refcnt_eq inv sim up h.1 hi).1 h⟩
    rintro rfl
    exact hi
  · intro b hb h i hi
    exact (refcnt_eq inv sim up hb hi).2 h
  · intro h0 hc
    rw [← sim.lh]
    refine (inv.idle ?_ hup).2 ?_
    · rw [sim.committing, hc]
    · rw [sim.outstanding, h0]
  · intro p hp
    rw [← sim.committing, ← sim.outstanding]
    rw [← sim.pc p] at hp
    exact inv.asleep p hp

theorem group_commit_protocol_logged : ∃ (tr : List (Label 1)) (s : State 1),
    Run (Step .mkfs) (boot 0 fun _ _ => 0) tr s ∧ s.booting = false ∧ s.lh = [100] ∧
    Protocol .mkfs s := by
  obtain ⟨tr, s, hrun, hok⟩ := perform_reaches (g := .mkfs) (s := boot (0 : Fin 1) fun _ _ => 0)
    [recoversEmpty .mkfs 0, [.beginOp 0], breads 0 100, [.logWrite 0 0]].flatten
    (fun r => decide (r.2.booting = false ∧ r.2.lh = [100])) (by decide +kernel)
  obtain ⟨hup, hlh⟩ := of_decide_eq_true hok
  exact ⟨tr, s, hrun, hup, hlh, group_commit_protocol hrun hup⟩

/-- One operation logs block 100 and commits, up to the `bunpin` of `install_trans`. -/
def unpins (p : Fin 1) : List (Action 1) := List.flatten
  [recoversEmpty .mkfs p, [.beginOp p], breads p 100, [.logWrite p 0], brelses p 0,
    [.endOp p, .log p], breads p 3, breads p 100,
    [.log p, .log p, .log p, .unref p, .log p, .unref p, .log p],
    breads p 2, [.log p, .log p, .log p, .unref p], breads p 3, breads p 100,
    [.log p, .log p, .log p]]

/-- Inside `install_trans` a block of the header has lost its pin. -/
theorem logged_block_without_pin : ∃ (tr : List (Label 1)) (s : State 1),
    Run (Step .mkfs) (boot 0 fun _ _ => 0) tr s ∧ s.booting = false ∧ s.panicked = none ∧
    ∃ b ∈ s.lh, ∃ i, Caches s.cache i b ∧ pins s i = 0 := by
  obtain ⟨tr, s, hrun, hok⟩ := perform_reaches (g := .mkfs) (s := boot (0 : Fin 1) fun _ _ => 0)
    (unpins 0) (fun r => decide (r.2.booting = false ∧ r.2.panicked = none ∧
      ∃ b ∈ r.2.lh, ∃ i, Caches r.2.cache i b ∧ pins r.2 i = 0)) (by decide +kernel)
  exact ⟨tr, s, hrun, of_decide_eq_true hok⟩

end Xv6.Guarantees.GroupCommit
