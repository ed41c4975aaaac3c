import Xv6.Kernel.Refinement
import Xv6.Kernel.Schedule

/-!
# Log space reservation

`begin_op` reserves MAXOPBLOCKS blocks for every operation against LOGSIZE, while
`log_write` panics at `log.size - 1` blocks, and does so before it looks for a block
to absorb. On the log that `mkfs` makes, three operations of MAXOPBLOCKS distinct
blocks are admitted together and the thirtieth block panics.
-/
namespace Xv6.Guarantees.LogReservation
open Xv6.Source Xv6.Library.Transition Xv6.Kernel Xv6.Kernel.BlockLayer
open Xv6.Kernel.FlatLog (Label Inv opCount)

variable {n : Nat} {g : Geometry}

/-- Kept along a run: the distinct blocks logged since the last commit, and whether
every `log_write` so far found fewer than `log.size - 1` of them. -/
structure Pending where
  blocks : List UInt32
  roomy : Bool
  deriving DecidableEq, Repr

def Pending.step (g : Geometry) (k : Pending) : Label n → Pending
  | .logWrite _ b =>
    { blocks := if b ∈ k.blocks then k.blocks else k.blocks ++ [b]
      roomy := k.roomy && decide (k.blocks.length < LOGSIZE ∧ k.blocks.length + 1 < g.size) }
  | .commit => { k with blocks := [] }
  | _ => k

/-- Kept along a run: the distinct blocks each process has logged in its operation, and
whether no operation so far logged more than `limit`. -/
structure Logged (n : Nat) where
  blocks : Fin n → List UInt32
  within : Bool

def Logged.step (limit : Nat) (k : Logged n) : Label n → Logged n
  | .beginOp p => { k with blocks := Function.update k.blocks p [] }
  | .logWrite p b =>
    { blocks := Function.update k.blocks p ((k.blocks p).insert b)
      within := k.within && decide (((k.blocks p).insert b).length ≤ limit) }
  | _ => k

/-- Every operation of a run logs at most `limit` distinct blocks. -/
def Within (limit : Nat) (tr : List (Label n)) : Prop :=
  (tr.foldl (Logged.step limit) ⟨fun _ => [], true⟩).within = true

/-- Every `log_write` of a run is issued with room in the log. -/
def Roomy (g : Geometry) (tr : List (Label n)) : Prop :=
  (tr.foldl (Pending.step g) ⟨[], true⟩).roomy = true

/-- The program points of `commit` up to the first `write_head` on the disk. -/
def uncommitted : LogPc → Bool
  | .commit | .writeLog _ _ | .writeHead .commit .entry | .writeHead .commit .gotBuf
  | .writeHead .commit .stored => true
  | _ => false

/-- The header in memory is the list of pending blocks until they are committed. -/
structure Counted (g : Geometry) (s : FlatLog.State n) (k : Pending) : Prop where
  base : Inv g s
  idle : s.panicked ≠ some .tooBig → s.committing = false → s.booting = false → s.lh = k.blocks
  log : ∀ p c, (s.proc p).pc = .log c → k.blocks = if uncommitted c then s.lh else []
  panicked : s.panicked = some .tooBig ↔ k.roomy = false

theorem Pending.step_shown_roomy (s : FlatLog.State n) (p : Fin n) (c : LogPc) (k : Pending) :
    (k.step g (FlatLog.shown g s p c)).roomy = k.roomy := by
  unfold FlatLog.shown
  split <;> try split
  all_goals rfl

/-- The pending blocks follow the log code: the disk write of the header takes them. -/
theorem Pending.step_shown {s : FlatLog.State n} {p : Fin n} {c : LogPc} {k : Pending}
    (hk : k.blocks = if uncommitted c then s.lh else []) :
    (k.step g (FlatLog.shown g s p c)).blocks =
      if uncommitted (code g s.lh c).2 then (FlatLog.effect g s c).lh else [] := by
  cases c with
  | commit =>
    by_cases h : 0 < s.lh.length
    · simp [code, h, FlatLog.shown, FlatLog.effect, Pending.step, uncommitted, hk]
    · have hnil : s.lh = [] := by simpa using h
      simp [code, hnil, FlatLog.shown, Pending.step, uncommitted, hk]
  | writeLog tail pt =>
    cases pt with
    | test =>
      by_cases h : tail < s.lh.length <;>
        simpa [code, h, FlatLog.shown, FlatLog.effect, Pending.step, uncommitted] using hk
    | _ => simpa [code, FlatLog.shown, FlatLog.effect, Pending.step, uncommitted] using hk
  | writeHead call pt =>
    cases call <;> cases pt <;>
      simp_all [code, FlatLog.shown, FlatLog.effect, Pending.step, uncommitted]
  | installTrans recovering tail pt =>
    cases pt with
    | test =>
      by_cases h : tail < s.lh.length <;>
        simpa [code, h, FlatLog.shown, FlatLog.effect, Pending.step, uncommitted] using hk
    | _ =>
      cases recovering <;>
        simpa [code, FlatLog.shown, FlatLog.effect, Pending.step, uncommitted] using hk
  | clear recovering =>
    cases recovering <;>
      simpa [code, FlatLog.shown, FlatLog.effect, Pending.step, uncommitted] using hk
  | finish => simpa [code, FlatLog.shown, FlatLog.effect, Pending.step, uncommitted] using hk
  | readHead pt =>
    cases pt <;> simpa [code, FlatLog.shown, FlatLog.effect, Pending.step, uncommitted] using hk
  | recovered => simpa [code, FlatLog.shown, FlatLog.effect, Pending.step, uncommitted] using hk

theorem logWriteCheck_tooBig (lh : List UInt32) {outstanding : Int} (h : 0 < outstanding) :
    logWriteCheck g lh outstanding =
      if lh.length < LOGSIZE ∧ lh.length + 1 < g.size then none else some .tooBig := by
  unfold logWriteCheck
  split
  · next hbig => rw [if_neg (by omega)]
  · next hbig => rw [if_neg (by omega), if_pos (by omega)]

/-- A process whose program point changes outside the log code. -/
theorem setProc_log {s : FlatLog.State n} {p q : Fin n} {x : FlatLog.Proc} {c : LogPc}
    (hx : x.pc = .log c → (s.proc p).pc = .log c)
    (h : ((s.setProc p x).proc q).pc = .log c) : (s.proc q).pc = .log c := by
  rw [FlatLog.setProc_proc] at h
  split at h
  · next hq => subst hq; exact hx h
  · exact h

namespace Counted
variable {s : FlatLog.State n} {k : Pending} (counted : Counted g s k)
include counted

theorem roomy_of_live (live : s.panicked = none) : k.roomy = true := by
  have h := counted.panicked
  rw [live] at h
  simpa using h

/-- Steps that leave the log alone. -/
theorem frame {s' : FlatLog.State n} (base : Inv g s') (lh : s'.lh = s.lh)
    (quiet : s'.committing = false → s'.booting = false → s.committing = false ∧ s.booting = false)
    (pc : ∀ q c, (s'.proc q).pc = .log c → (s.proc q).pc = .log c)
    (panicked : s'.panicked = some .tooBig ↔ s.panicked = some .tooBig) : Counted g s' k := by
  refine ⟨base, ?_, ?_, panicked.trans counted.panicked⟩
  · intro hp hc hb
    rw [lh]
    exact counted.idle (fun h => hp (panicked.mpr h)) (quiet hc hb).1 (quiet hc hb).2
  · intro q c hq
    rw [lh]
    exact counted.log q c (pc q c hq)

theorem logWrite {p : Fin n} {b : UInt32} (live : s.panicked = none)
    (inOp : (s.proc p).pc = .inOp) (base : Inv g (s.logWrite g p b)) :
    Counted g (s.logWrite g p b) (k.step g (.logWrite p b)) := by
  obtain ⟨hc, hb⟩ := counted.base.quiet_of_inOp inOp
  have hlh := counted.idle (by simp [live]) hc hb
  have hroomy := counted.roomy_of_live live
  have hcheck := logWriteCheck_tooBig (g := g) s.lh (counted.base.outstanding_pos inOp)
  have hnolog : ∀ q c, ((s.logWrite g p b).proc q).pc ≠ .log c := by
    intro q c
    rw [FlatLog.logWrite_pc]
    exact counted.base.no_log_of_inOp inOp q c
  by_cases hfits : s.lh.length < LOGSIZE ∧ s.lh.length + 1 < g.size
  · rw [if_pos hfits] at hcheck
    obtain ⟨hlh', hpanic⟩ := FlatLog.logWrite_ok p b hcheck
    refine ⟨base, ?_, fun q c hq => absurd hq (hnolog q c), ?_⟩
    · intro _ _ _
      simp only [hlh', Pending.step, ← hlh]
      split
      · next hmem => rw [absorb_of_mem hmem]
      · next hmem => rw [absorb_of_not_mem hmem]
    · simp [hpanic, live, Pending.step, hroomy, ← hlh, hfits]
  · rw [if_neg hfits] at hcheck
    have hpanic := FlatLog.logWrite_panics p b hcheck
    refine ⟨base, ?_, fun q c hq => absurd hq (hnolog q c), ?_⟩
    · intro h
      simp [hpanic] at h
    · simp [hpanic, Pending.step, hroomy, ← hlh, hfits]

theorem endOp {p : Fin n} (live : s.panicked = none) (inOp : (s.proc p).pc = .inOp) (base : Inv g (s.endOp p)) :
    Counted g (s.endOp p) k := by
  obtain ⟨hc, hb⟩ := counted.base.quiet_of_inOp inOp
  by_cases hlast : s.outstanding - 1 = 0
  · rw [FlatLog.endOp_last hc hlast] at base ⊢
    refine ⟨base, ?_, ?_, counted.panicked⟩
    · intro _ h
      cases h
    · intro q c hq
      simp only [FlatLog.State.goto, FlatLog.setProc_proc] at hq
      split at hq
      · cases hq
        exact (counted.idle (by simp [live]) hc hb).symm
      · exact absurd hq (counted.base.no_log_of_inOp inOp q c)
  · rw [FlatLog.endOp_more hc hlast] at base ⊢
    refine counted.frame base rfl (fun _ _ => ⟨hc, hb⟩) ?_ Iff.rfl
    intro q c hq
    have hawake := setProc_log (s := { s.wakeup with outstanding := s.outstanding - 1 }) (by simp) hq
    simpa [FlatLog.State.wakeup] using hawake

theorem logStep {p : Fin n} {c c' : LogPc} {i : Instr} {l : Label n} {s' : FlatLog.State n}
    (here : (s.proc p).pc = .log c) (text : code g s.lh c = (i, c'))
    (does : s.exec p c c' i = some (l, s')) (base : Inv g s') : Counted g s' (k.step g l) := by
  obtain ⟨hat, -, hmode⟩ := counted.base.log p c here
  obtain ⟨rest, held⟩ := hat.held
  obtain ⟨rfl, rfl, -⟩ := FlatLog.exec_effect held text does
  have hk := counted.log p c here
  refine ⟨base, ?_, ?_, ?_⟩
  · intro _ hc hb
    by_cases hend : c = .finish ∨ c = .recovered
    · -- the log code ends, with the header cleared
      rcases hend with rfl | rfl
      all_goals
        have hnil : s.lh = [] := hat.located
        exact hnil.trans hk.symm
    · simp only [not_or] at hend
      obtain ⟨-, hcommit, hboot, -, -⟩ := FlatLog.effect_frame (g := g) s hend.1 hend.2
      have hc' : s.committing = false := hcommit.symm.trans hc
      have hb' : s.booting = false := hboot.symm.trans hb
      simp [hc', hb'] at hmode
  · intro q d hq
    obtain ⟨-, hd⟩ := counted.base.log_only here hq
    have hnext : d = (code g s.lh c).2 := by
      have hfollow : FlatLog.following g s.lh c = .log d := hd
      unfold FlatLog.following at hfollow
      split at hfollow <;> cases hfollow
      rfl
    subst hnext
    exact Pending.step_shown hk
  · rw [Pending.step_shown_roomy, FlatLog.setProc_panicked, FlatLog.effect_panicked]
    exact counted.panicked

end Counted

theorem counted_step {s s' : FlatLog.State n} {k : Pending} {l : Label n} (counted : Counted g s k)
    (hstep : FlatLog.Step g s l s') : Counted g s' (k.step g l) := by
  have base := FlatLog.step_inv counted.base hstep
  cases hstep with
  | stutter => exact counted
  | bread p b user =>
    exact counted.frame base rfl (fun h h' => ⟨h, h'⟩) (fun _ _ => setProc_log id) Iff.rfl
  | brelse p k b user held clean =>
    exact counted.frame base rfl (fun h h' => ⟨h, h'⟩) (fun _ _ => setProc_log id) Iff.rfl
  | store p b d live inOp held =>
    exact counted.frame base rfl (fun h h' => ⟨h, h'⟩) (fun _ _ => setProc_log id) Iff.rfl
  | logWrite p b live inOp held => exact counted.logWrite live inOp base
  | beginOp p live up calls admitted =>
    exact counted.frame base rfl (fun h h' => ⟨h, h'⟩)
      (fun _ _ => setProc_log (s := { s with outstanding := s.outstanding + 1 }) (by simp)) Iff.rfl
  | sleep p live up calls refused =>
    exact counted.frame base rfl (fun h h' => ⟨h, h'⟩) (fun _ _ => setProc_log (by simp)) Iff.rfl
  | endOp p live inOp clean => exact counted.endOp live inOp base
  | log _ p c c' i _ live here text does => exact counted.logStep here text does base
  | noBuffers live =>
    exact counted.frame base rfl (fun h h' => ⟨h, h'⟩) (fun _ _ h => h) (by simp [live])

theorem counted_run {p₀ : Fin n} {disk : UInt32 → Block} {tr : List (Label n)} {s : FlatLog.State n}
    (run : Run (FlatLog.Step g) (FlatLog.boot p₀ disk) tr s) :
    Counted g s (tr.foldl (Pending.step g) ⟨[], true⟩) := by
  refine Run.record (I := Counted g) ?_ ?_ run
  · refine ⟨FlatLog.boot_inv p₀ disk, ?_, ?_, by simp [FlatLog.boot]⟩
    · intro _ _ h
      cases h
    · intro q c hq
      simp only [FlatLog.boot] at hq
      split at hq
      · cases hq
        rfl
      · cases hq
  · intro s k l s' counted hstep
    exact counted_step counted hstep

/-- What the running operations may still log. -/
def spare (limit : Nat) (s : FlatLog.State n) (k : Logged n) : Nat :=
  ∑ p, if (s.proc p).pc = .inOp then limit - (k.blocks p).length else 0

/-- What is logged and what may still be logged fits below `log.size - 1`. -/
structure Reserved (g : Geometry) (limit : Nat) (s : FlatLog.State n) (k : Logged n) : Prop where
  base : Inv g s
  live : s.panicked ≠ some .tooBig
  logged : ∀ p, (s.proc p).pc = .inOp → (k.blocks p).length ≤ limit ∧ ∀ b ∈ k.blocks p, b ∈ s.lh
  fits : s.committing = false → s.booting = false → s.lh.length + spare limit s k ≤ LOGSIZE - 2

theorem spare_change (limit : Nat) (s s' : FlatLog.State n) (k k' : Logged n) (p : Fin n)
    (h : ∀ q, q ≠ p → k'.blocks q = k.blocks q ∧
      ((s'.proc q).pc = .inOp ↔ (s.proc q).pc = .inOp)) :
    spare limit s' k' + (if (s.proc p).pc = .inOp then limit - (k.blocks p).length else 0) =
      spare limit s k + (if (s'.proc p).pc = .inOp then limit - (k'.blocks p).length else 0) := by
  apply sum_change (fun q => if (s.proc q).pc = .inOp then limit - (k.blocks q).length else 0)
    (fun q => if (s'.proc q).pc = .inOp then limit - (k'.blocks q).length else 0) p
  intro q hq
  simp only [(h q hq).1, (h q hq).2]

theorem spare_congr {limit : Nat} {s s' : FlatLog.State n} {k : Logged n}
    (h : ∀ q, (s'.proc q).pc = .inOp ↔ (s.proc q).pc = .inOp) :
    spare limit s' k = spare limit s k := by
  unfold spare
  simp only [h]

theorem spare_le (limit : Nat) (s : FlatLog.State n) (k : Logged n) :
    spare limit s k ≤ limit * opCount s := by
  unfold spare opCount
  rw [Finset.mul_sum]
  apply Finset.sum_le_sum
  intro q _
  split <;> simp

theorem Logged.step_shown (limit : Nat) (s : FlatLog.State n) (p : Fin n) (c : LogPc) (k : Logged n) :
    k.step limit (FlatLog.shown g s p c) = k := by
  unfold FlatLog.shown
  split <;> try split
  all_goals rfl

namespace Reserved
variable {limit : Nat} {s : FlatLog.State n} {k : Logged n} (reserved : Reserved g limit s k)
include reserved

/-- Steps that leave the log and the operations alone. -/
theorem frame {s' : FlatLog.State n} (base : Inv g s') (lh : s'.lh = s.lh)
    (quiet : s'.committing = false → s'.booting = false → s.committing = false ∧ s.booting = false)
    (pc : ∀ q, (s'.proc q).pc = .inOp ↔ (s.proc q).pc = .inOp)
    (panicked : s'.panicked ≠ some .tooBig) : Reserved g limit s' k := by
  refine ⟨base, panicked, ?_, ?_⟩
  · intro p hp
    rw [lh]
    exact reserved.logged p ((pc p).mp hp)
  · intro hc hb
    rw [lh, spare_congr pc]
    exact reserved.fits (quiet hc hb).1 (quiet hc hb).2

/-- `begin_op` admits an operation with MAXOPBLOCKS blocks for each one running. -/
theorem beginOp (hlimit : limit < MAXOPBLOCKS) {p : Fin n}
    (calls : (s.proc p).pc = .out ∨ (s.proc p).pc = .entering)
    (admitted : admits s.committing s.lh s.outstanding = true)
    (base : Inv g ({ s with outstanding := s.outstanding + 1 }.goto p .inOp)) :
    Reserved g limit ({ s with outstanding := s.outstanding + 1 }.goto p .inOp)
      (k.step limit (.beginOp p)) := by
  have hnot : (s.proc p).pc ≠ .inOp := by rcases calls with h | h <;> simp [h]
  have hproc : ∀ q, (({ s with outstanding := s.outstanding + 1 }.goto p .inOp).proc q).pc =
      if q = p then .inOp else (s.proc q).pc := by
    intro q
    simp only [FlatLog.State.goto, FlatLog.setProc_proc]
    split <;> rfl
  refine ⟨base, reserved.live, ?_, ?_⟩
  · intro q hq
    simp only [Logged.step, Function.update_apply]
    split
    · simp
    · next h =>
      rw [hproc, if_neg h] at hq
      exact reserved.logged q hq
  · intro hc hb
    have hsum := spare_change limit s ({ s with outstanding := s.outstanding + 1 }.goto p .inOp) k
      (k.step limit (.beginOp p)) p
      (fun q hq => ⟨Function.update_of_ne hq .., by rw [hproc, if_neg hq]⟩)
    have hle := spare_le limit s k
    have hcount := reserved.base.count
    have hidle := (reserved.base.idle hc hb).2
    have hmul : limit * opCount s ≤ 9 * opCount s := Nat.mul_le_mul_right _ (Nat.le_of_lt_succ hlimit)
    have hM : MAXOPBLOCKS = 10 := rfl
    have hL : LOGSIZE = 30 := rfl
    simp only [admits, Bool.and_eq_true, Bool.not_eq_true', decide_eq_false_iff_not, not_lt, hM,
      hL] at admitted
    have hblocks : (k.step limit (.beginOp p)).blocks p = [] := Function.update_self ..
    rw [hproc, if_pos rfl, if_pos rfl, if_neg hnot, hblocks, List.length_nil] at hsum
    show s.lh.length + _ ≤ _
    by_cases h0 : s.outstanding = 0
    · have hnil : s.lh.length = 0 := by rw [hidle h0]; rfl
      omega
    · omega

theorem logWrite (hsize : LOGSIZE ≤ g.size) {p : Fin n} {b : UInt32} (inOp : (s.proc p).pc = .inOp)
    (within : ((k.blocks p).insert b).length ≤ limit) (base : Inv g (s.logWrite g p b)) :
    Reserved g limit (s.logWrite g p b) (k.step limit (.logWrite p b)) := by
  obtain ⟨hc, hb⟩ := reserved.base.quiet_of_inOp inOp
  have hfits := reserved.fits hc hb
  have hL : LOGSIZE = 30 := rfl
  have hcheck : logWriteCheck g s.lh s.outstanding = none := by
    rw [logWriteCheck_tooBig s.lh (reserved.base.outstanding_pos inOp), if_pos (by omega)]
  obtain ⟨hlh, hpanic⟩ := FlatLog.logWrite_ok p b hcheck
  obtain ⟨hlen, hsub⟩ := reserved.logged p inOp
  have hkept : s.lh ⊆ (absorb s.lh b).1 ∧ b ∈ (absorb s.lh b).1 := by
    by_cases h : b ∈ s.lh
    · rw [absorb_of_mem h]
      exact ⟨List.Subset.refl _, h⟩
    · rw [absorb_of_not_mem h]
      simp
  have hblocks : (k.step limit (.logWrite p b)).blocks p = (k.blocks p).insert b :=
    Function.update_self ..
  have hothers : ∀ q, q ≠ p → (k.step limit (.logWrite p b)).blocks q = k.blocks q :=
    fun q hq => Function.update_of_ne hq ..
  refine ⟨base, by rw [hpanic]; exact reserved.live, ?_, ?_⟩
  · intro q hq
    rw [FlatLog.logWrite_pc] at hq
    rw [hlh]
    by_cases h : q = p
    · subst h
      rw [hblocks]
      refine ⟨within, ?_⟩
      intro x hx
      rcases List.mem_insert_iff.mp hx with rfl | hx
      · exact hkept.2
      · exact hkept.1 (hsub x hx)
    · rw [hothers q h]
      exact ⟨(reserved.logged q hq).1, fun x hx => hkept.1 ((reserved.logged q hq).2 x hx)⟩
  · intro _ _
    have hsum := spare_change limit s (s.logWrite g p b) k (k.step limit (.logWrite p b)) p
      (fun q hq => ⟨hothers q hq, by rw [FlatLog.logWrite_pc]⟩)
    rw [FlatLog.logWrite_pc, if_pos inOp, if_pos inOp, hblocks] at hsum
    rw [hlh]
    by_cases hold : b ∈ k.blocks p
    · rw [List.insert_of_mem hold] at hsum
      rw [absorb_of_mem (hsub b hold)]
      dsimp only
      omega
    · rw [List.insert_of_not_mem hold, List.length_cons] at hsum within
      have hgrow : (absorb s.lh b).1.length ≤ s.lh.length + 1 := by
        by_cases h : b ∈ s.lh
        · rw [absorb_of_mem h]
          exact Nat.le_succ _
        · rw [absorb_of_not_mem h]
          simp
      omega

theorem endOp {p : Fin n} (inOp : (s.proc p).pc = .inOp) (base : Inv g (s.endOp p)) :
    Reserved g limit (s.endOp p) k := by
  obtain ⟨hc, hb⟩ := reserved.base.quiet_of_inOp inOp
  obtain ⟨hlh, hpanic, hproc⟩ := FlatLog.endOp_view p hc
  refine ⟨base, by rw [hpanic]; exact reserved.live, ?_, ?_⟩
  · intro q hq
    rw [hlh]
    exact reserved.logged q ((hproc q).mp hq).2
  · intro _ _
    have hfits := reserved.fits hc hb
    have hsum := spare_change limit s (s.endOp p) k k p
      (fun q hq => ⟨rfl, by rw [hproc]; simp [hq]⟩)
    rw [if_neg (fun h => ((hproc p).mp h).1 rfl)] at hsum
    rw [hlh]
    omega

/-- The log code leaves an empty header to the operations behind it. -/
theorem logStep {p : Fin n} {c c' : LogPc} {i : Instr} {l : Label n} {s' : FlatLog.State n}
    (here : (s.proc p).pc = .log c) (text : code g s.lh c = (i, c'))
    (does : s.exec p c c' i = some (l, s')) (base : Inv g s') :
    Reserved g limit s' k := by
  obtain ⟨hat, hzero, hmode⟩ := reserved.base.log p c here
  obtain ⟨rest, held⟩ := hat.held
  obtain ⟨-, hs', -⟩ := FlatLog.exec_effect held text does
  have hpanic : s'.panicked = s.panicked := by
    rw [hs', FlatLog.setProc_panicked, FlatLog.effect_panicked]
  have hidle : opCount s' = 0 := by
    have hout : s'.outstanding = s.outstanding := by
      rw [hs', FlatLog.setProc_outstanding, FlatLog.effect_outstanding]
    have hcount := base.count
    omega
  refine ⟨base, by rw [hpanic]; exact reserved.live, ?_, ?_⟩
  · intro q hq
    have hpos := FlatLog.opCount_pos hq
    omega
  · intro hc hb
    have hspare := spare_le limit s' k
    rw [hidle] at hspare
    have hnil : s'.lh = [] := (base.idle hc hb).2 (by have hcount := base.count; omega)
    rw [hnil, List.length_nil]
    have hL : LOGSIZE = 30 := rfl
    omega

end Reserved

theorem reserved_step (hsize : LOGSIZE ≤ g.size) {limit : Nat} (hlimit : limit < MAXOPBLOCKS)
    {s s' : FlatLog.State n} {k : Logged n} {l : Label n}
    (h : k.within = true → Reserved g limit s k) (hstep : FlatLog.Step g s l s')
    (within : (k.step limit l).within = true) : Reserved g limit s' (k.step limit l) := by
  have hold : k.within = true := by
    unfold Logged.step at within
    split at within
    · exact within
    · exact (Bool.and_eq_true_iff.mp within).1
    · exact within
  have reserved := h hold
  have base := FlatLog.step_inv reserved.base hstep
  have hsame : ∀ {p q : Fin n} {x : FlatLog.Proc} (t : FlatLog.State n), t.proc = s.proc →
      x.pc = (s.proc p).pc →
      (((t.setProc p x).proc q).pc = .inOp ↔ (s.proc q).pc = .inOp) := by
    intro p q x t ht hx
    rw [FlatLog.setProc_proc]
    split
    · next hq => subst hq; rw [hx]
    · rw [ht]
  cases hstep with
  | stutter => exact reserved
  | bread p b user =>
    exact reserved.frame base rfl (fun h h' => ⟨h, h'⟩) (fun q => hsame s rfl rfl) reserved.live
  | brelse p k b user held clean =>
    exact reserved.frame base rfl (fun h h' => ⟨h, h'⟩) (fun q => hsame s rfl rfl) reserved.live
  | store p b d live inOp held =>
    exact reserved.frame base rfl (fun h h' => ⟨h, h'⟩)
      (fun q => hsame { s with mem := Function.update s.mem b d } rfl rfl) reserved.live
  | logWrite p b live inOp held =>
    refine reserved.logWrite hsize inOp ?_ base
    simpa [Logged.step, hold] using within
  | beginOp p live up calls admitted => exact reserved.beginOp hlimit calls admitted base
  | sleep p live up calls refused =>
    refine reserved.frame base rfl (fun h h' => ⟨h, h'⟩) (fun q => ?_) reserved.live
    have hnot : (s.proc p).pc ≠ .inOp := by rcases calls with h | h <;> simp [h]
    simp only [FlatLog.State.goto, FlatLog.setProc_proc]
    split
    · next hq => subst hq; simp [hnot]
    · rfl
  | endOp p live inOp clean => exact reserved.endOp inOp base
  | log _ p c c' i _ live here text does =>
    obtain ⟨rest, held⟩ := (reserved.base.log p c here).1.held
    rw [(FlatLog.exec_effect held text does).1, Logged.step_shown]
    exact reserved.logStep here text does base
  | noBuffers live =>
    exact reserved.frame base rfl (fun h h' => ⟨h, h'⟩) (fun q => Iff.rfl) (by simp)


theorem reserved_run (hsize : LOGSIZE ≤ g.size) {limit : Nat} (hlimit : limit < MAXOPBLOCKS)
    {p₀ : Fin n} {disk : UInt32 → Block} {tr : List (Label n)} {s : FlatLog.State n}
    (run : Run (FlatLog.Step g) (FlatLog.boot p₀ disk) tr s) (within : Within limit tr) :
    Reserved g limit s (tr.foldl (Logged.step limit) ⟨fun _ => [], true⟩) := by
  refine Run.record (I := fun (s : FlatLog.State n) (k : Logged n) => k.within = true →
    Reserved g limit s k) ?_ ?_ run within
  · intro _
    refine ⟨FlatLog.boot_inv p₀ disk, by simp [FlatLog.boot], ?_, fun _ h => by cases h⟩
    intro q hq
    simp only [FlatLog.boot] at hq
    split at hq <;> cases hq
  · intro s k l s' reserved hstep within
    exact reserved_step hsize hlimit reserved hstep within

/-- On the log that `mkfs` makes, "too big a transaction" is reached exactly when some
`log_write` is issued with 29 distinct blocks pending, and never when each operation
logs fewer than MAXOPBLOCKS distinct blocks. -/
theorem tooBig_iff_no_room {p₀ : Fin n} {disk : UInt32 → Block} {tr : List (Label n)} {s : State n}
    (run : Run (Step .mkfs) (boot p₀ disk) tr s) :
    (s.panicked ≠ some .tooBig ↔ Roomy .mkfs tr) ∧
    (Within (MAXOPBLOCKS - 1) tr → s.panicked ≠ some .tooBig) := by
  obtain ⟨a, hrun, -, sim⟩ := run_sim run
  rw [← sim.panicked]
  constructor
  · have hiff := (counted_run hrun).panicked
    rw [Ne, hiff]
    simp [Roomy]
  · intro within
    exact (reserved_run (by decide) (by decide) hrun within).live

/-- One operation that logs the blocks from `b` on. -/
def logs (p : Fin n) (b count : Nat) : List (Action n) :=
  (List.range count).flatMap fun i =>
    breads p (UInt32.ofNat (b + i)) ++ [.logWrite p 0] ++ brelses p 0

theorem tooBig_iff_no_room_single : ∃ (tr : List (Label 1)) (s : State 1),
    Run (Step .mkfs) (boot 0 fun _ _ => 0) tr s ∧ Within (MAXOPBLOCKS - 1) tr ∧
    (s.panicked ≠ some .tooBig ↔ Roomy .mkfs tr) ∧
    (Within (MAXOPBLOCKS - 1) tr → s.panicked ≠ some .tooBig) := by
  obtain ⟨tr, s, hrun, hwithin⟩ := perform_reaches (g := .mkfs) (s := boot (0 : Fin 1) fun _ _ => 0)
    [recoversEmpty .mkfs 0, [.beginOp 0], logs 0 100 2, [.endOp 0]].flatten
    (fun r => (r.1.foldl (Logged.step (MAXOPBLOCKS - 1)) ⟨fun _ => [], true⟩).within)
    (by decide +kernel)
  exact ⟨tr, s, hrun, hwithin, tooBig_iff_no_room hrun⟩

/-- Three operations of ten distinct blocks each are admitted together; the tenth
`log_write` of the last of them panics. -/
theorem three_full_operations_panic : ∃ (tr : List (Label 3)) (s : State 3),
    Run (Step .mkfs) (boot 0 fun _ _ => 0) tr s ∧ Within MAXOPBLOCKS tr ∧
    s.panicked = some .tooBig := by
  obtain ⟨tr, s, hrun, hok⟩ := perform_reaches (g := .mkfs) (s := boot (0 : Fin 3) fun _ _ => 0)
    [recoversEmpty .mkfs 0, [.beginOp 0, .beginOp 1, .beginOp 2], logs 0 100 10, logs 1 200 10,
      logs 2 300 9, breads 2 309, [.logWrite 2 0]].flatten
    (fun r => (r.1.foldl (Logged.step MAXOPBLOCKS) ⟨fun _ => [], true⟩).within &&
      decide (r.2.panicked = some .tooBig))
    (by decide +kernel)
  simp only [Bool.and_eq_true, decide_eq_true_eq] at hok
  exact ⟨tr, s, hrun, hok.1, hok.2⟩

end Xv6.Guarantees.LogReservation
