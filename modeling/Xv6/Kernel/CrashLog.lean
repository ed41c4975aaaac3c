import Xv6.Kernel.FlatLogInv

/-!
# Crashes and the on-disk log

A crash keeps the disk and nothing else. The history of a run records, from the
stores of the processes alone, the transactions whose first `write_head` reached the
disk and the one being built. `Recoverable` relates the disk to the state after the
recorded transactions at every single-block write, and `Phase` says how far the log
code has brought it at each of its program points.
-/
namespace Xv6.Kernel.FlatLog
open Xv6.Source Xv6.Library.Transition

abbrev Tx := List (UInt32 × Block)

def applyTx (d : UInt32 → Block) (t : Tx) : UInt32 → Block :=
  t.foldl (fun d w => Function.update d w.1 w.2) d

/-- The committed transactions, oldest first, and the stores since the last of them. -/
structure History where
  done : List Tx
  current : Tx

def History.step {n : Nat} (h : History) : Label n → History
  | .store _ b d => { h with current := h.current ++ [(b, d)] }
  | .commit => { done := h.done ++ [h.current], current := [] }
  | _ => h

/-- A crash loses the transaction that was being built. -/
def History.lose (h : History) : History := { h with current := [] }

/-- The disk after applying the committed transactions in order. -/
def History.committed (h : History) (d₀ : UInt32 → Block) : UInt32 → Block :=
  h.done.foldl applyTx d₀

/-- Processes modify and log blocks outside the log area only. -/
def Label.Outside {n : Nat} (g : Geometry) : Label n → Prop
  | .store _ b _ | .logWrite _ b => ¬ g.area b
  | _ => True

instance {n : Nat} (g : Geometry) : DecidablePred (Label.Outside g : Label n → Prop)
  | .store _ b _ | .logWrite _ b => inferInstanceAs (Decidable (¬ g.area b))
  | .tau | .bread .. | .logStore .. | .beginOp _ | .endOp _ | .commit | .recovered | .panic _ =>
    inferInstanceAs (Decidable True)

/-- Runs with crashes, from the first power on. -/
abbrev Crashes {n : Nat} (g : Geometry) (p₀ : Fin n) (d₀ : UInt32 → Block) :
    State n → History → Prop :=
  Epochs (Step g) (fun s => boot p₀ s.disk) (Label.Outside g) History.step History.lose
    (boot p₀ d₀) ⟨[], []⟩

/-- What `recover_from_log` needs of the disk to reach the contents `C`: the blocks
named in the header have their contents in the log, all others at home. -/
structure Recoverable (g : Geometry) (disk C : UInt32 → Block) : Prop where
  fits : (getHead (disk g.start)).length ≤ LOGSIZE ∧ (getHead (disk g.start)).length ≤ g.size - 1
  outside : ∀ b ∈ getHead (disk g.start), ¬ g.area b
  copies : ∀ j < (getHead (disk g.start)).length,
    disk (g.logBlock j) = C ((getHead (disk g.start)).getD j 0)
  home : ∀ b, ¬ g.area b → b ∉ getHead (disk g.start) → disk b = C b

/-- No transaction in the log on the disk. -/
def Fresh (g : Geometry) (disk : UInt32 → Block) : Prop := (disk g.start).getInt 0 = 0

instance (g : Geometry) (disk : UInt32 → Block) : Decidable (Fresh g disk) :=
  inferInstanceAs (Decidable (_ = _))

def Home (g : Geometry) (disk C : UInt32 → Block) : Prop := ∀ b, ¬ g.area b → disk b = C b

variable {n : Nat} {g : Geometry}

/-- Every block that differs from the committed contents is in the log. -/
def Covered (g : Geometry) (s : State n) (C : UInt32 → Block) : Prop :=
  ∀ b, ¬ g.area b → s.mem b ≠ C b → b ∈ s.lh

def Copied (g : Geometry) (s : State n) (k : Nat) : Prop :=
  ∀ j < k, s.disk (g.logBlock j) = s.mem (s.lh.getD j 0)

def Installed (s : State n) (C : UInt32 → Block) (k : Nat) : Prop :=
  ∀ j < k, s.disk (s.lh.getD j 0) = C (s.lh.getD j 0)

/-- How far the log code has brought the disk. The index of the loops counts the
blocks done, the current one included once it is written. -/
def Phase (g : Geometry) (s : State n) (C : UInt32 → Block) (cur : Tx) : LogPc → Prop
  | .commit | .finish => Fresh g s.disk ∧ Covered g s C
  | .writeLog tail .written | .writeLog tail .releasedFrom =>
    Fresh g s.disk ∧ Covered g s C ∧ Copied g s (tail + 1)
  | .writeLog tail .moved => Fresh g s.disk ∧ Covered g s C ∧ Copied g s tail ∧
      s.mem (g.logBlock tail) = s.mem (s.lh.getD tail 0)
  | .writeLog tail _ => Fresh g s.disk ∧ Covered g s C ∧ Copied g s tail
  | .writeHead .commit .written => getHead (s.disk g.start) = s.lh ∧ cur = []
  | .writeHead .commit .stored => Fresh g s.disk ∧ Covered g s C ∧ Copied g s s.lh.length ∧
      getHead (s.mem g.start) = s.lh
  | .writeHead .commit _ => Fresh g s.disk ∧ Covered g s C ∧ Copied g s s.lh.length
  | .installTrans _ tail .moved => getHead (s.disk g.start) = s.lh ∧ cur = [] ∧
      Installed s C tail ∧ s.mem (s.lh.getD tail 0) = C (s.lh.getD tail 0)
  | .installTrans _ tail .written | .installTrans _ tail .unpinned
  | .installTrans _ tail .releasedLbuf =>
    getHead (s.disk g.start) = s.lh ∧ cur = [] ∧ Installed s C (tail + 1)
  | .installTrans _ tail _ => getHead (s.disk g.start) = s.lh ∧ cur = [] ∧ Installed s C tail
  | .clear _ => Home g s.disk C ∧ cur = []
  | .writeHead _ .stored => Home g s.disk C ∧ cur = [] ∧ (s.mem g.start).getInt 0 = 0
  | .writeHead _ .written | .recovered => Home g s.disk C ∧ cur = [] ∧ Fresh g s.disk
  | .writeHead _ _ => Home g s.disk C ∧ cur = []
  | .readHead .loaded => getHead (s.disk g.start) = s.lh ∧ cur = []
  | .readHead _ => cur = []

structure CrashInv (g : Geometry) (d₀ : UInt32 → Block) (s : State n) (h : History) : Prop where
  base : Inv g s
  recoverable : Recoverable g s.disk (h.committed d₀)
  contents : s.booting = false → ∀ b, ¬ g.area b →
    s.mem b = applyTx (h.committed d₀) h.current b
  outside : ∀ b ∈ s.lh, ¬ g.area b
  quiet : s.committing = false → s.booting = false → Fresh g s.disk ∧
    ∀ b, ¬ g.area b → s.mem b ≠ h.committed d₀ b → b ∈ s.lh ∨ ∃ p, b ∈ (s.proc p).dirty
  phase : ∀ p c, (s.proc p).pc = .log c → Phase g s (h.committed d₀) h.current c

theorem applyTx_append (d : UInt32 → Block) (t : Tx) (b : UInt32) (x : Block) :
    applyTx d (t ++ [(b, x)]) = Function.update (applyTx d t) b x := by
  simp [applyTx]

theorem committed_commit (h : History) (d₀ : UInt32 → Block) :
    (h.step (.commit : Label n)).committed d₀ = applyTx (h.committed d₀) h.current := by
  simp [History.step, History.committed]

theorem Recoverable.home_of_fresh {disk C : UInt32 → Block} (r : Recoverable g disk C)
    (fresh : Fresh g disk) : Home g disk C := by
  intro b hb
  apply r.home b hb
  rw [getHead_eq_nil fresh]
  simp

theorem recoverable_of_home {disk C : UInt32 → Block} (fresh : Fresh g disk)
    (home : Home g disk C) : Recoverable g disk C := by
  have hnil := getHead_eq_nil fresh
  constructor
  · simp [hnil]
  · simp [hnil]
  · simp [hnil]
  · intro b hb _
    exact home b hb

/-- A write inside the log area behind the header does not matter while the header is empty. -/
theorem Recoverable.write_log {disk C : UInt32 → Block} (r : Recoverable g disk C)
    (fresh : Fresh g disk) {b : UInt32} (hb : g.area b) (hs : b ≠ g.start) (d : Block) :
    Fresh g (Function.update disk b d) ∧ Recoverable g (Function.update disk b d) C := by
  have hf : Fresh g (Function.update disk b d) := by
    rw [Fresh, Function.update_of_ne (Ne.symm hs)]
    exact fresh
  refine ⟨hf, recoverable_of_home hf ?_⟩
  intro b' hb'
  have hne : b' ≠ b := by rintro rfl; exact hb' hb
  rw [Function.update_of_ne hne]
  exact r.home_of_fresh fresh b' hb'

/-- Installing a block of the header writes home what its log copy says. -/
theorem Recoverable.install {disk C : UInt32 → Block} (r : Recoverable g disk C) (hg : 0 < g.size)
    {b : UInt32} (hb : b ∈ getHead (disk g.start)) :
    Function.update disk b (C b) g.start = disk g.start ∧
    Recoverable g (Function.update disk b (C b)) C := by
  have hout := r.outside b hb
  have hstart : Function.update disk b (C b) g.start = disk g.start := by
    apply Function.update_of_ne
    rintro rfl
    exact hout (g.area_start hg)
  refine ⟨hstart, ?_⟩
  constructor
  · rw [hstart]; exact r.fits
  · rw [hstart]; exact r.outside
  · rw [hstart]
    intro j hj
    have harea := g.area_logBlock j (by have := r.fits; omega) (by have := r.fits; omega)
    rw [Function.update_of_ne (by rintro rfl; exact hout harea)]
    exact r.copies j hj
  · rw [hstart]
    intro b' hb' hn
    rw [Function.update_of_ne (by rintro rfl; exact hn hb)]
    exact r.home b' hb' hn

/-- Erasing the header keeps what is at home. -/
theorem erase_head {disk C : UInt32 → Block} (hg : 0 < g.size) (home : Home g disk C) {d : Block}
    (hd : d.getInt 0 = 0) :
    Fresh g (Function.update disk g.start d) ∧ Home g (Function.update disk g.start d) C := by
  refine ⟨by rw [Fresh, Function.update_self]; exact hd, ?_⟩
  intro b hb
  rw [Function.update_of_ne (by rintro rfl; exact hb (g.area_start hg))]
  exact home b hb

theorem Phase.congr {s s' : State n} (hmem : s'.mem = s.mem) (hdisk : s'.disk = s.disk)
    (hlh : s'.lh = s.lh) {C : UInt32 → Block} {cur : Tx} {c : LogPc} (h : Phase g s C cur c) :
    Phase g s' C cur c := by
  have hc : Covered g s' C = Covered g s C := by simp only [Covered, hmem, hlh]
  have hp : ∀ k, Copied g s' k = Copied g s k := by
    intro k; simp only [Copied, hmem, hlh, hdisk]
  have hi : ∀ k, Installed s' C k = Installed s C k := by
    intro k; simp only [Installed, hlh, hdisk]
  cases c with
  | writeLog tail pt => cases pt <;> simpa only [Phase, hc, hp, hmem, hdisk, hlh] using h
  | writeHead call pt =>
    cases call <;> cases pt <;> simpa only [Phase, hc, hp, hmem, hdisk, hlh] using h
  | installTrans r tail pt => cases pt <;> simpa only [Phase, hi, hmem, hdisk, hlh] using h
  | readHead pt => cases pt <;> simpa only [Phase, hdisk, hlh] using h
  | commit | finish | clear | recovered => simpa only [Phase, hc, hdisk] using h

namespace CrashInv
variable {d₀ : UInt32 → Block} {s : State n} {h : History} (ci : CrashInv g d₀ s h)
include ci

/-- A step that leaves memory, disk and log alone and moves no process into the log code. -/
theorem frame {s' : State n} (base : Inv g s') (hmem : s'.mem = s.mem) (hdisk : s'.disk = s.disk)
    (hlh : s'.lh = s.lh) (hboot : s'.booting = s.booting) (hcommit : s'.committing = s.committing)
    (hdirty : ∀ q, (s'.proc q).dirty = (s.proc q).dirty)
    (hlog : ∀ q c, (s'.proc q).pc = .log c → (s.proc q).pc = .log c) : CrashInv g d₀ s' h := by
  constructor
  · exact base
  · rw [hdisk]; exact ci.recoverable
  · rw [hboot, hmem]; exact ci.contents
  · rw [hlh]; exact ci.outside
  · rw [hcommit, hboot, hdisk, hmem, hlh]
    simpa only [hdirty] using ci.quiet
  · intro q c hq
    exact (ci.phase q c (hlog q c hq)).congr hmem hdisk hlh

theorem store {p : Fin n} {b : UInt32} (hin : (s.proc p).pc = .inOp)
    (held : b ∈ (s.proc p).held) (d : Block) (out : ¬ g.area b) :
    CrashInv g d₀ ({ s with mem := Function.update s.mem b d }.setProc p
      { s.proc p with dirty := b :: (s.proc p).dirty }) (h.step (.store p b d)) := by
  obtain ⟨hc, hb⟩ := ci.base.quiet_of_inOp hin
  obtain ⟨hfresh, hcover⟩ := ci.quiet hc hb
  constructor
  · exact ci.base.store hin held d
  · exact ci.recoverable
  · intro _ b' hb'
    show Function.update s.mem b d b' = applyTx (h.committed d₀) (h.current ++ [(b, d)]) b'
    rw [applyTx_append]
    by_cases hbb : b' = b
    · subst hbb; simp
    · rw [Function.update_of_ne hbb, Function.update_of_ne hbb]
      exact ci.contents hb b' hb'
  · exact ci.outside
  · intro _ _
    refine ⟨hfresh, ?_⟩
    intro b' hb' hne
    by_cases hbb : b' = b
    · subst hbb
      exact Or.inr ⟨p, by simp⟩
    · simp only [setProc_mem, Function.update_of_ne hbb] at hne
      rcases hcover b' hb' hne with hl | ⟨q, hq⟩
      · exact Or.inl hl
      · refine Or.inr ⟨q, ?_⟩
        rw [setProc_proc]
        split
        · next hqp => subst hqp; exact List.mem_cons_of_mem _ hq
        · exact hq
  · intro q c hq
    have hq' : (s.proc q).pc = .log c := by
      rw [setProc_proc] at hq
      split at hq
      · next hqp => subst hqp; exact hq
      · exact hq
    exact absurd hq' (ci.base.no_log_of_inOp hin q c)

theorem logWrite {p : Fin n} {b : UInt32} (hin : (s.proc p).pc = .inOp) (out : ¬ g.area b) :
    CrashInv g d₀ (s.logWrite g p b) h := by
  have base := ci.base.logWrite (b := b) hin
  unfold State.logWrite at base ⊢
  cases hcheck : logWriteCheck g s.lh s.outstanding with
  | some x =>
    rw [hcheck] at base
    exact ci.frame base rfl rfl rfl rfl rfl (fun _ => rfl) (fun _ _ hq => hq)
  | none =>
    rw [hcheck] at base
    obtain ⟨hc, hb⟩ := ci.base.quiet_of_inOp hin
    obtain ⟨hfresh, hcover⟩ := ci.quiet hc hb
    have hmem : ∀ x, x ∈ (absorb s.lh b).1 ↔ x ∈ s.lh ∨ x = b := by
      intro x
      by_cases hm : b ∈ s.lh
      · rw [absorb_of_mem hm]
        simp only [iff_self_or]
        rintro rfl
        exact hm
      · rw [absorb_of_not_mem hm]
        simp
    constructor
    · exact base
    · exact ci.recoverable
    · exact ci.contents
    · intro x hx
      rcases (hmem x).mp hx with hl | rfl
      · exact ci.outside x hl
      · exact out
    · intro _ _
      refine ⟨hfresh, ?_⟩
      intro x hx hne
      show x ∈ (absorb s.lh b).1 ∨ _
      rcases hcover x hx hne with hl | ⟨q, hq⟩
      · exact Or.inl ((hmem x).mpr (Or.inl hl))
      · by_cases hxb : x = b
        · exact Or.inl ((hmem x).mpr (Or.inr hxb))
        · refine Or.inr ⟨q, ?_⟩
          by_cases hqp : q = p
          · subst hqp; simp [hq, hxb]
          · simpa [hqp] using hq
    · intro q c hq
      have hq' : (s.proc q).pc = .log c := by
        by_cases hqp : q = p
        · subst hqp; simpa using hq
        · simpa [hqp] using hq
      exact absurd hq' (ci.base.no_log_of_inOp hin q c)

/-- The last operation ends with everything it changed in the log. -/
theorem endOp {p : Fin n} (hin : (s.proc p).pc = .inOp) (clean : (s.proc p).dirty = []) :
    CrashInv g d₀ (s.endOp p) h := by
  have base := ci.base.endOp hin clean
  obtain ⟨hc, hb⟩ := ci.base.quiet_of_inOp hin
  by_cases hlast : s.outstanding - 1 = 0
  · rw [endOp_last hc hlast] at base ⊢
    obtain ⟨hfresh, hcover⟩ := ci.quiet hc hb
    have hclean := base.clean_of_log (p := p) (c := .commit) (by simp [State.goto])
    have hcovered : ∀ b, ¬ g.area b → s.mem b ≠ h.committed d₀ b → b ∈ s.lh := by
      intro b hb' hne
      rcases hcover b hb' hne with hl | ⟨q, hq⟩
      · exact hl
      · have hq0 := hclean q
        simp only [State.goto, setProc_proc] at hq0
        split at hq0
        · next hqp => subst hqp; simp [clean] at hq
        · simp only [hq0] at hq
          simp at hq
    constructor
    · exact base
    · exact ci.recoverable
    · exact ci.contents
    · exact ci.outside
    · intro hcc
      exact absurd hcc (by simp [State.goto])
    · intro q c hq
      have hqc : c = .commit := by
        simp only [State.goto, setProc_proc] at hq
        split at hq
        · simpa using hq.symm
        · exact absurd hq (ci.base.no_log_of_inOp hin q c)
      subst hqc
      exact ⟨hfresh, hcovered⟩
  · rw [endOp_more hc hlast] at base ⊢
    refine ci.frame base rfl rfl rfl rfl rfl ?_ ?_
    · intro q
      simp only [State.goto, setProc_proc]
      split
      · next hqp => subst hqp; simp [State.wakeup]
      · simp [State.wakeup]
    · intro q c hq
      simp only [State.goto, setProc_proc] at hq
      split at hq
      · simp at hq
      · simpa [State.wakeup] using hq

end CrashInv

theorem getD_mem {lh : List UInt32} {j : Nat} (h : j < lh.length) : lh.getD j 0 ∈ lh := by
  simp [h]

namespace CrashInv
variable {d₀ : UInt32 → Block} {s : State n} {h : History} (ci : CrashInv g d₀ s h)
  {p : Fin n} {c : LogPc} (hpc : (s.proc p).pc = .log c)

/-- What the data of a state has to satisfy for the invariant at a program point. -/
structure Holds (g : Geometry) (d₀ : UInt32 → Block) (booting : Bool) (s : State n) (h : History)
    (c : LogPc) : Prop where
  phase : Phase g s (h.committed d₀) h.current c
  recoverable : Recoverable g s.disk (h.committed d₀)
  contents : booting = false → ∀ b, ¬ g.area b → s.mem b = applyTx (h.committed d₀) h.current b
  outside : ∀ b ∈ s.lh, ¬ g.area b

include ci

/-- A point whose call changes no data keeps everything but the phase. -/
theorem holds_same {c' : LogPc} (hphase : Phase g s (h.committed d₀) h.current c') :
    Holds g d₀ s.booting s h c' :=
  ⟨hphase, ci.recoverable, ci.contents, ci.outside⟩

include hpc

/-- The log code is the only writer of the log area and writes what it stores. -/
theorem area_synced {b : UInt32} (hb : g.area b) (hu : b ∉ unwritten g s.lh c) :
    s.mem b = s.disk b := by
  by_contra hne
  rcases ci.base.sync_of_log hpc b hne with hs | hs
  · rw [(ci.base.log p c hpc).1.pins] at hs
    exact ci.outside b ((pinned_sublist _ _).subset hs) hb
  · exact hu hs

theorem lh_fits (hl : recovery c = true → getHead (s.disk g.start) = s.lh) :
    s.lh.length ≤ LOGSIZE ∧ s.lh.length ≤ g.size - 1 := by
  have hmode := (ci.base.log p c hpc).1.mode
  cases hb : s.booting with
  | false => exact (ci.base.fits hb).2
  | true =>
    have hfits := ci.recoverable.fits
    rw [hl (by rw [hmode, hb])] at hfits
    exact hfits

theorem writeLog_gotFrom {tail : Nat} (hc : c = .writeLog tail .gotFrom) :
    Holds g d₀ s.booting (effect g s c) h (.writeLog tail .moved) := by
  obtain ⟨hfresh, hcover, hcopied⟩ : Fresh g s.disk ∧ Covered g s (h.committed d₀) ∧
      Copied g s tail := by have := ci.phase p c hpc; rwa [hc] at this
  have hloc : tail < s.lh.length := by have := (ci.base.log p c hpc).1.located; rwa [hc] at this
  obtain ⟨hL, hS⟩ := ci.lh_fits hpc (by rw [hc]; intro h; cases h)
  have harea := g.area_logBlock tail (by omega) (by omega)
  have hne : ∀ b, ¬ g.area b →
      Function.update s.mem (g.logBlock tail) (s.mem (s.lh.getD tail 0)) b = s.mem b := by
    intro b hb
    exact Function.update_of_ne (by rintro rfl; exact hb harea) ..
  rw [hc]
  refine ⟨⟨hfresh, ?_, ?_, ?_⟩, ci.recoverable, ?_, ci.outside⟩
  · intro b hb hd
    exact hcover b hb (by rwa [← hne b hb])
  · intro j hj
    show s.disk _ = Function.update s.mem _ _ (s.lh.getD j 0)
    rw [hne _ (ci.outside _ (getD_mem (by omega)))]
    exact hcopied j hj
  · show Function.update s.mem _ _ _ = Function.update s.mem _ _ (s.lh.getD tail 0)
    rw [hne _ (ci.outside _ (getD_mem hloc)), Function.update_self]
  · intro hb b hb'
    exact (hne b hb').trans (ci.contents hb b hb')

theorem writeLog_moved {tail : Nat} (hc : c = .writeLog tail .moved) :
    Holds g d₀ s.booting (effect g s c) h (.writeLog tail .written) := by
  obtain ⟨hfresh, hcover, hcopied, hmoved⟩ : Fresh g s.disk ∧ Covered g s (h.committed d₀) ∧
      Copied g s tail ∧ s.mem (g.logBlock tail) = s.mem (s.lh.getD tail 0) := by
    have := ci.phase p c hpc; rwa [hc] at this
  have hloc : tail < s.lh.length := by have := (ci.base.log p c hpc).1.located; rwa [hc] at this
  obtain ⟨hL, hS⟩ := ci.lh_fits hpc (by rw [hc]; intro h; cases h)
  have harea := g.area_logBlock tail (by omega) (by omega)
  obtain ⟨hfresh', hrec⟩ := ci.recoverable.write_log hfresh harea
    (g.logBlock_ne_start (by omega)) (s.mem (g.logBlock tail))
  rw [hc]
  refine ⟨⟨hfresh', hcover, ?_⟩, hrec, ci.contents, ci.outside⟩
  intro j hj
  show Function.update s.disk _ _ (g.logBlock j) = s.mem (s.lh.getD j 0)
  by_cases hjt : j = tail
  · subst hjt
    rw [Function.update_self, hmoved]
  · have hne : g.logBlock j ≠ g.logBlock tail := fun he =>
      hjt (g.logBlock_inj (by omega) (by omega) he)
    rw [Function.update_of_ne hne]
    exact hcopied j (by omega)

/-- The commit point: one block write makes the whole transaction part of the
committed contents. -/
theorem writeHead_commit (hg : 0 < g.size) (hc : c = .writeHead .commit .stored) :
    Holds g d₀ s.booting (effect g s c) (h.step (.commit : Label n))
      (.writeHead .commit .written) := by
  obtain ⟨hfresh, hcover, hcopied, hhead⟩ : Fresh g s.disk ∧ Covered g s (h.committed d₀) ∧
      Copied g s s.lh.length ∧ getHead (s.mem g.start) = s.lh := by
    have := ci.phase p c hpc; rwa [hc] at this
  obtain ⟨hL, hS⟩ := ci.lh_fits hpc (by rw [hc]; intro h; cases h)
  have hb : s.booting = false := by have := (ci.base.log p c hpc).1.mode; rw [hc] at this; exact this.symm
  have hhome := ci.recoverable.home_of_fresh hfresh
  have hC : ∀ b, ¬ g.area b → applyTx (h.committed d₀) h.current b = s.mem b :=
    fun b hb' => (ci.contents hb b hb').symm
  have hhead' : getHead (Function.update s.disk g.start (s.mem g.start) g.start) = s.lh := by
    rw [Function.update_self, hhead]
  rw [hc]
  refine ⟨⟨hhead', rfl⟩, ?_, ?_, ci.outside⟩
  · rw [committed_commit]
    refine ⟨?_, ?_, ?_, ?_⟩ <;> simp only [effect, hhead']
    · exact ⟨hL, hS⟩
    · exact ci.outside
    · intro j hj
      rw [hC _ (ci.outside _ (getD_mem hj)), Function.update_of_ne (g.logBlock_ne_start (by omega))]
      exact hcopied j hj
    · intro b hb' hn
      rw [hC b hb', Function.update_of_ne (by rintro rfl; exact hb' (g.area_start hg)), hhome b hb']
      by_contra hd
      exact hn (hcover b hb' (Ne.symm hd))
  · intro _ b hb'
    rw [committed_commit]
    exact (hC b hb').symm

theorem install_gotDbuf {r : Bool} {tail : Nat} (hc : c = .installTrans r tail .gotDbuf) :
    Holds g d₀ s.booting (effect g s c) h (.installTrans r tail .moved) := by
  obtain ⟨hload, hcur, hinst⟩ : getHead (s.disk g.start) = s.lh ∧ h.current = [] ∧
      Installed s (h.committed d₀) tail := by have := ci.phase p c hpc; rwa [hc] at this
  have hloc : tail < s.lh.length := by have := (ci.base.log p c hpc).1.located; rwa [hc] at this
  obtain ⟨hL, hS⟩ := ci.lh_fits hpc (fun _ => hload)
  have harea := g.area_logBlock tail (by omega) (by omega)
  have hlog : s.mem (g.logBlock tail) = h.committed d₀ (s.lh.getD tail 0) := by
    rw [ci.area_synced hpc harea (by rw [hc]; simp [unwritten])]
    have hcopy := ci.recoverable.copies tail (by rw [hload]; exact hloc)
    rwa [hload] at hcopy
  rw [hc]
  refine ⟨⟨hload, hcur, hinst, ?_⟩, ci.recoverable, ?_, ci.outside⟩
  · show Function.update s.mem _ _ (s.lh.getD tail 0) = h.committed d₀ (s.lh.getD tail 0)
    rw [Function.update_self]
    exact hlog
  · intro hb b hb'
    have hold := ci.contents hb b hb'
    show Function.update s.mem _ _ b = _
    by_cases hbt : b = s.lh.getD tail 0
    · subst hbt
      rw [Function.update_self, hlog, hcur]
      rfl
    · rw [Function.update_of_ne hbt]
      exact hold

theorem install_moved (hg : 0 < g.size) {r : Bool} {tail : Nat}
    (hc : c = .installTrans r tail .moved) :
    Holds g d₀ s.booting (effect g s c) h (.installTrans r tail .written) := by
  obtain ⟨hload, hcur, hinst, hmoved⟩ : getHead (s.disk g.start) = s.lh ∧ h.current = [] ∧
      Installed s (h.committed d₀) tail ∧
      s.mem (s.lh.getD tail 0) = h.committed d₀ (s.lh.getD tail 0) := by
    have := ci.phase p c hpc; rwa [hc] at this
  have hloc : tail < s.lh.length := by have := (ci.base.log p c hpc).1.located; rwa [hc] at this
  obtain ⟨hstart, hrec⟩ := ci.recoverable.install hg (b := s.lh.getD tail 0)
    (by rw [hload]; exact getD_mem hloc)
  rw [← hmoved] at hstart hrec
  rw [hc]
  refine ⟨⟨?_, hcur, ?_⟩, hrec, ci.contents, ci.outside⟩
  · exact (congrArg getHead hstart).trans hload
  · intro j hj
    show Function.update s.disk _ _ (s.lh.getD j 0) = h.committed d₀ (s.lh.getD j 0)
    by_cases hjt : s.lh.getD j 0 = s.lh.getD tail 0
    · rw [hjt, Function.update_self, hmoved]
    · rw [Function.update_of_ne hjt]
      apply hinst
      by_contra hge
      have : j = tail := by omega
      subst this
      exact hjt rfl

/-- When the loop ends every block of the log is at home. -/
theorem install_done {r : Bool} {tail : Nat} (hc : c = .installTrans r tail .test)
    (hend : s.lh.length ≤ tail) : Home g s.disk (h.committed d₀) ∧ h.current = [] := by
  obtain ⟨hload, hcur, hinst⟩ : getHead (s.disk g.start) = s.lh ∧ h.current = [] ∧
      Installed s (h.committed d₀) tail := by have := ci.phase p c hpc; rwa [hc] at this
  refine ⟨?_, hcur⟩
  intro b hb
  by_cases hl : b ∈ s.lh
  · obtain ⟨j, hj, rfl⟩ := List.mem_iff_getElem.mp hl
    have hat := hinst j (by omega)
    simpa [hj] using hat
  · exact ci.recoverable.home b hb (by rw [hload]; exact hl)

theorem writeHead_erase (hg : 0 < g.size) {call : HeadCall} (hcall : call ≠ .commit)
    (hc : c = .writeHead call .stored) :
    Holds g d₀ s.booting (effect g s c) h (.writeHead call .written) := by
  obtain ⟨hhome, hcur, hzero⟩ : Home g s.disk (h.committed d₀) ∧ h.current = [] ∧
      (s.mem g.start).getInt 0 = 0 := by
    have := ci.phase p c hpc
    cases call
    · exact absurd rfl hcall
    · rwa [hc] at this
    · rwa [hc] at this
  obtain ⟨hfresh, hhome'⟩ := erase_head hg hhome hzero
  have hphase : Phase g (effect g s c) (h.committed d₀) h.current (.writeHead call .written) := by
    rw [hc]
    cases call
    · exact absurd rfl hcall
    · exact ⟨hhome', hcur, hfresh⟩
    · exact ⟨hhome', hcur, hfresh⟩
  rw [hc] at hphase ⊢
  exact ⟨hphase, recoverable_of_home hfresh hhome', ci.contents, ci.outside⟩

theorem writeHead_gotBuf (hg : 0 < g.size) {call : HeadCall} (hc : c = .writeHead call .gotBuf) :
    Holds g d₀ s.booting (effect g s c) h (.writeHead call .stored) := by
  have hphase := ci.phase p c hpc
  have hloc := (ci.base.log p c hpc).1.located
  have hne : ∀ b, ¬ g.area b →
      Function.update s.mem g.start (setHead (s.mem g.start) s.lh) b = s.mem b := by
    intro b hb
    exact Function.update_of_ne (by rintro rfl; exact hb (g.area_start hg)) ..
  have hcontents : s.booting = false → ∀ b, ¬ g.area b →
      Function.update s.mem g.start (setHead (s.mem g.start) s.lh) b =
        applyTx (h.committed d₀) h.current b :=
    fun hb b hb' => (hne b hb').trans (ci.contents hb b hb')
  cases call with
  | commit =>
    obtain ⟨hL, -⟩ := ci.lh_fits hpc (by rw [hc]; intro h; cases h)
    obtain ⟨hfresh, hcover, hcopied⟩ : Fresh g s.disk ∧ Covered g s (h.committed d₀) ∧
        Copied g s s.lh.length := by rwa [hc] at hphase
    rw [hc]
    refine ⟨⟨hfresh, ?_, ?_, ?_⟩, ci.recoverable, hcontents, ci.outside⟩
    · intro b hb hd
      exact hcover b hb (by rwa [← hne b hb])
    · intro j hj
      show s.disk _ = Function.update s.mem _ _ (s.lh.getD j 0)
      rw [hne _ (ci.outside _ (getD_mem hj))]
      exact hcopied j hj
    · show getHead (Function.update s.mem _ _ g.start) = s.lh
      rw [Function.update_self, getHead_setHead _ _ hL]
  | erase | recover =>
    rw [hc] at hphase hloc ⊢
    refine ⟨⟨hphase.1, hphase.2, ?_⟩, ci.recoverable, hcontents, ci.outside⟩
    show (Function.update s.mem g.start (setHead (s.mem g.start) s.lh) g.start).getInt 0 = 0
    have hnil : s.lh = [] := hloc
    rw [Function.update_self, hnil, getInt_setHead_nil]

theorem readHead_gotBuf (hg : 0 < g.size) (hc : c = .readHead .gotBuf) :
    Holds g d₀ s.booting (effect g s c) h (.readHead .loaded) := by
  have hcur : h.current = [] := by have := ci.phase p c hpc; rwa [hc] at this
  have hsame : s.mem g.start = s.disk g.start :=
    ci.area_synced hpc (g.area_start hg) (by rw [hc]; simp [unwritten])
  rw [hc]
  refine ⟨⟨?_, hcur⟩, ci.recoverable, ci.contents, ?_⟩
  · show getHead (s.disk g.start) = getHead (s.mem g.start)
    rw [hsame]
  · show ∀ b ∈ getHead (s.mem g.start), _
    rw [hsame]
    exact ci.recoverable.outside

/-- Every call of the log code brings the data to the next point. -/
theorem advance (hg : 0 < g.size) (hf : c ≠ .finish) (hr : c ≠ .recovered) :
    Holds g d₀ s.booting (effect g s c) (h.step (shown g s p c)) (code g s.lh c).2 := by
  have hphase := ci.phase p c hpc
  have hloc := (ci.base.log p c hpc).1.located
  cases c with
  | commit =>
    by_cases hn : 0 < s.lh.length
    · simp only [code, hn, if_true]
      exact ci.holds_same ⟨hphase.1, hphase.2, fun j hj => absurd hj (Nat.not_lt_zero j)⟩
    · simp only [code, hn, if_false]
      exact ci.holds_same hphase
  | writeLog tail pt =>
    cases pt with
    | test =>
      by_cases hn : tail < s.lh.length
      · simp only [code, shown, hn, if_true]
        exact ci.holds_same hphase
      · simp only [code, shown, hn, if_false]
        have he : tail = s.lh.length := Nat.le_antisymm hloc (Nat.le_of_not_lt hn)
        subst he
        exact ci.holds_same hphase
    | gotTo => exact ci.holds_same hphase
    | gotFrom => exact ci.writeLog_gotFrom hpc rfl
    | moved => exact ci.writeLog_moved hpc rfl
    | written => exact ci.holds_same hphase
    | releasedFrom => exact ci.holds_same hphase
  | writeHead call pt =>
    cases pt with
    | entry => cases call <;> exact ci.holds_same hphase
    | gotBuf => cases call <;> exact ci.writeHead_gotBuf hpc hg rfl
    | stored =>
      cases call with
      | commit => exact ci.writeHead_commit hpc hg rfl
      | erase => exact ci.writeHead_erase hpc hg (by simp) rfl
      | recover => exact ci.writeHead_erase hpc hg (by simp) rfl
    | written =>
      cases call with
      | commit =>
        exact ci.holds_same ⟨hphase.1, hphase.2, fun j hj => absurd hj (Nat.not_lt_zero j)⟩
      | erase =>
        refine ci.holds_same ⟨hphase.2.2, ?_⟩
        intro b hb hne
        have hb' : s.booting = false := (ci.base.log p _ hpc).1.mode.symm
        have hat := ci.contents hb' b hb
        rw [hphase.2.1] at hat
        exact absurd hat hne
      | recover => exact ci.holds_same hphase
  | installTrans r tail pt =>
    cases pt with
    | test =>
      by_cases hn : tail < s.lh.length
      · simp only [code, shown, hn, if_true]
        exact ci.holds_same hphase
      · simp only [code, shown, hn, if_false]
        exact ci.holds_same (ci.install_done hpc rfl (Nat.le_of_not_lt hn))
    | gotLbuf => exact ci.holds_same hphase
    | gotDbuf => exact ci.install_gotDbuf hpc rfl
    | moved => exact ci.install_moved hpc hg rfl
    | written =>
      cases r <;> exact ⟨hphase, ci.recoverable, ci.contents, ci.outside⟩
    | unpinned => exact ci.holds_same hphase
    | releasedLbuf => exact ci.holds_same hphase
  | clear r => cases r <;> exact ⟨hphase, ci.recoverable, ci.contents, by simp [effect]⟩
  | finish => exact absurd rfl hf
  | readHead pt =>
    cases pt with
    | entry => exact ci.holds_same hphase
    | gotBuf => exact ci.readHead_gotBuf hpc hg rfl
    | loaded =>
      exact ci.holds_same ⟨hphase.1, hphase.2, fun j hj => absurd hj (Nat.not_lt_zero j)⟩
  | recovered => exact absurd rfl hr

omit hpc in
theorem log_step (hg : 0 < g.size) {c c' : LogPc} {i : Instr} {l : Label n} {s' : State n}
    (here : (s.proc p).pc = .log c) (text : code g s.lh c = (i, c'))
    (does : s.exec p c c' i = some (l, s')) : CrashInv g d₀ s' (h.step l) := by
  have base := ci.base.log_step here text does
  obtain ⟨rest, hrest⟩ := (ci.base.log p c here).1.held
  obtain ⟨rfl, rfl, -⟩ := exec_effect hrest text does
  by_cases hend : c = .finish ∨ c = .recovered
  · -- back in file-system code, with an empty log on the disk
    have hphase := ci.phase p c here
    have hloc := (ci.base.log p c here).1.located
    have hlh : s.lh = [] := by rcases hend with rfl | rfl <;> exact hloc
    have hhist : h.step (shown g s p c) = h := by rcases hend with rfl | rfl <;> rfl
    have hdata : Fresh g s.disk ∧ (∀ b, ¬ g.area b → s.mem b = h.committed d₀ b) ∧
        ∀ b, ¬ g.area b → s.mem b = applyTx (h.committed d₀) h.current b := by
      rcases hend with rfl | rfl
      · have hb : s.booting = false := (ci.base.log p _ here).1.mode.symm
        refine ⟨hphase.1, ?_, ci.contents hb⟩
        intro b hb'
        by_contra hne
        have hin := hphase.2 b hb' hne
        simp [hlh] at hin
      · obtain ⟨hhome, hcur, hfresh⟩ := hphase
        have hsame : ∀ b, ¬ g.area b → s.mem b = h.committed d₀ b := by
          intro b hb'
          rw [← hhome b hb']
          by_contra hne
          rcases ci.base.sync_of_log here b hne with hs | hs
          · rw [(ci.base.log p _ here).1.pins] at hs
            simp [pinned] at hs
          · simp [unwritten] at hs
        refine ⟨hfresh, hsame, ?_⟩
        rw [hcur]
        exact hsame
    have heff : (effect g s c).mem = s.mem ∧ (effect g s c).disk = s.disk ∧
        (effect g s c).lh = s.lh := by rcases hend with rfl | rfl <;> exact ⟨rfl, rfl, rfl⟩
    have hout : following g s.lh c = .out := by rcases hend with rfl | rfl <;> rfl
    obtain ⟨e₁, e₂, e₃⟩ := heff
    rw [hhist]
    constructor
    · exact base
    · rw [setProc_disk, e₂]
      exact ci.recoverable
    · intro _
      rw [setProc_mem, e₁]
      exact hdata.2.2
    · rw [setProc_lh, e₃]
      exact ci.outside
    · intro _ _
      rw [setProc_disk, setProc_mem, e₁, e₂]
      exact ⟨hdata.1, fun b hb hne => absurd (hdata.2.1 b hb) hne⟩
    · intro q c₁ hq
      rw [setProc_proc] at hq
      split at hq
      · simp [hout] at hq
      · next hqp =>
        have hq' : (s.proc q).pc = .log c₁ := by
          rcases hend with rfl | rfl
          · exact (wake_pc_log _ c₁).mp hq
          · exact hq
        exact absurd (ci.base.one q p c₁ c hq' here) hqp
  · simp only [not_or] at hend
    have hnext := ci.advance here hg hend.1 hend.2
    obtain ⟨-, e₂, e₃, -, e₅⟩ := effect_frame (g := g) s hend.1 hend.2
    have hmode := (ci.base.log p c here).2.2
    rw [text] at hnext
    have hfol : following g s.lh c = .log c' := by
      unfold following
      split
      · exact absurd rfl hend.1
      · exact absurd rfl hend.2
      · rw [text]
    constructor
    · exact base
    · exact hnext.recoverable
    · rw [setProc_booting, e₃]
      exact hnext.contents
    · exact hnext.outside
    · intro hc hb
      rw [setProc_committing, e₂] at hc
      rw [setProc_booting, e₃] at hb
      simp [hc, hb] at hmode
    · intro q c₁ hq
      rw [setProc_proc] at hq
      split at hq
      · simp only [hfol, Pc.log.injEq] at hq
        subst hq
        exact hnext.phase.congr rfl rfl rfl
      · next hqp =>
        rw [e₅] at hq
        exact absurd (ci.base.one q p c₁ c hq here) hqp

end CrashInv

theorem CrashInv.step (hg : 0 < g.size) {d₀ : UInt32 → Block} {s s' : State n} {h : History}
    {l : Label n} (ci : CrashInv g d₀ s h) (hstep : Step g s l s') (out : l.Outside g) :
    CrashInv g d₀ s' (h.step l) := by
  have base := step_inv ci.base hstep
  cases hstep with
  | stutter => exact ci
  | bread p b user =>
    refine ci.frame base rfl rfl rfl rfl rfl ?_ ?_
    · intro q
      rw [setProc_proc]
      split
      · next hqp => subst hqp; rfl
      · rfl
    · intro q c hq
      rw [setProc_proc] at hq
      split at hq
      · next hqp => subst hqp; exact hq
      · exact hq
  | brelse p k b user held clean =>
    refine ci.frame base rfl rfl rfl rfl rfl ?_ ?_
    · intro q
      rw [setProc_proc]
      split
      · next hqp => subst hqp; rfl
      · rfl
    · intro q c hq
      rw [setProc_proc] at hq
      split at hq
      · next hqp => subst hqp; exact hq
      · exact hq
  | store p b d live inOp held => exact ci.store inOp held d out
  | logWrite p b live inOp held => exact ci.logWrite inOp out
  | beginOp p live up calls admitted =>
    refine ci.frame base rfl rfl rfl rfl rfl ?_ ?_
    · intro q
      simp only [State.goto, setProc_proc]
      split
      · next hqp => subst hqp; rfl
      · rfl
    · intro q c hq
      simp only [State.goto, setProc_proc] at hq
      split at hq
      · simp at hq
      · exact hq
  | sleep p live up calls refused =>
    refine ci.frame base rfl rfl rfl rfl rfl ?_ ?_
    · intro q
      simp only [State.goto, setProc_proc]
      split
      · next hqp => subst hqp; rfl
      · rfl
    · intro q c hq
      simp only [State.goto, setProc_proc] at hq
      split at hq
      · simp at hq
      · exact hq
  | endOp p live inOp clean => exact ci.endOp inOp clean
  | log _ p c c' i _ live here text does => exact ci.log_step hg here text does
  | noBuffers live =>
    exact ci.frame base rfl rfl rfl rfl rfl (fun _ => rfl) (fun _ _ hq => hq)

/-- A crash at any point leaves a disk from which the committed contents are recovered. -/
theorem crashInv_boot {p₀ : Fin n} {d₀ : UInt32 → Block} {disk : UInt32 → Block} {h : History}
    (hrec : Recoverable g disk (h.committed d₀)) (hcur : h.current = []) :
    CrashInv g d₀ (boot p₀ disk) h := by
  constructor
  · exact boot_inv p₀ disk
  · exact hrec
  · intro hb
    simp [boot] at hb
  · simp [boot]
  · intro _ hb
    simp [boot] at hb
  · intro q c hq
    simp only [boot] at hq
    split at hq
    · obtain rfl : LogPc.readHead .entry = c := by simpa using hq
      exact hcur
    · simp at hq

theorem Crashes.inv (hg : 0 < g.size) {p₀ : Fin n} {d₀ : UInt32 → Block} (empty : Fresh g d₀)
    {s : State n} {h : History} (run : Crashes g p₀ d₀ s h) : CrashInv g d₀ s h := by
  refine Epochs.invariant (I := CrashInv g d₀) ?_ ?_ ?_ run
  · exact crashInv_boot (recoverable_of_home empty (fun _ _ => rfl)) rfl
  · intro s h l s' ci hs hl
    exact ci.step hg hs hl
  · intro s h ci
    exact crashInv_boot ci.recoverable rfl

/-- The label of a completed recovery comes from its last program point. -/
theorem Step.of_recovered {s s' : State n} (inv : Inv g s) (h : Step g s .recovered s') :
    ∃ p, (s.proc p).pc = .log .recovered ∧ s.booting = true ∧ s'.disk = s.disk := by
  cases h with
  | log _ p c c' i _ live here text does =>
    obtain ⟨hat, -, -⟩ := inv.log p c here
    obtain ⟨rest, held⟩ := hat.held
    obtain ⟨hshown, rfl, -⟩ := exec_effect held text does
    have hc : c = .recovered := by
      unfold shown at hshown
      split at hshown <;> first | rfl | (split at hshown <;> cases hshown) | cases hshown
    subst hc
    exact ⟨p, here, hat.mode.symm, rfl⟩

/-- Recovery with an empty header writes what is already there. -/
theorem effect_of_fresh {s : State n} {c : LogPc} {disk : UInt32 → Block} (fresh : Fresh g disk)
    (hdisk : s.disk = disk) (hmem : s.mem = disk) (hlh : s.lh = []) (located : Located s.lh c)
    (mode : recovery c = true) : (effect g s c).disk = disk ∧ (effect g s c).mem = disk ∧
      (effect g s c).lh = [] := by
  have hsame : Function.update disk g.start (disk g.start) = disk := Function.update_eq_self ..
  cases c with
  | commit => cases mode
  | writeLog => cases mode
  | writeHead call pt =>
    cases pt with
    | entry => exact ⟨hdisk, hmem, hlh⟩
    | gotBuf =>
      refine ⟨hdisk, ?_, hlh⟩
      show Function.update s.mem g.start (setHead (s.mem g.start) s.lh) = disk
      rw [hmem, hlh, setHead_nil_eq fresh, hsame]
    | stored =>
      refine ⟨?_, hmem, hlh⟩
      show Function.update s.disk g.start (s.mem g.start) = disk
      rw [hdisk, hmem, hsame]
    | written => exact ⟨hdisk, hmem, hlh⟩
  | installTrans recovering tail pt =>
    cases pt with
    | test => exact ⟨hdisk, hmem, hlh⟩
    | _ =>
      -- inside the loop body there is a block, and the header names none
      have hlt : tail < s.lh.length := located
      simp [hlh] at hlt
  | clear recovering => exact ⟨hdisk, hmem, rfl⟩
  | finish => cases mode
  | readHead pt =>
    cases pt with
    | gotBuf =>
      refine ⟨hdisk, hmem, ?_⟩
      show getHead (s.mem g.start) = []
      rw [hmem]
      exact getHead_eq_nil fresh
    | _ => exact ⟨hdisk, hmem, hlh⟩
  | recovered => exact ⟨hdisk, hmem, hlh⟩

theorem effect_booting {s : State n} {c : LogPc} (h : (effect g s c).booting = true) :
    s.booting = true := by
  unfold effect at h
  split at h <;> first | exact h | cases h

/-- `recover_from_log` on an empty log leaves the whole disk as it is. -/
theorem recovery_of_fresh {p₀ : Fin n} {disk : UInt32 → Block} (fresh : Fresh g disk)
    {tr : List (Label n)} {s : State n} (run : Run (Step g) (boot p₀ disk) tr s) :
    Inv g s ∧ (s.booting = true → s.disk = disk ∧ s.mem = disk ∧ s.lh = []) := by
  refine Run.invariant (I := fun s : State n => Inv g s ∧
    (s.booting = true → s.disk = disk ∧ s.mem = disk ∧ s.lh = [])) ?_ ?_ run
  · exact ⟨boot_inv p₀ disk, fun _ => ⟨rfl, rfl, rfl⟩⟩
  · rintro s l s' ⟨inv, ih⟩ hstep
    refine ⟨step_inv inv hstep, ?_⟩
    cases hstep with
    | stutter => exact ih
    | bread p b user => exact ih
    | brelse p k b user held clean => exact ih
    | store p b d live inOp held =>
      intro hb
      exact absurd hb (by simp [(inv.quiet_of_inOp inOp).2])
    | logWrite p b live inOp held =>
      have hbooting : (s.logWrite g p b).booting = s.booting := by
        unfold State.logWrite
        split <;> rfl
      rw [hbooting]
      intro hb
      exact absurd hb (by simp [(inv.quiet_of_inOp inOp).2])
    | beginOp p live up calls admitted =>
      intro hb
      exact absurd (hb.symm.trans up) (by simp)
    | sleep p live up calls refused => exact ih
    | endOp p live inOp clean =>
      have hbooting : (s.endOp p).booting = s.booting := by
        unfold State.endOp
        dsimp only
        split
        · rfl
        · split <;> rfl
      rw [hbooting]
      intro hb
      exact absurd hb (by simp [(inv.quiet_of_inOp inOp).2])
    | log _ p c c' i _ live here text does =>
      obtain ⟨hat, -, -⟩ := inv.log p c here
      obtain ⟨rest, held⟩ := hat.held
      obtain ⟨-, rfl, -⟩ := exec_effect held text does
      intro hb
      have hboot := effect_booting hb
      obtain ⟨hdisk, hmem, hlh⟩ := ih hboot
      exact effect_of_fresh fresh hdisk hmem hlh hat.located (hat.mode.trans hboot)
    | noBuffers live => exact ih

end Xv6.Kernel.FlatLog
