import Xv6.Kernel.CrashLog
import Xv6.Kernel.Refinement
import Xv6.Kernel.Schedule

/-!
# One flat block memory

Behind the buffer cache and the log a process sees one memory of blocks: `bread`
returns what was last stored, whatever was evicted, committed or installed since.
-/
namespace Xv6.Guarantees.FlatMemory
open Xv6.Source Xv6.Library.Ring Xv6.Library.Transition Xv6.Kernel Xv6.Kernel.BlockLayer
open Xv6.Kernel.FlatLog (Label Inv History Fresh)

variable {n : Nat} {g : Geometry}

/-- A store by the holder of a block, be it a process or the log code. -/
def stored (m : UInt32 → Block) : Label n → UInt32 → Block
  | .store _ b d | .logStore b d => Function.update m b d
  | _ => m

/-- A store by a process. -/
def storedByProcess (m : UInt32 → Block) : Label n → UInt32 → Block
  | .store _ b d => Function.update m b d
  | _ => m

/-- The log code stores what its label shows. -/
theorem effect_mem (a : FlatLog.State n) (p : Fin n) (c : LogPc) :
    (FlatLog.effect g a c).mem = stored a.mem (FlatLog.shown g a p c) := by
  cases c with
  | writeLog tail pt =>
    cases pt with
    | test => simp only [FlatLog.shown]; split <;> rfl
    | _ => rfl
  | writeHead call pt => cases call <;> cases pt <;> rfl
  | installTrans recovering tail pt =>
    cases pt with
    | test => simp only [FlatLog.shown]; split <;> rfl
    | _ => cases recovering <;> rfl
  | readHead pt => cases pt <;> rfl
  | _ => rfl

theorem mem_step {a a' : FlatLog.State n} {l : Label n} (inv : Inv g a)
    (hstep : FlatLog.Step g a l a') : a'.mem = stored a.mem l := by
  cases hstep with
  | stutter => rfl
  | bread p b user => rfl
  | brelse p k b user held clean => rfl
  | store p b d live inOp held => rfl
  | logWrite p b live inOp held =>
    show (a.logWrite g p b).mem = a.mem
    unfold FlatLog.State.logWrite
    split <;> rfl
  | beginOp p live up calls admitted => rfl
  | sleep p live up calls refused => rfl
  | endOp p live inOp clean =>
    show (a.endOp p).mem = a.mem
    unfold FlatLog.State.endOp
    dsimp only
    split
    · rfl
    · split <;> rfl
  | log _ p c c' i _ live here text does =>
    obtain ⟨rest, held⟩ := (inv.log p c here).1.held
    obtain ⟨rfl, rfl, -⟩ := FlatLog.exec_effect held text does
    rw [FlatLog.setProc_mem, effect_mem]
  | noBuffers live => rfl

theorem mem_run {p₀ : Fin n} {disk : UInt32 → Block} {tr : List (Label n)} {a : FlatLog.State n}
    (run : Run (FlatLog.Step g) (FlatLog.boot p₀ disk) tr a) : a.mem = tr.foldl stored disk := by
  have h : Inv g a ∧ a.mem = tr.foldl stored disk := by
    refine Run.record (I := fun (a : FlatLog.State n) m => Inv g a ∧ a.mem = m)
      ⟨FlatLog.boot_inv p₀ disk, rfl⟩ ?_ run
    rintro s m l s' ⟨inv, rfl⟩ hstep
    exact ⟨FlatLog.step_inv inv hstep, mem_step inv hstep⟩
  exact h.2

/-- The committed transactions and the stores since are the stores of the processes. -/
theorem history_stored (h : History) (disk : UInt32 → Block) (tr : List (Label n)) :
    FlatLog.applyTx ((tr.foldl History.step h).committed disk) (tr.foldl History.step h).current =
      tr.foldl storedByProcess (FlatLog.applyTx (h.committed disk) h.current) := by
  induction tr generalizing h with
  | nil => rfl
  | cons l tr ih =>
    rw [List.foldl_cons, List.foldl_cons, ih]
    congr 1
    cases l with
    | store p b d => exact FlatLog.applyTx_append ..
    | commit => exact FlatLog.committed_commit h disk
    | _ => rfl

/-- Outside the log area the log code never changes what a process has stored. -/
theorem mem_outside (hg : 0 < g.size) {p₀ : Fin n} {disk : UInt32 → Block} (empty : Fresh g disk)
    {tr : List (Label n)} {a : FlatLog.State n}
    (run : Run (FlatLog.Step g) (FlatLog.boot p₀ disk) tr a) (outside : ∀ l ∈ tr, l.Outside g)
    (up : a.booting = false) {b : UInt32} (hb : ¬ g.area b) :
    a.mem b = tr.foldl storedByProcess disk b := by
  have hstart : FlatLog.Crashes g p₀ disk (FlatLog.boot p₀ disk) ⟨[], []⟩ := .start
  have hinv := FlatLog.Crashes.inv hg empty (hstart.run run outside)
  rw [hinv.contents up b hb, history_stored]
  rfl

/-- Buffers in use go on caching their blocks. -/
def Keeps (c c' : Bcache n) : Prop :=
  ∀ i b, Caches c i b → (c.buf i).valid = true → (c.buf i).refcnt ≠ 0 →
    Caches c' i b ∧ (c'.buf i).valid = true

theorem keeps_setBuf (c : Bcache n) (j : Fin NBUF) (x : Buf n) (hdev : x.dev = (c.buf j).dev)
    (hblock : x.blockno = (c.buf j).blockno) (hvalid : (c.buf j).valid = true → x.valid = true) :
    Keeps c (c.setBuf j x) := by
  intro i b hi hv _
  refine ⟨(caches_setBuf ⟨hdev, hblock⟩ i b).mpr hi, ?_⟩
  rw [Bcache.setBuf_buf]
  split
  · next h => subst h; exact hvalid hv
  · exact hv

theorem keeps_brelse (c : Bcache n) (j : Fin NBUF) : Keeps c (c.brelse j) := by
  intro i b hi hv _
  unfold Caches
  rw [Bcache.brelse_buf]
  split
  · next h => subst h; exact ⟨hi, hv⟩
  · exact ⟨hi, hv⟩

theorem keeps_bget {c c' : Bcache n} (hring : c.OnRing) {b : UInt32} {j : Fin NBUF}
    (found : c.bget ROOTDEV b = some (some (j, c'))) : Keeps c c' := by
  rcases Bcache.bget_spec hring ROOTDEV b with
    ⟨k, -, -, hget⟩ | ⟨-, ⟨k, hfree, hget⟩ | ⟨-, hget⟩⟩
  · rw [hget] at found
    cases found
    exact keeps_setBuf c j _ rfl rfl id
  · rw [hget] at found
    cases found
    intro i b' hi hv used
    have hne : i ≠ j := by
      rintro rfl
      exact used hfree
    unfold Caches
    rw [Bcache.setBuf_buf, if_neg hne]
    exact ⟨hi, hv⟩
  · rw [hget] at found
    cases found

theorem keeps_brelses {s s' : State n} {p : Fin n} {k : Nat} {pc : FlatLog.Pc} {l : Label n}
    (does : s.brelse p k pc = some (l, s')) : Keeps s.cache s'.cache := by
  simp only [State.brelse, Option.bind_eq_bind, Option.bind_eq_some_iff] at does
  obtain ⟨i, -, does⟩ := does
  split at does
  · cases does
    exact keeps_setBuf s.cache i _ rfl rfl id
  · cases does
    exact fun _ _ hi hv _ => ⟨hi, hv⟩

theorem keeps_exec {s s' : State n} {p : Fin n} {c c' : LogPc} {i : Instr} {l : Label n}
    (does : s.exec p c c' i = some (l, s')) : Keeps s.cache s'.cache := by
  have hsame : Keeps s.cache s.cache := fun _ _ hi hv _ => ⟨hi, hv⟩
  cases i with
  | skip | clear | finish | recovered =>
    cases does
    exact hsame
  | bread b => cases does
  | memmove dst src =>
    simp only [State.exec, Option.bind_eq_bind, Option.bind_eq_some_iff, Option.some.injEq,
      Prod.mk.injEq] at does
    obtain ⟨bd, -, bs, -, -, rfl⟩ := does
    exact keeps_setBuf s.cache bd _ rfl rfl id
  | bwrite k =>
    simp only [State.exec, Option.bind_eq_bind, Option.bind_eq_some_iff] at does
    obtain ⟨i, -, does⟩ := does
    split at does <;> cases does <;> exact hsame
  | bunpin k | storeHead k =>
    simp only [State.exec, Option.bind_eq_bind, Option.bind_eq_some_iff, Option.some.injEq,
      Prod.mk.injEq] at does
    obtain ⟨i, -, -, rfl⟩ := does
    exact keeps_setBuf s.cache i _ rfl rfl id
  | brelse k => exact keeps_brelses does
  | loadHead k =>
    simp only [State.exec, Option.bind_eq_bind, Option.bind_eq_some_iff, Option.some.injEq,
      Prod.mk.injEq] at does
    obtain ⟨i, -, -, -, -, rfl⟩ := does
    exact hsame

theorem keeps_step {s s' : State n} {l : Label n} (hring : s.cache.OnRing) (hstep : Step g s l s') :
    Keeps s.cache s'.cache := by
  have hsame : Keeps s.cache s.cache := fun _ _ hi hv _ => ⟨hi, hv⟩
  cases hstep with
  | bget p b j cache ready reads found => exact keeps_bget hring found
  | noBuffers p b ready reads none => exact hsame
  | acquiresleep p j b live call free => exact keeps_setBuf s.cache j _ rfl rfl id
  | fill p j b live call onDisk => exact keeps_setBuf s.cache j _ rfl rfl fun _ => rfl
  | brelse _ p k l ready user clean does => exact keeps_brelses does
  | unref p j live call => exact keeps_brelse s.cache j
  | store p j d ready inOp held => exact keeps_setBuf s.cache j _ rfl rfl id
  | logWrite p j ready inOp held =>
    show Keeps s.cache (s.logWrite g p j).cache
    unfold State.logWrite
    split
    · exact hsame
    · dsimp only
      show Keeps s.cache (if _ then s.cache.bpin j else s.cache)
      split
      · exact keeps_setBuf s.cache j _ rfl rfl id
      · exact hsame
  | beginOp p ready up calls admitted => exact hsame
  | sleep p ready up calls refused => exact hsame
  | endOp p ready inOp clean =>
    show Keeps s.cache (s.endOp p).cache
    unfold State.endOp
    dsimp only
    split
    · exact hsame
    · split <;> exact hsame
  | log _ p c c' j l ready here text does => exact keeps_exec does

/-- What a run of the block layer shows of the cache and the log. -/
structure Flat (g : Geometry) (disk : UInt32 → Block) (tr : List (Label n)) (s : State n) : Prop where
  /-- `bread` returns the bytes last stored by an earlier holder. -/
  reads : ∀ p b d s', Step g s (.bread p b d) s' → d = tr.foldl stored disk b
  /-- Outside the log area that is what the processes stored: the log code writes back
  their bytes and no others. -/
  readsOutside : 0 < g.size → Fresh g disk → (∀ l ∈ tr, l.Outside g) → s.booting = false →
    ∀ p b d s', ¬ g.area b → Step g s (.bread p b d) s' → d = tr.foldl storedByProcess disk b
  cachedOnce : ∀ i j, (s.cache.buf i).dev ≠ 0 → (s.cache.buf i).dev = (s.cache.buf j).dev →
    (s.cache.buf i).blockno = (s.cache.buf j).blockno → i = j
  /-- A block that is logged and not installed stays in its buffer. -/
  loggedKept : s.booting = false → ∀ b, Pinned s b → ∃ i, Caches s.cache i b ∧
    (s.cache.buf i).valid = true ∧ ∀ l s', Step g s l s' →
      Caches s'.cache i b ∧ (s'.cache.buf i).valid = true
  ring : ∃ order, IsRing s.cache.links order ∧ order.Perm (List.finRange NBUF)

/-- The buffer cache and the log behave as one flat block memory, in every run. -/
theorem block_layer_flat_memory {p₀ : Fin n} {disk : UInt32 → Block} {tr : List (Label n)}
    {s : State n} (run : Run (Step g) (boot p₀ disk) tr s) : Flat g disk tr s := by
  obtain ⟨a, hrun, inv, sim⟩ := run_sim run
  have hreads : ∀ p b d s', Step g s (.bread p b d) s' → d = a.mem b := by
    intro p b d s' hstep
    obtain ⟨a', hflat, -⟩ := sim.step inv hstep
    exact hflat.of_bread inv
  constructor
  · intro p b d s' hstep
    rw [hreads p b d s' hstep, mem_run hrun]
  · intro hg empty outside up p b d s' hb hstep
    rw [hreads p b d s' hstep]
    exact mem_outside hg empty hrun outside (by rw [sim.booting, up]) hb
  · intro i j hdev hsame hblock
    have hi := (sim.cache.dev i).resolve_left hdev
    exact sim.cache.uniq i j _ ⟨hi, rfl⟩ ⟨hsame ▸ hi, hblock.symm⟩
  · intro up b hb
    have hpin := (pinned_iff inv sim up hb.1).mp hb
    obtain ⟨i, hi, hv⟩ := sim.cache.pinned b hpin
    have hcount := sim.cache.counted i b hi
    have hpos := List.count_pos_iff.mpr hpin
    exact ⟨i, hi, hv, fun l s' hstep => keeps_step sim.cache.ring hstep i b hi hv (by omega)⟩
  · obtain ⟨order, hring, hall⟩ := sim.cache.ring
    refine ⟨order, hring, ?_⟩
    rw [List.perm_ext_iff_of_nodup hring.nodup (List.nodup_finRange NBUF)]
    intro i
    simp [hall i]

/-- A process reads a block that another one has modified and logged. -/
theorem block_layer_flat_memory_shared : ∃ (tr : List (Label 2)) (s : State 2),
    Run (Step .mkfs) (boot 0 fun _ _ => 0) tr s ∧ (∃ i, (s.proc 1).call = .locked i 100) ∧
    Flat .mkfs (fun _ _ => 0) tr s := by
  obtain ⟨tr, s, hrun, hok⟩ := perform_reaches (g := .mkfs) (s := boot (0 : Fin 2) fun _ _ => 0)
    [recoversEmpty .mkfs 0, [.beginOp 0], breads 0 100, [.store 0 0 (fun _ => 7), .logWrite 0 0],
      brelses 0 0, [.bget 1 100, .acquiresleep 1]].flatten
    (fun r => decide (∃ i, (r.2.proc 1).call = .locked i 100)) (by decide +kernel)
  exact ⟨tr, s, hrun, of_decide_eq_true hok, block_layer_flat_memory hrun⟩

end Xv6.Guarantees.FlatMemory
