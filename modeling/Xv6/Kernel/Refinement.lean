import Xv6.Kernel.BufferUse
import Xv6.Kernel.FlatLogInv

/-!
# The block layer refines the flat log

Behind the buffer cache there is one flat block memory. `Sim` relates a state of the
code to a state of the log over that memory: a valid buffer holds the bytes of its
block, and every reference count is explained by the users and the pins. Each step of
the block layer is a step of the flat log with the same label.
-/
namespace Xv6.Kernel.BlockLayer
open Xv6.Source Xv6.Library.Transition Xv6.Kernel.FlatLog

variable {n : Nat} {g : Geometry}

/-- A process with its buffers replaced by the blocks they cache. -/
def Proc.flat (c : Bcache n) (x : Proc) : FlatLog.Proc where
  pc := x.pc
  held := x.held.map fun i => (c.buf i).blockno
  dirty := x.dirty

def State.use (s : State n) (p : Fin n) : Use := ⟨(s.proc p).held, (s.proc p).call⟩

structure Sim (g : Geometry) (s : State n) (a : FlatLog.State n) : Prop where
  disk : a.disk = s.disk
  lh : a.lh = s.lh
  outstanding : a.outstanding = s.outstanding
  committing : a.committing = s.committing
  booting : a.booting = s.booting
  panicked : a.panicked = s.panicked
  proc : ∀ p, a.proc p = (s.proc p).flat s.cache
  data : ∀ i b, Caches s.cache i b → (s.cache.buf i).valid = true →
    (s.cache.buf i).data = a.mem b
  reads : ∀ p i b, (s.proc p).call = .getting i b ∨ (s.proc p).call = .locked i b → s.Reads g p b
  cache : CacheInv s.cache s.use a.pins

section fields
variable (s : State n) (p q : Fin n) (x : Proc) (call : Call)

theorem setProc_proc : (s.setProc p x).proc q = if q = p then x else s.proc q := by
  simp [State.setProc, Function.update_apply]

theorem setProc_use : (s.setProc p x).use = Function.update s.use p ⟨x.held, x.call⟩ := by
  funext q
  simp only [State.use, setProc_proc, Function.update_apply]
  split <;> rfl

/-- A process that keeps its buffers and its call. -/
theorem setProc_use_self (hx : x.held = (s.proc p).held) (hc : x.call = (s.proc p).call) :
    (s.setProc p x).use = s.use := by
  rw [setProc_use, hx, hc]
  exact Function.update_eq_self p s.use

theorem wakeup_use : s.wakeup.use = s.use := by
  funext q
  simp only [State.use, State.wakeup]
  split <;> rfl

end fields

theorem flat_congr {c c' : Bcache n} {x : Proc}
    (h : ∀ i ∈ x.held, (c'.buf i).blockno = (c.buf i).blockno) : x.flat c' = x.flat c := by
  unfold Proc.flat
  rw [List.map_congr_left h]

/-- A process that reads a block goes on doing so while others run. -/
theorem State.Reads.keep {s s' : State n} {p : Fin n} {b : UInt32} (h : s.Reads g p b)
    (pc : (s'.proc p).pc = (s.proc p).pc) (booting : s.booting = false → s'.booting = false)
    (lh : ∀ c, (s.proc p).pc = .log c → s'.lh = s.lh) : s'.Reads g p b := by
  rcases h with ⟨hup, hpc⟩ | ⟨c, c', hpc, htext⟩
  · refine Or.inl ⟨booting hup, ?_⟩
    rw [pc]
    exact hpc
  · refine Or.inr ⟨c, c', ?_, ?_⟩
    · rw [pc]
      exact hpc
    · rw [lh c hpc]
      exact htext

/-- `install_trans` unpins a block that is still pinned. -/
theorem unpins_pinned {a : FlatLog.State n} {p : Fin n} {c c' : LogPc} {k : Nat} {b : UInt32}
    (hat : At g a p c) (text : code g a.lh c = (.bunpin k, c'))
    (held : (a.proc p).held[k]? = some b) : b ∈ a.pins := by
  obtain ⟨tail, rfl, rfl⟩ : ∃ tail, c = .installTrans false tail .written ∧ k = 0 := by
    unfold code at text
    split at text <;> try split at text
    all_goals simp_all
  obtain ⟨rest, hrest⟩ := hat.held
  have hlt : tail < a.lh.length := hat.located
  rw [hrest] at held
  obtain rfl : a.lh.getD tail 0 = b := by simpa [locals] using held
  have hpins : a.pins = a.lh.drop tail := hat.pins
  rw [hpins, List.drop_eq_getElem_cons hlt, List.getD_eq_getElem?_getD,
    List.getElem?_eq_getElem hlt]
  exact List.mem_cons_self

namespace Sim
variable {s : State n} {a : FlatLog.State n} (sim : Sim g s a)
include sim

theorem pc (p : Fin n) : (a.proc p).pc = (s.proc p).pc := by
  rw [sim.proc p]
  rfl

theorem held (p : Fin n) : (a.proc p).held = (s.proc p).held.map s.blockno := by
  rw [sim.proc p]
  rfl

theorem dirty (p : Fin n) : (a.proc p).dirty = (s.proc p).dirty := by
  rw [sim.proc p]
  rfl

theorem blockno_of_held {p : Fin n} {i : Fin NBUF} (h : i ∈ (s.proc p).held) :
    s.blockno i ∈ (a.proc p).held := by
  rw [sim.held p]
  exact List.mem_map_of_mem h

theorem caches_of_held {p : Fin n} {i : Fin NBUF} (h : i ∈ (s.proc p).held) :
    Caches s.cache i (s.blockno i) := sim.cache.caches_of_held (p := p) h

theorem data_of_held {p : Fin n} {i : Fin NBUF} (h : i ∈ (s.proc p).held) :
    (s.cache.buf i).data = a.mem (s.blockno i) :=
  sim.data i _ (sim.caches_of_held h) (sim.cache.valid p i h)

/-- A step inside a call of the cache, which the flat log does not see. -/
theorem setCall {p : Fin n} {c : Bcache n} {call : Call}
    (cache : CacheInv c (Function.update s.use p ⟨(s.proc p).held, call⟩) a.pins)
    (blockno : ∀ q, ∀ i ∈ (s.proc q).held, (c.buf i).blockno = (s.cache.buf i).blockno)
    (data : ∀ i b, Caches c i b → (c.buf i).valid = true → (c.buf i).data = a.mem b)
    (reads : ∀ i b, call = .getting i b ∨ call = .locked i b → s.Reads g p b) :
    Sim g ({ s with cache := c }.setCall p call) a := by
  refine ⟨sim.disk, sim.lh, sim.outstanding, sim.committing, sim.booting, sim.panicked, ?_, data,
    ?_, ?_⟩
  · intro q
    rw [sim.proc q]
    simp only [State.setCall, setProc_proc]
    split
    · next h =>
      subst h
      exact (flat_congr (x := s.proc q) (blockno q)).symm
    · exact (flat_congr (blockno q)).symm
  · intro q i b hcall
    have hpc : (({ s with cache := c }.setCall p call).proc q).pc = (s.proc q).pc := by
      simp only [State.setCall, setProc_proc]
      split
      · next h => rw [h]
      · rfl
    have hreads : s.Reads g q b := by
      simp only [State.setCall, setProc_proc] at hcall
      split at hcall
      · next h => subst h; exact reads i b hcall
      · exact sim.reads q i b hcall
    exact hreads.keep hpc (fun h => h) (fun _ _ => rfl)
  · simp only [State.setCall, setProc_use]
    exact cache

/-- What is not written back is cached. -/
theorem synced (inv : Inv g a) {i : Fin NBUF} {b : UInt32} (hi : Caches s.cache i b)
    (hv : (s.cache.buf i).valid = false) : a.mem b = s.disk b := by
  have hnot : ∀ j, Caches s.cache j b → (s.cache.buf j).valid ≠ true := by
    intro j hj
    rw [sim.cache.uniq j i b hj hi, hv]
    exact Bool.false_ne_true
  have hnoHeld : ∀ p, b ∉ (a.proc p).held := by
    intro p hp
    rw [sim.held p] at hp
    obtain ⟨j, hj, rfl⟩ := List.mem_map.mp hp
    exact hnot j (sim.caches_of_held hj) (sim.cache.valid p j hj)
  rw [← sim.disk]
  by_contra hne
  rcases inv.sync b hne with hpin | ⟨p, hdirty⟩ | ⟨p, c, hpc, hun⟩
  · obtain ⟨j, hj, hjv⟩ := sim.cache.pinned b hpin
    exact hnot j hj hjv
  · exact hnoHeld p (inv.dirty p b hdirty).2
  · obtain ⟨rest, hheld⟩ := (inv.log p c hpc).1.held
    apply hnoHeld p
    rw [hheld]
    apply List.mem_append_left
    unfold unwritten at hun
    split at hun <;> simp_all [locals]

/-- A buffer that goes on caching its block goes on holding its bytes. -/
theorem data_setBuf {i : Fin NBUF} {x : Buf n}
    (same : x.dev = (s.cache.buf i).dev ∧ x.blockno = (s.cache.buf i).blockno)
    (hx : ∀ b, Caches s.cache i b → x.valid = true → x.data = a.mem b) :
    ∀ j b, Caches (s.cache.setBuf i x) j b → ((s.cache.setBuf i x).buf j).valid = true →
      ((s.cache.setBuf i x).buf j).data = a.mem b := by
  intro j b hj hv
  rw [caches_setBuf same] at hj
  rw [Bcache.setBuf_buf] at hv ⊢
  split
  · next h => subst h; rw [if_pos rfl] at hv; exact hx b hj hv
  · next h => rw [if_neg h] at hv; exact sim.data j b hj hv

theorem bget {p : Fin n} {b : UInt32} {i : Fin NBUF} {c : Bcache n} (ready : s.Ready p)
    (reads : s.Reads g p b) (found : s.cache.bget ROOTDEV b = some (some (i, c))) :
    Sim g ({ s with cache := c }.setCall p (.getting i b)) a := by
  have hreads : ∀ j b', Call.getting i b = .getting j b' ∨ Call.getting i b = .locked j b' →
      s.Reads g p b' := by
    rintro j b' (h | h)
    · cases h
      exact reads
    · cases h
  rcases Bcache.bget_spec sim.cache.ring ROOTDEV b with
    ⟨j, hdev, hblock, hget⟩ | ⟨habsent, ⟨j, hfree, hget⟩ | ⟨_, hget⟩⟩
  · rw [hget] at found
    cases found
    refine sim.setCall (sim.cache.bget_hit ready.2 ⟨hdev, hblock⟩) ?_ ?_ hreads
    · intro q k _
      exact setBuf_blockno (by rfl) k
    · exact sim.data_setBuf ⟨rfl, rfl⟩ (fun b' hb hv => sim.data i b' hb hv)
  · rw [hget] at found
    cases found
    have hother : ∀ q k, k ∈ (s.proc q).held → k ≠ i := by
      rintro q k hk rfl
      have hpos : 0 < (s.proc q).held.count k := List.count_pos_iff.mpr hk
      have hle := count_le_users s.use q k
      rw [(sim.cache.free hfree).1] at hle
      simp only [Use.count, State.use] at hle
      omega
    refine sim.setCall (sim.cache.bget_miss ready.2 hfree habsent) ?_ ?_ hreads
    · intro q k hk
      rw [Bcache.setBuf_buf, if_neg (hother q k hk)]
    · intro k b' hk hv
      unfold Caches at hk
      rw [Bcache.setBuf_buf] at hk hv ⊢
      split at hk
      · next h => subst h; simp at hv
      · next h => rw [if_neg h] at hv ⊢; exact sim.data k b' hk hv
  · rw [hget] at found
    cases found

theorem acquiresleep {p : Fin n} {i : Fin NBUF} {b : UInt32}
    (call : (s.proc p).call = .getting i b) (free : (s.cache.buf i).lock = none) :
    Sim g (s.acquiresleep p i b) a := by
  refine sim.setCall (sim.cache.acquiresleep (p := p) call free) ?_ ?_ ?_
  · intro q k _
    exact setBuf_blockno (by rfl) k
  · exact sim.data_setBuf ⟨rfl, rfl⟩ (fun b' hb hv => sim.data i b' hb hv)
  · rintro j b' (h | h)
    · cases h
    · cases h
      exact sim.reads p i b (Or.inl call)

theorem unref {p : Fin n} {i : Fin NBUF} (call : (s.proc p).call = .releasing i) :
    Sim g ({ s with cache := s.cache.brelse i }.setCall p .idle) a := by
  have hbuf : (s.cache.brelse i).buf =
      (s.cache.setBuf i { s.cache.buf i with refcnt := (s.cache.buf i).refcnt - 1 }).buf := by
    funext j
    rw [Bcache.brelse_buf, Bcache.setBuf_buf]
  have hcaches : Caches (s.cache.brelse i) =
      Caches (s.cache.setBuf i { s.cache.buf i with refcnt := (s.cache.buf i).refcnt - 1 }) := by
    unfold Caches
    rw [hbuf]
  refine sim.setCall (sim.cache.brelse (p := p) call) ?_ ?_ ?_
  · intro q k _
    rw [hbuf]
    exact setBuf_blockno (by rfl) k
  · rw [hbuf, hcaches]
    exact sim.data_setBuf ⟨rfl, rfl⟩ (fun b' hb hv => sim.data i b' hb hv)
  · rintro j b' (h | h) <;> cases h

/-- A step that returns from a call of the cache with other buffers in hand. -/
theorem rehold {p : Fin n} {i : Fin NBUF} {x : Buf n} {pc : Pc} {held : List (Fin NBUF)} {call : Call}
    (same : x.dev = (s.cache.buf i).dev ∧ x.blockno = (s.cache.buf i).blockno)
    (hx : ∀ b, Caches s.cache i b → x.valid = true → x.data = a.mem b)
    (cache : CacheInv (s.cache.setBuf i x) (Function.update s.use p ⟨held, call⟩) a.pins)
    (returned : ∀ j b, call ≠ .getting j b ∧ call ≠ .locked j b) :
    Sim g ({ s with cache := s.cache.setBuf i x }.setProc p
        { s.proc p with pc := pc, held := held, call := call })
      (a.setProc p { a.proc p with pc := pc, held := held.map s.blockno }) := by
  refine ⟨sim.disk, sim.lh, sim.outstanding, sim.committing, sim.booting, sim.panicked, ?_,
    sim.data_setBuf same hx, ?_, ?_⟩
  · intro q
    rw [FlatLog.setProc_proc, setProc_proc]
    split
    · simp only [Proc.flat, sim.dirty p, FlatLog.Proc.mk.injEq, true_and, and_true]
      apply List.map_congr_left
      intro j _
      exact (setBuf_blockno same.2 j).symm
    · rw [sim.proc q]
      exact (flat_congr fun j _ => setBuf_blockno same.2 j).symm
  · intro q j b hcall
    rw [setProc_proc] at hcall
    split at hcall
    · rcases hcall with h | h
      · exact absurd h (returned j b).1
      · exact absurd h (returned j b).2
    · next h =>
      refine (sim.reads q j b hcall).keep ?_ (fun h => h) (fun _ _ => rfl)
      rw [setProc_proc, if_neg h]
  · rw [setProc_use]
    exact cache

/-- `bread` returns the bytes of the block in the flat memory. -/
theorem contents (inv : Inv g a) {p : Fin n} {i : Fin NBUF} {b : UInt32}
    (call : (s.proc p).call = .locked i b) : s.contents i = a.mem b := by
  have hblock := sim.cache.wants p i b (Or.inr call)
  have hcaches : Caches s.cache i b := by
    have h := sim.cache.caches_of_call (p := p) (i := i) (by show (s.proc p).call.buffer = _; rw [call]; rfl)
    rwa [hblock] at h
  unfold State.contents
  split
  · next hv => exact sim.data i b hcaches hv
  · next hv =>
    rw [State.blockno, hblock]
    exact (sim.synced inv hcaches (by simpa using hv)).symm

theorem fill (inv : Inv g a) {p : Fin n} {i : Fin NBUF} {b : UInt32} (live : s.panicked = none)
    (call : (s.proc p).call = .locked i b) :
    ∃ a', FlatLog.Step g a (.bread p b (s.contents i)) a' ∧ Sim g (s.fill g p i) a' := by
  have hblock : s.blockno i = b := sim.cache.wants p i b (Or.inr call)
  have hsim : Sim g (s.fill g p i) (a.setProc p { a.proc p with
      pc := s.resume g p, held := (i :: (s.proc p).held).map s.blockno }) := by
    refine sim.rehold ⟨rfl, rfl⟩ ?_ (sim.cache.fill (p := p) call _) (by simp)
    rintro b' hb -
    rw [sim.contents inv call, ← hblock, ← hb.2]
    rfl
  refine ⟨_, ?_, hsim⟩
  rw [sim.contents inv call, List.map_cons, hblock, ← sim.held p]
  rcases sim.reads p i b (Or.inr call) with ⟨hup, hpc⟩ | ⟨c, c', hpc, htext⟩
  · have hresume : s.resume g p = (a.proc p).pc := by
      unfold State.resume
      rw [sim.pc p]
      rcases hpc with h | h <;> rw [h]
    rw [hresume]
    refine .bread a p b ⟨?_, ?_, ?_⟩
    · rw [sim.panicked, live]
    · rw [sim.booting, hup]
    · rw [sim.pc p]
      exact hpc
  · have hresume : s.resume g p = .log c' := by
      unfold State.resume
      simp only [hpc, htext]
    rw [hresume]
    refine .log a _ p c c' (.bread b) _ ?_ ?_ ?_ rfl
    · rw [sim.panicked, live]
    · rw [sim.pc p, hpc]
    · rw [sim.lh, htext]

/-- `brelse` does not panic: the caller holds the lock. -/
theorem brelse {p : Fin n} {k : Nat} {pc : Pc} {l : Label n} {s' : State n} (ready : s.Ready p)
    (does : s.brelse p k pc = some (l, s')) :
    l = .tau ∧ Sim g s' (a.setProc p { a.proc p with
      pc := pc, held := (a.proc p).held.eraseIdx k }) := by
  unfold State.brelse at does
  cases hk : (s.proc p).held[k]? with
  | none => simp [hk] at does
  | some i =>
    have hmem : i ∈ (s.use p).held := List.mem_of_getElem? hk
    have hlock := (sim.cache.lock i p).mpr (Or.inl hmem)
    simp only [hk, Option.bind_eq_bind, Option.bind_some, if_pos hlock, Option.some.injEq,
      Prod.mk.injEq] at does
    obtain ⟨rfl, rfl⟩ := does
    refine ⟨rfl, ?_⟩
    rw [sim.held p, List.eraseIdx_map]
    exact sim.rehold ⟨rfl, rfl⟩ (fun b' hb hv => sim.data i b' hb hv)
      (sim.cache.releasesleep (p := p) ready.2 hk) (by simp)

theorem goto {p : Fin n} (idle : (s.proc p).call = .idle) (pc : Pc) :
    Sim g (s.goto p pc) (a.goto p pc) := by
  refine ⟨sim.disk, sim.lh, sim.outstanding, sim.committing, sim.booting, sim.panicked, ?_,
    sim.data, ?_, ?_⟩
  · intro q
    simp only [State.goto, FlatLog.State.goto, FlatLog.setProc_proc, setProc_proc]
    split
    · simp [Proc.flat, sim.proc p, State.setProc]
    · exact sim.proc q
  · intro q j b hcall
    simp only [State.goto, setProc_proc] at hcall
    split at hcall
    · simp [idle] at hcall
    · next h =>
      refine (sim.reads q j b hcall).keep ?_ (fun h => h) (fun _ _ => rfl)
      rw [State.goto, setProc_proc, if_neg h]
  · rw [State.goto, setProc_use_self _ _ _ (by rfl) (by rfl)]
    exact sim.cache

theorem setDirty {p : Fin n} (dirty : List UInt32) :
    Sim g (s.setProc p { s.proc p with dirty := dirty })
      (a.setProc p { a.proc p with dirty := dirty }) := by
  refine ⟨sim.disk, sim.lh, sim.outstanding, sim.committing, sim.booting, sim.panicked, ?_,
    sim.data, ?_, ?_⟩
  · intro q
    simp only [FlatLog.setProc_proc, setProc_proc]
    split
    · simp [Proc.flat, sim.proc p, State.setProc]
    · exact sim.proc q
  · intro q j b hcall
    have hpc : ((s.setProc p { s.proc p with dirty := dirty }).proc q).pc = (s.proc q).pc := by
      rw [setProc_proc]
      split
      · next h => rw [h]
      · rfl
    have hold : (s.proc q).call = .getting j b ∨ (s.proc q).call = .locked j b := by
      rw [setProc_proc] at hcall
      split at hcall
      · next h => rw [h]; exact hcall
      · exact hcall
    exact (sim.reads q j b hold).keep hpc (fun h => h) (fun _ _ => rfl)
  · rw [setProc_use_self _ _ _ (by rfl) (by rfl)]
    exact sim.cache

theorem wakeup : Sim g s.wakeup a.wakeup := by
  refine ⟨sim.disk, sim.lh, sim.outstanding, sim.committing, sim.booting, sim.panicked, ?_,
    sim.data, ?_, ?_⟩
  · intro q
    simp only [State.wakeup, FlatLog.State.wakeup, wake, sim.pc q]
    split
    · simp [Proc.flat, sim.proc q]
    · exact sim.proc q
  · intro q j b hcall
    have hold : (s.proc q).call = .getting j b ∨ (s.proc q).call = .locked j b := by
      simp only [State.wakeup] at hcall
      split at hcall <;> exact hcall
    have hreads := sim.reads q j b hold
    refine hreads.keep ?_ (fun h => h) (fun _ _ => rfl)
    have hawake : (s.proc q).pc ≠ .sleeping := by
      rcases hreads with ⟨_, h | h⟩ | ⟨c, _, h, _⟩ <;> simp [h]
    simp only [State.wakeup, if_neg hawake]
  · rw [wakeup_use]
    exact sim.cache

theorem setData {p : Fin n} {i : Fin NBUF} (idle : (s.proc p).call = .idle)
    (hi : i ∈ (s.proc p).held) (d : Block) :
    Sim g (s.setData i d) { a with mem := Function.update a.mem (s.blockno i) d } := by
  have hsame : ∀ q, ∀ j ∈ (s.proc q).held, ((s.setData i d).cache.buf j).blockno =
      (s.cache.buf j).blockno := fun q j _ => setBuf_blockno (by rfl) j
  refine ⟨sim.disk, sim.lh, sim.outstanding, sim.committing, sim.booting, sim.panicked, ?_,
    ?_, ?_, ?_⟩
  · intro q
    show a.proc q = (s.proc q).flat _
    rw [sim.proc q]
    exact (flat_congr (hsame q)).symm
  · intro j b hj hv
    show _ = Function.update a.mem (s.blockno i) d b
    have hj' : Caches s.cache j b := (caches_setBuf (by exact ⟨rfl, rfl⟩) j b).mp hj
    simp only [State.setData] at hv ⊢
    rw [Bcache.setBuf_buf] at hv ⊢
    split
    · next h =>
      subst h
      rw [show b = s.blockno j from hj'.2.symm, Function.update_self]
    · next h =>
      rw [if_neg h] at hv
      have hne : b ≠ s.blockno i := by
        rintro rfl
        exact h (sim.cache.uniq j i _ hj' (sim.caches_of_held hi))
      rw [Function.update_of_ne hne]
      exact sim.data j b hj' hv
  · exact fun q j b h => (sim.reads q j b h).keep rfl (fun h => h) (fun _ _ => rfl)
  · exact sim.cache.setData (p := p) idle hi d

theorem setLh (lh : List UInt32)
    (quiet : ∀ q c, (s.proc q).pc = .log c → (s.proc q).call = .idle) :
    Sim g { s with lh := lh } { a with lh := lh } := by
  refine ⟨sim.disk, rfl, sim.outstanding, sim.committing, sim.booting, sim.panicked, sim.proc,
    sim.data, ?_, sim.cache⟩
  intro q j b hcall
  refine (sim.reads q j b hcall).keep rfl (fun h => h) ?_
  intro c hc
  rw [quiet q c hc] at hcall
  simp at hcall

/-- A reference count and the pins it counts. -/
theorem repin {i : Fin NBUF} {refcnt : Nat} {pins : List UInt32}
    (cache : CacheInv (s.cache.setBuf i { s.cache.buf i with refcnt := refcnt }) s.use pins) :
    Sim g { s with cache := s.cache.setBuf i { s.cache.buf i with refcnt := refcnt } }
      { a with pins := pins } := by
  refine ⟨sim.disk, sim.lh, sim.outstanding, sim.committing, sim.booting, sim.panicked, ?_,
    ?_, ?_, cache⟩
  · intro q
    show a.proc q = (s.proc q).flat _
    rw [sim.proc q]
    exact (flat_congr fun j _ => setBuf_blockno (by rfl) j).symm
  · exact sim.data_setBuf ⟨rfl, rfl⟩ (fun b hb hv => sim.data i b hb hv)
  · exact fun q j b h => (sim.reads q j b h).keep rfl (fun h => h) (fun _ _ => rfl)

theorem bpin {p : Fin n} {i : Fin NBUF} (idle : (s.proc p).call = .idle)
    (hi : i ∈ (s.proc p).held) :
    Sim g { s with cache := s.cache.bpin i } { a with pins := a.pins ++ [s.blockno i] } :=
  sim.repin (sim.cache.bpin (p := p) idle hi)

theorem bunpin {p : Fin n} {i : Fin NBUF} (idle : (s.proc p).call = .idle)
    (hi : i ∈ (s.proc p).held) (hb : s.blockno i ∈ a.pins) :
    Sim g { s with cache := s.cache.bunpin i } { a with pins := a.pins.erase (s.blockno i) } :=
  sim.repin (sim.cache.bunpin (p := p) idle hi hb)

theorem setDisk (disk : UInt32 → Block) : Sim g { s with disk := disk } { a with disk := disk } :=
  ⟨rfl, sim.lh, sim.outstanding, sim.committing, sim.booting, sim.panicked, sim.proc, sim.data,
    sim.reads, sim.cache⟩

theorem setOutstanding (k : Int) :
    Sim g { s with outstanding := k } { a with outstanding := k } :=
  ⟨sim.disk, sim.lh, rfl, sim.committing, sim.booting, sim.panicked, sim.proc, sim.data, sim.reads,
    sim.cache⟩

theorem setCommitting (committing : Bool) :
    Sim g { s with committing := committing } { a with committing := committing } :=
  ⟨sim.disk, sim.lh, sim.outstanding, rfl, sim.booting, sim.panicked, sim.proc, sim.data, sim.reads,
    sim.cache⟩

theorem setPanicked (panicked : Option Panic) :
    Sim g { s with panicked := panicked } { a with panicked := panicked } :=
  ⟨sim.disk, sim.lh, sim.outstanding, sim.committing, sim.booting, rfl, sim.proc, sim.data,
    sim.reads, sim.cache⟩

theorem recovered : Sim g { s with booting := false } { a with booting := false } := by
  refine ⟨sim.disk, sim.lh, sim.outstanding, sim.committing, rfl, sim.panicked, sim.proc, sim.data,
    ?_, sim.cache⟩
  exact fun q j b h => (sim.reads q j b h).keep rfl (fun _ => rfl) (fun _ _ => rfl)

theorem endOp {p : Fin n} (idle : (s.proc p).call = .idle) : Sim g (s.endOp p) (a.endOp p) := by
  have hdown : Sim g { s with outstanding := s.outstanding - 1 }
      { a with outstanding := a.outstanding - 1 } := by
    rw [sim.outstanding]
    exact sim.setOutstanding (s.outstanding - 1)
  unfold State.endOp FlatLog.State.endOp
  simp only [sim.committing, sim.outstanding] at hdown ⊢
  split
  · exact hdown.setPanicked _
  · split
    · exact (hdown.setCommitting true).goto idle _
    · refine hdown.wakeup.goto ?_ _
      simp only [State.wakeup]
      split <;> exact idle

theorem logWrite (inv : Inv g a) {p : Fin n} {i : Fin NBUF} (ready : s.Ready p)
    (inOp : (s.proc p).pc = .inOp) (hi : i ∈ (s.proc p).held) :
    Sim g (s.logWrite g p i) (a.logWrite g p (s.blockno i)) := by
  have hquiet : ∀ q c, (s.proc q).pc = .log c → (s.proc q).call = .idle := by
    intro q c hq
    rw [← sim.pc q] at hq
    rw [← sim.pc p] at inOp
    exact absurd hq (inv.no_log_of_inOp inOp q c)
  unfold State.logWrite FlatLog.State.logWrite
  cases hcheck : logWriteCheck g s.lh s.outstanding with
  | some x =>
    have hflat : logWriteCheck g a.lh a.outstanding = some x := by
      rw [sim.lh, sim.outstanding, hcheck]
    simp only [hflat]
    exact sim.setPanicked _
  | none =>
    have hflat : logWriteCheck g a.lh a.outstanding = none := by
      rw [sim.lh, sim.outstanding, hcheck]
    have hdirty := sim.setDirty (p := p) ((s.proc p).dirty.filter (· != s.blockno i))
    have hlh := hdirty.setLh (absorb s.lh (s.blockno i)).1 (by
      intro q c hq
      rw [setProc_proc] at hq ⊢
      split
      · exact ready.2
      · next h => rw [if_neg h] at hq; exact hquiet q c hq)
    simp only [hflat]
    simp only [sim.dirty p, sim.lh]
    cases hnew : (absorb s.lh (s.blockno i)).2 with
    | false =>
      simp only [Bool.false_eq_true, if_false]
      exact hlh
    | true =>
      simp only [if_true]
      exact hlh.bpin (p := p) (i := i) (by simpa [setProc_proc] using ready.2)
        (by simpa [setProc_proc] using hi)

/-- The instructions of the log code other than `bread`. None of them panics. -/
theorem exec (inv : Inv g a) {p : Fin n} {c c' : LogPc} {i : Instr} {l : Label n} {s' : State n}
    (ready : s.Ready p) (here : (s.proc p).pc = .log c) (text : code g s.lh c = (i, c'))
    (does : s.exec p c c' i = some (l, s')) :
    ∃ a', a.exec p c c' i = some (l, a') ∧ Sim g s' a' := by
  have hidle := ready.2
  have hherea : (a.proc p).pc = .log c := by rw [sim.pc p, here]
  have hquiet : ∀ q c, (s.proc q).pc = .log c → (s.proc q).call = .idle := by
    intro q d hq
    rw [← sim.pc q] at hq
    rw [inv.one q p d c hq hherea]
    exact hidle
  have hget : ∀ (k : Nat) i, (s.proc p).held[k]? = some i →
      (a.proc p).held[k]? = some (s.blockno i) ∧ i ∈ (s.proc p).held := by
    intro k i hk
    rw [sim.held p, List.getElem?_map, hk]
    exact ⟨rfl, List.mem_of_getElem? hk⟩
  cases i with
  | skip =>
    cases does
    exact ⟨_, rfl, sim.goto hidle _⟩
  | bread b => cases does
  | memmove dst src =>
    simp only [State.exec, Option.bind_eq_bind, Option.bind_eq_some_iff, Option.some.injEq,
      Prod.mk.injEq] at does
    obtain ⟨bd, hbd, bs, hbs, rfl, rfl⟩ := does
    have hdata := sim.data_of_held (hget src bs hbs).2
    refine ⟨_, ?_, (sim.setData hidle (hget dst bd hbd).2 (s.cache.buf bs).data).goto hidle _⟩
    simp only [FlatLog.State.exec, (hget dst bd hbd).1, (hget src bs hbs).1, Option.bind_eq_bind,
      Option.bind_some, hdata]
  | bwrite k =>
    simp only [State.exec, Option.bind_eq_bind, Option.bind_eq_some_iff] at does
    obtain ⟨i, hi, does⟩ := does
    have hmem := (hget k i hi).2
    have hlock := (sim.cache.lock i p).mpr (Or.inl hmem)
    rw [if_pos hlock] at does
    cases does
    refine ⟨_, ?_, (sim.setDisk (Function.update s.disk (s.blockno i) (s.cache.buf i).data)).goto
      hidle _⟩
    simp only [FlatLog.State.exec, (hget k i hi).1, Option.bind_eq_bind, Option.bind_some,
      sim.data_of_held hmem, sim.disk]
  | bunpin k =>
    simp only [State.exec, Option.bind_eq_bind, Option.bind_eq_some_iff, Option.some.injEq,
      Prod.mk.injEq] at does
    obtain ⟨i, hi, rfl, rfl⟩ := does
    have hpin : s.blockno i ∈ a.pins := by
      rw [← sim.lh] at text
      exact unpins_pinned (inv.log p c hherea).1 text (hget k i hi).1
    refine ⟨_, ?_, (sim.bunpin hidle (hget k i hi).2 hpin).goto hidle _⟩
    simp only [FlatLog.State.exec, (hget k i hi).1, Option.bind_eq_bind, Option.bind_some]
  | brelse k =>
    obtain ⟨rfl, hsim⟩ := sim.brelse ready does
    exact ⟨_, rfl, hsim⟩
  | storeHead k =>
    simp only [State.exec, Option.bind_eq_bind, Option.bind_eq_some_iff, Option.some.injEq,
      Prod.mk.injEq] at does
    obtain ⟨i, hi, rfl, rfl⟩ := does
    have hmem := (hget k i hi).2
    refine ⟨_, ?_, (sim.setData hidle hmem (setHead (s.cache.buf i).data s.lh)).goto hidle _⟩
    simp only [FlatLog.State.exec, (hget k i hi).1, Option.bind_eq_bind, Option.bind_some,
      sim.data_of_held hmem, sim.lh]
  | loadHead k =>
    simp only [State.exec, Option.bind_eq_bind, Option.bind_eq_some_iff, Option.some.injEq,
      Prod.mk.injEq] at does
    obtain ⟨i, hi, hlen, hfits, rfl, rfl⟩ := does
    refine ⟨_, ?_, (sim.setLh (getHead (s.cache.buf i).data) hquiet).goto hidle _⟩
    rw [sim.data_of_held (hget k i hi).2] at hfits ⊢
    simp only [FlatLog.State.exec, (hget k i hi).1, Option.bind_eq_bind, Option.bind_some, hfits]
  | clear =>
    cases does
    exact ⟨_, rfl, (sim.setLh [] hquiet).goto hidle _⟩
  | finish =>
    cases does
    refine ⟨_, rfl, (sim.setCommitting false).wakeup.goto ?_ _⟩
    simp only [State.wakeup]
    split <;> exact hidle
  | recovered =>
    cases does
    exact ⟨_, rfl, sim.recovered.goto hidle _⟩

/-- Every step of the block layer is a step of the flat log with the same label. -/
theorem step (inv : Inv g a) {l : Label n} {s' : State n} (hstep : Step g s l s') :
    ∃ a', FlatLog.Step g a l a' ∧ Sim g s' a' := by
  have hlive : s.panicked = none → a.panicked = none := fun h => by rw [sim.panicked, h]
  cases hstep with
  | bget p b i cache ready reads found =>
    exact ⟨a, .stutter a, sim.bget ready reads found⟩
  | noBuffers p b ready reads none =>
    exact ⟨_, .noBuffers a (hlive ready.1), sim.setPanicked _⟩
  | acquiresleep p i b live call free =>
    exact ⟨a, .stutter a, sim.acquiresleep call free⟩
  | fill p i b live call onDisk => exact sim.fill inv live call
  | brelse _ p k l ready user clean does =>
    obtain ⟨rfl, hsim⟩ := sim.brelse ready does
    cases hk : (s.proc p).held[k]? with
    | none => simp [State.brelse, hk] at does
    | some i =>
      rw [← sim.pc p] at hsim
      refine ⟨_, .brelse a p k (s.blockno i) ⟨hlive ready.1, ?_, ?_⟩ ?_ ?_, hsim⟩
      · rw [sim.booting, user.1]
      · rw [sim.pc p]
        exact user.2
      · rw [sim.held p, List.getElem?_map, hk]
        rfl
      · rw [sim.dirty p]
        exact clean i hk
  | unref p i live call => exact ⟨a, .stutter a, sim.unref call⟩
  | store p i d ready inOp held =>
    refine ⟨_, .store a p (s.blockno i) d (hlive ready.1) ?_ (sim.blockno_of_held held), ?_⟩
    · rw [sim.pc p, inOp]
    · have hsim := (sim.setData ready.2 held d).setDirty (p := p) (s.blockno i :: (s.proc p).dirty)
      rw [sim.dirty p]
      exact hsim
  | logWrite p i ready inOp held =>
    refine ⟨_, .logWrite a p (s.blockno i) (hlive ready.1) ?_ (sim.blockno_of_held held),
      sim.logWrite inv ready inOp held⟩
    rw [sim.pc p, inOp]
  | beginOp p ready up calls admitted =>
    refine ⟨_, .beginOp a p (hlive ready.1) ?_ ?_ ?_, ?_⟩
    · rw [sim.booting, up]
    · rw [sim.pc p]
      exact calls
    · rw [sim.committing, sim.lh, sim.outstanding]
      exact admitted
    · rw [sim.outstanding]
      exact (sim.setOutstanding (s.outstanding + 1)).goto ready.2 _
  | sleep p ready up calls refused =>
    refine ⟨_, .sleep a p (hlive ready.1) ?_ ?_ ?_, sim.goto ready.2 _⟩
    · rw [sim.booting, up]
    · rw [sim.pc p]
      exact calls
    · rw [sim.committing, sim.lh, sim.outstanding]
      exact refused
  | endOp p ready inOp clean =>
    refine ⟨_, .endOp a p (hlive ready.1) ?_ ?_, sim.endOp ready.2⟩
    · rw [sim.pc p, inOp]
    · rw [sim.dirty p, clean]
  | log _ p c c' i l ready here text does =>
    obtain ⟨a', hexec, hsim⟩ := sim.exec inv ready here text does
    refine ⟨a', .log a a' p c c' i l (hlive ready.1) ?_ ?_ hexec, hsim⟩
    · rw [sim.pc p, here]
    · rw [sim.lh, text]

end Sim

theorem boot_sim (p₀ : Fin n) (disk : UInt32 → Block) :
    Sim g (boot p₀ disk) (FlatLog.boot p₀ disk) := by
  refine ⟨rfl, rfl, rfl, rfl, rfl, rfl, fun _ => rfl, ?_, ?_, binit_cacheInv⟩
  · intro i b _ hv
    cases hv
  · rintro p i b (h | h) <;> cases h

/-- Every run of the block layer is a run of the flat log. -/
theorem run_sim {p₀ : Fin n} {disk : UInt32 → Block} {tr : List (Label n)} {s : State n}
    (run : Run (Step g) (boot p₀ disk) tr s) :
    ∃ a, Run (FlatLog.Step g) (FlatLog.boot p₀ disk) tr a ∧ Inv g a ∧ Sim g s a := by
  refine Run.simulation (R := fun s a => Inv g a ∧ Sim g s a) ⟨boot_inv p₀ disk, boot_sim p₀ disk⟩
    ?_ run
  rintro s a l s' ⟨inv, sim⟩ hstep
  obtain ⟨a', hstep', hsim⟩ := sim.step inv hstep
  exact ⟨a', hstep', step_inv inv hstep', hsim⟩

/-- A logged block that `install_trans` has not unpinned yet. -/
def Pinned (s : State n) (b : UInt32) : Prop :=
  b ∈ s.lh ∧ ∀ p c, (s.proc p).pc = .log c → b ∈ pinned s.lh c

theorem pinned_iff {s : State n} {a : FlatLog.State n} (inv : Inv g a) (sim : Sim g s a)
    (up : s.booting = false) {b : UInt32} (hb : b ∈ s.lh) : Pinned s b ↔ b ∈ a.pins := by
  rw [← sim.booting] at up
  cases hc : a.committing with
  | false =>
    have hnone := inv.no_log_of_quiet hc up
    rw [(inv.idle hc up).1, sim.lh]
    constructor
    · intro h
      exact h.1
    · intro _
      refine ⟨hb, ?_⟩
      intro p c hp
      rw [← sim.pc p] at hp
      exact absurd hp (hnone p c)
  | true =>
    obtain ⟨p, c, hp⟩ := inv.running (Or.inl hc)
    have hpins := (inv.log p c hp).1.pins
    rw [hpins, sim.lh]
    constructor
    · intro h
      rw [sim.pc p] at hp
      exact h.2 p c hp
    · intro h
      refine ⟨hb, ?_⟩
      intro q d hq
      rw [← sim.pc q] at hq
      obtain rfl := inv.one q p d c hq hp
      rw [hp] at hq
      cases hq
      exact h

end Xv6.Kernel.BlockLayer
