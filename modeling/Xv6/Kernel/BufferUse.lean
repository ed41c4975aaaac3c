import Xv6.Kernel.BlockLayer

/-!
# Who uses a buffer

The bookkeeping of `bio.c`: every reference count is the number of calls and held
pointers to the buffer plus the pin of `log_write`, a sleep lock is held by the
process that reads or holds the buffer, and no block is cached twice. One lemma for
each section that the code runs under `bcache.lock`.
-/
namespace Xv6.Kernel.BlockLayer
open Xv6.Source Xv6.Library.Transition

variable {n : Nat}

def Call.buffer : Call → Option (Fin NBUF)
  | .idle => none
  | .getting i _ | .locked i _ | .releasing i => some i

/-- What a process has to do with the cache. -/
structure Use where
  held : List (Fin NBUF)
  call : Call

/-- The references of a process to a buffer. -/
def Use.count (u : Use) (i : Fin NBUF) : Nat :=
  u.held.count i + if u.call.buffer = some i then 1 else 0

def Use.locks (u : Use) (i : Fin NBUF) : Prop := i ∈ u.held ∨ ∃ b, u.call = .locked i b

def users (use : Fin n → Use) (i : Fin NBUF) : Nat := ∑ p, (use p).count i

/-- Only a buffer with a device caches a block. -/
def Caches (c : Bcache n) (i : Fin NBUF) (b : UInt32) : Prop :=
  (c.buf i).dev = ROOTDEV ∧ (c.buf i).blockno = b

instance (c : Bcache n) (i : Fin NBUF) (b : UInt32) : Decidable (Caches c i b) :=
  inferInstanceAs (Decidable (_ ∧ _))

theorem setBuf_blockno {c : Bcache n} {i : Fin NBUF} {x : Buf n}
    (same : x.blockno = (c.buf i).blockno) (j : Fin NBUF) :
    ((c.setBuf i x).buf j).blockno = (c.buf j).blockno := by
  rw [Bcache.setBuf_buf]
  split
  · next h => rw [h, same]
  · rfl

theorem caches_setBuf {c : Bcache n} {i : Fin NBUF} {x : Buf n}
    (same : x.dev = (c.buf i).dev ∧ x.blockno = (c.buf i).blockno) (j : Fin NBUF) (b : UInt32) :
    Caches (c.setBuf i x) j b ↔ Caches c j b := by
  unfold Caches
  rw [setBuf_blockno same.2, Bcache.setBuf_buf]
  split
  · next h => rw [h, same.1]
  · rfl

structure CacheInv (c : Bcache n) (use : Fin n → Use) (pins : List UInt32) : Prop where
  ring : c.OnRing
  dev : ∀ i, (c.buf i).dev = 0 ∨ (c.buf i).dev = ROOTDEV
  uniq : ∀ i j b, Caches c i b → Caches c j b → i = j
  counted : ∀ i b, Caches c i b → (c.buf i).refcnt = users use i + pins.count b
  unused : ∀ i, (c.buf i).dev = 0 → (c.buf i).refcnt = 0 ∧ users use i = 0
  lock : ∀ i p, (c.buf i).lock = some p ↔ (use p).locks i
  nodup : ∀ p, (use p).held.Nodup
  apart : ∀ p i b, (use p).call = .locked i b → i ∉ (use p).held
  valid : ∀ p i, i ∈ (use p).held → (c.buf i).valid = true
  wants : ∀ p i b, (use p).call = .getting i b ∨ (use p).call = .locked i b →
    (c.buf i).blockno = b
  pinned : ∀ b ∈ pins, ∃ i, Caches c i b ∧ (c.buf i).valid = true

theorem users_update (use : Fin n → Use) (p : Fin n) (u : Use) (i : Fin NBUF) :
    users (Function.update use p u) i + (use p).count i = users use i + u.count i := by
  have h := sum_change (fun q => (use q).count i) (fun q => (Function.update use p u q).count i) p
    (fun q hq => by rw [Function.update_of_ne hq])
  simpa [users] using h

theorem count_le_users (use : Fin n → Use) (p : Fin n) (i : Fin NBUF) :
    (use p).count i ≤ users use i := le_sum (fun q => (use q).count i) p

namespace CacheInv
variable {c : Bcache n} {use : Fin n → Use} {pins : List UInt32} (inv : CacheInv c use pins)
include inv

theorem caches_of_used {p : Fin n} {i : Fin NBUF} (h : 0 < (use p).count i) :
    Caches c i (c.buf i).blockno := by
  refine ⟨(inv.dev i).resolve_left ?_, rfl⟩
  intro h0
  have hu := (inv.unused i h0).2
  have hle := count_le_users use p i
  omega

theorem caches_of_held {p : Fin n} {i : Fin NBUF} (h : i ∈ (use p).held) :
    Caches c i (c.buf i).blockno := by
  apply inv.caches_of_used (p := p)
  have hc := List.count_pos_iff.mpr h
  unfold Use.count
  omega

theorem caches_of_call {p : Fin n} {i : Fin NBUF} (h : (use p).call.buffer = some i) :
    Caches c i (c.buf i).blockno := by
  apply inv.caches_of_used (p := p)
  simp [Use.count, h]

/-- A free buffer has no user and no pin. -/
theorem free {i : Fin NBUF} (h : (c.buf i).refcnt = 0) :
    users use i = 0 ∧ ∀ b, Caches c i b → b ∉ pins := by
  rcases inv.dev i with h0 | h1
  · refine ⟨(inv.unused i h0).2, ?_⟩
    intro b hb
    have hne : (0 : UInt32) ≠ ROOTDEV := by decide
    exact absurd (h0.symm.trans hb.1) hne
  · constructor
    · have hc := inv.counted i _ ⟨h1, rfl⟩
      omega
    · intro b hb hmem
      have hc := inv.counted i b hb
      have hpos := List.count_pos_iff.mpr hmem
      omega

/-- The bookkeeping reads the buffers, and of their order only that it is a ring. -/
theorem relink {c' : Bcache n} (ring : c'.OnRing) (same : c'.buf = c.buf) :
    CacheInv c' use pins := by
  obtain ⟨buf, links⟩ := c
  obtain ⟨buf', links'⟩ := c'
  cases same
  exact ⟨ring, inv.dev, inv.uniq, inv.counted, inv.unused, inv.lock, inv.nodup, inv.apart,
    inv.valid, inv.wants, inv.pinned⟩

/-- A section that changes one buffer in use, without recycling it, and one process.
Only what concerns that buffer and that process has to be shown. -/
theorem touch (p : Fin n) (i : Fin NBUF) (x : Buf n) (u : Use) (pins' : List UInt32)
    (used : (c.buf i).dev = ROOTDEV)
    (same : x.dev = (c.buf i).dev ∧ x.blockno = (c.buf i).blockno)
    (held : ∀ j, j ≠ i → u.held.count j = (use p).held.count j)
    (call : ∀ j, j ≠ i → (use p).call.buffer ≠ some j ∧ u.call.buffer ≠ some j)
    (counted : x.refcnt + (use p).count i + pins.count x.blockno =
      (c.buf i).refcnt + u.count i + pins'.count x.blockno)
    (pinsOthers : ∀ b, b ≠ x.blockno → pins'.count b = pins.count b)
    (lock : ∀ q, x.lock = some q ↔ (Function.update use p u q).locks i)
    (once : u.held.count i ≤ 1) (apart : ∀ b, u.call = .locked i b → i ∉ u.held)
    (valid : i ∈ u.held ∨ (c.buf i).valid = true ∨ x.blockno ∈ pins' → x.valid = true)
    (wants : ∀ b, u.call = .getting i b ∨ u.call = .locked i b → (c.buf i).blockno = b) :
    CacheInv (c.setBuf i x) (Function.update use p u) pins' := by
  have hcaches := caches_setBuf same
  have hcached : Caches c i x.blockno := ⟨used, same.2.symm⟩
  have hdev : ∀ j, ((c.setBuf i x).buf j).dev = (c.buf j).dev := by
    intro j
    rw [Bcache.setBuf_buf]
    split
    · next h => subst h; exact same.1
    · rfl
  have hcount : ∀ j, j ≠ i → u.count j = (use p).count j := by
    intro j hj
    unfold Use.count
    rw [held j hj, if_neg (call j hj).1, if_neg (call j hj).2]
  have hheld : ∀ j, j ≠ i → (j ∈ u.held ↔ j ∈ (use p).held) := by
    intro j hj
    rw [← List.count_pos_iff, ← List.count_pos_iff, held j hj]
  have hlocks : ∀ j, j ≠ i → (u.locks j ↔ (use p).locks j) := by
    intro j hj
    have hu : ∀ b, u.call ≠ .locked j b := fun b e => (call j hj).2 (by rw [e]; rfl)
    have hp : ∀ b, (use p).call ≠ .locked j b := fun b e => (call j hj).1 (by rw [e]; rfl)
    simp [Use.locks, hheld j hj, hu, hp]
  constructor
  · exact inv.ring
  · intro j
    rw [hdev]
    exact inv.dev j
  · intro j k b hj hk
    exact inv.uniq j k b ((hcaches j b).mp hj) ((hcaches k b).mp hk)
  · intro j b hj
    rw [hcaches] at hj
    have hold := inv.counted j b hj
    have hs := users_update use p u j
    rw [Bcache.setBuf_buf]
    split
    · next h =>
      subst h
      obtain rfl : b = x.blockno := by rw [same.2]; exact hj.2.symm
      omega
    · next h =>
      have hb : b ≠ x.blockno := by
        rintro rfl
        exact h (inv.uniq j i _ hj hcached)
      rw [pinsOthers b hb, hold]
      have ho := hcount j h
      omega
  · intro j hj
    rw [hdev] at hj
    have hji : j ≠ i := by
      rintro rfl
      exact absurd (hj.symm.trans used) (by decide)
    have hs := users_update use p u j
    have ho := hcount j hji
    have h0 := inv.unused j hj
    rw [Bcache.setBuf_buf, if_neg hji]
    exact ⟨h0.1, by omega⟩
  · intro j q
    rw [Bcache.setBuf_buf]
    split
    · next h => subst h; exact lock q
    · next h =>
      rw [inv.lock j q, Function.update_apply]
      split
      · next hq => subst hq; exact (hlocks j h).symm
      · rfl
  · intro q
    rw [Function.update_apply]
    split
    · rw [List.nodup_iff_count_le_one]
      intro j
      by_cases hj : j = i
      · subst hj; exact once
      · rw [held j hj]
        exact List.nodup_iff_count_le_one.mp (inv.nodup p) j
    · exact inv.nodup q
  · intro q j b hj
    rw [Function.update_apply] at hj ⊢
    split at hj
    · have hji : j = i := by
        by_contra hne
        exact (call j hne).2 (by rw [hj]; rfl)
      subst hji
      rw [if_pos (by assumption)]
      exact apart b hj
    · next hq =>
      rw [if_neg hq]
      exact inv.apart q j b hj
  · intro q j hj
    rw [Bcache.setBuf_buf]
    rw [Function.update_apply] at hj
    split
    · next h =>
      subst h
      split at hj
      · exact valid (Or.inl hj)
      · exact valid (Or.inr (Or.inl (inv.valid q j hj)))
    · next h =>
      split at hj
      · exact inv.valid p j ((hheld j h).mp hj)
      · exact inv.valid q j hj
  · intro q j b hj
    have hold : (c.buf j).blockno = b := by
      rw [Function.update_apply] at hj
      split at hj
      · have hji : j = i := by
          by_contra hne
          apply (call j hne).2
          rcases hj with hj | hj <;> rw [hj] <;> rfl
        subst hji
        exact wants b hj
      · exact inv.wants q j b hj
    rw [Bcache.setBuf_buf]
    split
    · next h => subst h; rw [same.2]; exact hold
    · exact hold
  · intro b hb
    by_cases hx : b = x.blockno
    · subst hx
      refine ⟨i, (hcaches i _).mpr hcached, ?_⟩
      rw [Bcache.setBuf_self]
      exact valid (Or.inr (Or.inr hb))
    · have hmem : b ∈ pins := by
        rw [← List.count_pos_iff, ← pinsOthers b hx, List.count_pos_iff]
        exact hb
      obtain ⟨j, hj, hv⟩ := inv.pinned b hmem
      refine ⟨j, (hcaches j b).mpr hj, ?_⟩
      rw [Bcache.setBuf_buf]
      split
      · next h => subst h; exact valid (Or.inr (Or.inl hv))
      · exact hv

theorem valid_of_pinned {i : Fin NBUF} {b : UInt32} (h : Caches c i b) (hb : b ∈ pins) :
    (c.buf i).valid = true := by
  obtain ⟨j, hj, hv⟩ := inv.pinned b hb
  rw [inv.uniq i j b h hj]
  exact hv

/-- Only the holder of the lock of a buffer in its hands appears in the lock. -/
theorem locks_only {p : Fin n} {i : Fin NBUF} (h : (use p).locks i) {q : Fin n}
    (hq : (use q).locks i) : q = p := by
  have hp := (inv.lock i p).mpr h
  rw [(inv.lock i q).mpr hq] at hp
  exact Option.some.inj hp

section sections
variable {p : Fin n} {i : Fin NBUF} {b : UInt32}

/-- Work on a held buffer that keeps what it caches and who has it locked. -/
theorem update_held (x : Buf n) (pins' : List UInt32) (hp : (use p).call = .idle)
    (hi : i ∈ (use p).held)
    (same : x.dev = (c.buf i).dev ∧ x.blockno = (c.buf i).blockno ∧ x.lock = (c.buf i).lock ∧
      x.valid = (c.buf i).valid)
    (counted : x.refcnt + pins.count x.blockno = (c.buf i).refcnt + pins'.count x.blockno)
    (pinsOthers : ∀ b, b ≠ x.blockno → pins'.count b = pins.count b) :
    CacheInv (c.setBuf i x) use pins' := by
  rw [← Function.update_eq_self p use]
  apply inv.touch p i _ _ pins' (inv.caches_of_held hi).1
  · exact ⟨same.1, same.2.1⟩
  · intro j _
    rfl
  · intro j _
    simp [hp, Call.buffer]
  · omega
  · exact pinsOthers
  · intro q
    rw [same.2.2.1, Function.update_eq_self]
    exact inv.lock i q
  · exact List.nodup_iff_count_le_one.mp (inv.nodup p) i
  · intro b h
    exact inv.apart p i b h
  · intro _
    rw [same.2.2.2]
    exact inv.valid p i hi
  · intro b h
    exact inv.wants p i b h

/-- Overwriting the contents of a held buffer. -/
theorem setData (hp : (use p).call = .idle) (hi : i ∈ (use p).held) (d : Block) :
    CacheInv (c.setBuf i { c.buf i with data := d }) use pins := by
  apply inv.update_held _ pins hp hi
  · exact ⟨rfl, rfl, rfl, rfl⟩
  · rfl
  · intro _ _
    rfl

theorem bpin (hp : (use p).call = .idle) (hi : i ∈ (use p).held) :
    CacheInv (c.bpin i) use (pins ++ [(c.buf i).blockno]) := by
  apply inv.update_held _ _ hp hi
  · exact ⟨rfl, rfl, rfl, rfl⟩
  · simp
    omega
  · intro b hb
    have hne : (c.buf i).blockno ≠ b := fun h => hb h.symm
    simp [hne]

theorem bunpin (hp : (use p).call = .idle) (hi : i ∈ (use p).held)
    (hb : (c.buf i).blockno ∈ pins) :
    CacheInv (c.bunpin i) use (pins.erase (c.buf i).blockno) := by
  have hpos := List.count_pos_iff.mpr hb
  have hcounted := inv.counted i _ (inv.caches_of_held hi)
  apply inv.update_held _ _ hp hi
  · exact ⟨rfl, rfl, rfl, rfl⟩
  · simp only [List.count_erase_self]
    omega
  · intro b hb
    exact List.count_erase_of_ne hb

/-- `bget` finds the block. -/
theorem bget_hit (hp : (use p).call = .idle) (hi : Caches c i b) :
    CacheInv (c.setBuf i { c.buf i with refcnt := (c.buf i).refcnt + 1 })
      (Function.update use p ⟨(use p).held, .getting i b⟩) pins := by
  apply inv.touch p i _ _ pins hi.1
  · exact ⟨rfl, rfl⟩
  · intro j _
    rfl
  · intro j hj
    simp [hp, Call.buffer, hj.symm]
  · simp [Use.count, hp, Call.buffer]
    omega
  · intro _ _
    rfl
  · intro q
    rw [inv.lock i q, Function.update_apply]
    split
    · next h => subst h; simp [Use.locks, hp]
    · rfl
  · exact List.nodup_iff_count_le_one.mp (inv.nodup p) i
  · intro b h
    simp at h
  · rintro (h | h | h)
    · exact inv.valid p i h
    · exact h
    · exact inv.valid_of_pinned ⟨hi.1, rfl⟩ h
  · rintro b' (h | h)
    · cases h
      exact hi.2
    · cases h

/-- `bget` recycles a free buffer for a block that is not cached. -/
theorem bget_miss (hp : (use p).call = .idle) (hfree : (c.buf i).refcnt = 0)
    (habsent : ∀ j, ¬ Caches c j b) :
    CacheInv (c.setBuf i { c.buf i with
        dev := ROOTDEV, blockno := b, valid := false, refcnt := 1 })
      (Function.update use p ⟨(use p).held, .getting i b⟩) pins := by
  obtain ⟨hnone, hunpinned⟩ := inv.free hfree
  have hzero : ∀ q, (use q).count i = 0 := by
    intro q
    have hle := count_le_users use q i
    omega
  have hheld : ∀ q, i ∉ (use q).held := by
    intro q hq
    have hpos := List.count_pos_iff.mpr hq
    have h0 := hzero q
    unfold Use.count at h0
    omega
  have hcall : ∀ q, (use q).call.buffer ≠ some i := by
    intro q hq
    have h0 := hzero q
    simp [Use.count, hq] at h0
  have hcaches : ∀ j b', Caches (c.setBuf i { c.buf i with
      dev := ROOTDEV, blockno := b, valid := false, refcnt := 1 }) j b' ↔
      if j = i then b' = b else Caches c j b' := by
    intro j b'
    unfold Caches
    rw [Bcache.setBuf_buf]
    split
    · simp [eq_comm]
    · rfl
  have hpin : b ∉ pins := by
    intro hb
    obtain ⟨j, hj, _⟩ := inv.pinned b hb
    exact habsent j hj
  have husers : ∀ j, users (Function.update use p ⟨(use p).held, .getting i b⟩) j =
      users use j + if j = i then 1 else 0 := by
    intro j
    have hs := users_update use p ⟨(use p).held, .getting i b⟩ j
    simp only [Use.count, hp, Call.buffer, Option.some.injEq, reduceCtorEq, if_false,
      eq_comm (a := i)] at hs
    omega
  constructor
  · exact inv.ring
  · intro j
    rw [Bcache.setBuf_buf]
    split
    · exact Or.inr rfl
    · exact inv.dev j
  · intro j k b' hj hk
    rw [hcaches] at hj hk
    split at hj <;> split at hk
    · next h h' => rw [h, h']
    · subst hj
      exact absurd hk (habsent k)
    · subst hk
      exact absurd hj (habsent j)
    · exact inv.uniq j k b' hj hk
  · intro j b' hj
    rw [hcaches] at hj
    rw [Bcache.setBuf_buf, husers]
    split
    · next h =>
      subst h
      rw [if_pos rfl] at hj
      subst hj
      simp only [List.count_eq_zero.mpr hpin, hnone]
    · next h =>
      rw [if_neg h] at hj
      exact inv.counted j b' hj
  · intro j hj
    rw [Bcache.setBuf_buf] at hj ⊢
    split at hj
    · have hdev : ROOTDEV = 0 := hj
      exact absurd hdev (by decide)
    · next h =>
      rw [if_neg h, husers, if_neg h]
      exact inv.unused j hj
  · intro j q
    have hold := inv.lock j q
    have hlock : ((c.setBuf i { c.buf i with
        dev := ROOTDEV, blockno := b, valid := false, refcnt := 1 }).buf j).lock =
        (c.buf j).lock := by
      rw [Bcache.setBuf_buf]
      split
      · next h => rw [h]
      · rfl
    rw [hlock, hold, Function.update_apply]
    split
    · next h => subst h; simp [Use.locks, hp]
    · rfl
  · intro q
    rw [Function.update_apply]
    split
    · exact inv.nodup p
    · exact inv.nodup q
  · intro q j b' hj
    rw [Function.update_apply] at hj ⊢
    split at hj
    · cases hj
    · next h =>
      rw [if_neg h]
      exact inv.apart q j b' hj
  · intro q j hj
    have hj' : j ∈ (use q).held := by
      rw [Function.update_apply] at hj
      split at hj
      · next h => subst h; exact hj
      · exact hj
    have hji : j ≠ i := by
      rintro rfl
      exact hheld q hj'
    rw [Bcache.setBuf_buf, if_neg hji]
    exact inv.valid q j hj'
  · intro q j b' hj
    rw [Function.update_apply] at hj
    split at hj
    · rcases hj with hj | hj
      · cases hj
        simp
      · cases hj
    · have hji : j ≠ i := by
        rintro rfl
        apply hcall q
        rcases hj with hj | hj <;> rw [hj] <;> rfl
      rw [Bcache.setBuf_buf, if_neg hji]
      exact inv.wants q j b' hj
  · intro b' hb'
    obtain ⟨j, hj, hv⟩ := inv.pinned b' hb'
    have hji : j ≠ i := by
      rintro rfl
      exact hunpinned b' hj hb'
    refine ⟨j, ?_, ?_⟩
    · rw [hcaches, if_neg hji]
      exact hj
    · rw [Bcache.setBuf_buf, if_neg hji]
      exact hv

/-- `acquiresleep` takes a free lock. -/
theorem acquiresleep (hp : (use p).call = .getting i b) (free : (c.buf i).lock = none) :
    CacheInv (c.setBuf i { c.buf i with lock := some p })
      (Function.update use p ⟨(use p).held, .locked i b⟩) pins := by
  have hcaches := inv.caches_of_call (p := p) (i := i) (by rw [hp]; rfl)
  have hnone : ∀ q, ¬ (use q).locks i := by
    intro q hq
    rw [← inv.lock i q, free] at hq
    cases hq
  have hnot : i ∉ (use p).held := fun h => hnone p (Or.inl h)
  apply inv.touch p i _ _ pins hcaches.1
  · exact ⟨rfl, rfl⟩
  · intro j _
    rfl
  · intro j hj
    simp [hp, Call.buffer, hj.symm]
  · simp [Use.count, hp, Call.buffer]
  · intro _ _
    rfl
  · intro q
    rw [Function.update_apply]
    split
    · next h => subst h; simp [Use.locks]
    · next h =>
      constructor
      · intro e
        exact absurd (Option.some.inj e).symm h
      · intro e
        exact absurd e (hnone q)
  · exact List.nodup_iff_count_le_one.mp (inv.nodup p) i
  · intro _ _
    exact hnot
  · rintro (h | h | h)
    · exact absurd h hnot
    · exact h
    · exact inv.valid_of_pinned hcaches h
  · rintro b' (h | h)
    · cases h
    · cases h
      exact inv.wants p i b (Or.inl hp)

/-- `bread` returns the locked buffer. -/
theorem fill (hp : (use p).call = .locked i b) (d : Block) :
    CacheInv (c.setBuf i { c.buf i with valid := true, data := d })
      (Function.update use p { held := i :: (use p).held, call := .idle }) pins := by
  have hcaches := inv.caches_of_call (p := p) (i := i) (by rw [hp]; rfl)
  have hnot := inv.apart p i b hp
  apply inv.touch p i _ _ pins hcaches.1
  · exact ⟨rfl, rfl⟩
  · intro j hj
    simp [hj.symm]
  · intro j hj
    simp [hp, Call.buffer, hj.symm]
  · simp [Use.count, hp, Call.buffer]
  · intro _ _
    rfl
  · intro q
    rw [inv.lock i q, Function.update_apply]
    split
    · next h => subst h; simp [Use.locks, hp]
    · rfl
  · simp [List.count_eq_zero.mpr hnot]
  · intro b h
    cases h
  · intro _
    rfl
  · rintro b' (h | h) <;> cases h

/-- `releasesleep` in `brelse`. -/
theorem releasesleep {k : Nat} (hp : (use p).call = .idle) (hk : (use p).held[k]? = some i) :
    CacheInv (c.setBuf i { c.buf i with lock := none })
      (Function.update use p { held := (use p).held.eraseIdx k, call := .releasing i }) pins := by
  have hmem : i ∈ (use p).held := List.mem_of_getElem? hk
  have hcaches := inv.caches_of_held hmem
  have hperm := List.getElem_cons_eraseIdx_perm (List.getElem?_eq_some_iff.mp hk).1
  rw [(List.getElem?_eq_some_iff.mp hk).2] at hperm
  have hcount : ∀ j, (i :: (use p).held.eraseIdx k).count j = (use p).held.count j :=
    fun j => hperm.count_eq j
  have hle := List.nodup_iff_count_le_one.mp (inv.nodup p) i
  have hzero : ((use p).held.eraseIdx k).count i = 0 := by
    have h := hcount i
    rw [List.count_cons_self] at h
    omega
  apply inv.touch p i _ _ pins hcaches.1
  · exact ⟨rfl, rfl⟩
  · intro j hj
    rw [← hcount j, List.count_cons_of_ne hj.symm]
  · intro j hj
    simp [hp, Call.buffer, hj.symm]
  · have h := hcount i
    rw [List.count_cons_self] at h
    simp [Use.count, hp, Call.buffer]
    omega
  · intro _ _
    rfl
  · intro q
    rw [Function.update_apply]
    simp only [reduceCtorEq, false_iff]
    split
    · simp [Use.locks, List.count_eq_zero.mp hzero]
    · next h =>
      intro hq
      exact h (inv.locks_only (Or.inl hmem) hq)
  · simp [hzero]
  · intro b h
    cases h
  · intro _
    exact inv.valid p i hmem
  · rintro b' (h | h) <;> cases h

/-- The section of `brelse` under `bcache.lock`. -/
theorem brelse (hp : (use p).call = .releasing i) :
    CacheInv (c.brelse i) (Function.update use p ⟨(use p).held, .idle⟩) pins := by
  have hcaches := inv.caches_of_call (p := p) (i := i) (by rw [hp]; rfl)
  have hone : 1 ≤ (use p).count i := by simp [Use.count, hp, Call.buffer]
  have hle := count_le_users use p i
  have hcounted := inv.counted i _ hcaches
  have htouch : CacheInv (c.setBuf i { c.buf i with refcnt := (c.buf i).refcnt - 1 })
      (Function.update use p ⟨(use p).held, .idle⟩) pins := by
    apply inv.touch p i _ _ pins hcaches.1
    · exact ⟨rfl, rfl⟩
    · intro j _
      rfl
    · intro j hj
      simp [hp, Call.buffer, hj.symm]
    · simp [Use.count, hp, Call.buffer] at hone hle ⊢
      omega
    · intro _ _
      rfl
    · intro q
      rw [inv.lock i q, Function.update_apply]
      split
      · next h => subst h; simp [Use.locks, hp]
      · rfl
    · exact List.nodup_iff_count_le_one.mp (inv.nodup p) i
    · intro b h
      cases h
    · rintro (h | h | h)
      · exact inv.valid p i h
      · exact h
      · exact inv.valid_of_pinned hcaches h
    · rintro b' (h | h) <;> cases h
  refine htouch.relink (Bcache.brelse_onRing inv.ring i) ?_
  funext j
  rw [Bcache.brelse_buf, Bcache.setBuf_buf]

end sections
end CacheInv

theorem binit_cacheInv : CacheInv (Bcache.binit : Bcache n) (fun _ => ⟨[], .idle⟩) [] := by
  have hnone : ∀ i b, ¬ Caches (Bcache.binit : Bcache n) i b := by
    intro i b h
    have h0 : (0 : UInt32) = ROOTDEV := h.1
    exact absurd h0 (by decide)
  constructor
  · exact Bcache.binit_onRing
  · exact fun _ => Or.inl rfl
  · exact fun i _ b h => absurd h (hnone i b)
  · exact fun i b h => absurd h (hnone i b)
  · intro i _
    exact ⟨rfl, by simp [users, Use.count, Call.buffer]⟩
  · intro i p
    simp [Bcache.binit, Use.locks]
  · simp
  · simp
  · simp
  · simp
  · simp

end Xv6.Kernel.BlockLayer
