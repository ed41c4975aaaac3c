import Mathlib.Data.Fintype.Card
import Mathlib.Data.List.FinRange
import Xv6.Library.Ring
import Xv6.Source.Block

/-!
# kernel/bio.c

The buffer cache: NBUF buffers on a ring of `prev` and `next` pointers through
`bcache.head`. `bget` is the section under `bcache.lock`; the sleep lock it takes
afterwards and the disk read of `bread` are steps of their own, because other
processes run between them. The sleep lock is the process that holds it.
-/
namespace Xv6.Source
open Xv6.Library.Ring

variable {n : Nat}

structure Buf (n : Nat) where
  valid : Bool
  dev : UInt32
  blockno : UInt32
  lock : Option (Fin n)
  refcnt : Nat
  data : Block

structure Bcache (n : Nat) where
  buf : Fin NBUF → Buf n
  links : Links (Fin NBUF)

namespace Bcache

/-- Static storage is zero; the loop of `binit` puts each buffer behind the head. -/
def binit : Bcache n where
  buf := fun _ => ⟨false, 0, 0, none, 0, fun _ => 0⟩
  links := (List.finRange NBUF).foldl insertFront empty

def setBuf (c : Bcache n) (i : Fin NBUF) (b : Buf n) : Bcache n :=
  { c with buf := Function.update c.buf i b }

/-- The section of `bget` under `bcache.lock`: the buffer it will lock and the new
cache. The inner `none` is `panic("bget: no buffers")`, the outer one a search that
has not come back to the head after NBUF buffers. -/
def bget (c : Bcache n) (dev blockno : UInt32) : Option (Option (Fin NBUF × Bcache n)) :=
  match search c.links.next (fun i => (c.buf i).dev == dev && (c.buf i).blockno == blockno)
      (NBUF + 1) (c.links.next none) with
  | none => none
  | some (some i) =>
    some (some (i, c.setBuf i { c.buf i with refcnt := (c.buf i).refcnt + 1 }))
  | some none =>
    match search c.links.prev (fun i => (c.buf i).refcnt == 0) (NBUF + 1) (c.links.prev none) with
    | none => none
    | some (some i) => some (some (i, c.setBuf i { c.buf i with
        dev := dev, blockno := blockno, valid := false, refcnt := 1 }))
    | some none => some none

/-- The section of `brelse` under `bcache.lock`. -/
def brelse (c : Bcache n) (i : Fin NBUF) : Bcache n :=
  let c := c.setBuf i { c.buf i with refcnt := (c.buf i).refcnt - 1 }
  if (c.buf i).refcnt = 0 then { c with links := insertFront (unlink c.links i) i } else c

def bpin (c : Bcache n) (i : Fin NBUF) : Bcache n :=
  c.setBuf i { c.buf i with refcnt := (c.buf i).refcnt + 1 }

def bunpin (c : Bcache n) (i : Fin NBUF) : Bcache n :=
  c.setBuf i { c.buf i with refcnt := (c.buf i).refcnt - 1 }

@[simp] theorem setBuf_self (c : Bcache n) (i : Fin NBUF) (b : Buf n) :
    (c.setBuf i b).buf i = b := Function.update_self ..

theorem setBuf_buf (c : Bcache n) (i j : Fin NBUF) (b : Buf n) :
    (c.setBuf i b).buf j = if j = i then b else c.buf j := by
  simp [setBuf, Function.update_apply]

/-- The ring holds every buffer exactly once, in both directions. -/
def OnRing (c : Bcache n) : Prop := ∃ order, IsRing c.links order ∧ ∀ i, i ∈ order

theorem OnRing.length {links : Links (Fin NBUF)} {order : List (Fin NBUF)}
    (h : IsRing links order) : order.length ≤ NBUF := by
  have hle := h.nodup.length_le_card
  simpa using hle

private theorem insertAll_ring (l order : List (Fin NBUF)) (k : Links (Fin NBUF))
    (h : IsRing k order) (hnd : l.Nodup) (hdis : ∀ i ∈ l, i ∉ order) :
    IsRing (l.foldl insertFront k) (l.reverse ++ order) := by
  induction l generalizing order k with
  | nil => simpa using h
  | cons i l ih =>
    obtain ⟨hi, hl⟩ := List.nodup_cons.mp hnd
    have hring := h.insertFront (hdis i (by simp))
    have hstep := ih (i :: order) (insertFront k i) hring hl (by
      intro j hj
      simp only [List.mem_cons, not_or]
      exact ⟨by rintro rfl; exact hi hj, hdis j (by simp [hj])⟩)
    simpa using hstep

theorem binit_onRing : (binit : Bcache n).OnRing := by
  refine ⟨(List.finRange NBUF).reverse ++ [], ?_, by simp⟩
  exact insertAll_ring _ [] empty isRing_empty (List.nodup_finRange _) (by simp)

/-- Both searches of `bget` come back: the block is found, or the least recently
used free buffer is taken, or there is none. -/
theorem bget_spec {c : Bcache n} (h : c.OnRing) (dev blockno : UInt32) :
    (∃ i, (c.buf i).dev = dev ∧ (c.buf i).blockno = blockno ∧
      c.bget dev blockno = some (some (i, c.setBuf i { c.buf i with
        refcnt := (c.buf i).refcnt + 1 }))) ∨
    (∀ i, ¬ ((c.buf i).dev = dev ∧ (c.buf i).blockno = blockno)) ∧
      ((∃ i, (c.buf i).refcnt = 0 ∧ c.bget dev blockno = some (some (i, c.setBuf i { c.buf i with
        dev := dev, blockno := blockno, valid := false, refcnt := 1 }))) ∨
      (∀ i, (c.buf i).refcnt ≠ 0) ∧ c.bget dev blockno = some none) := by
  obtain ⟨order, hring, hall⟩ := h
  have hlen : order.length < NBUF + 1 := Nat.lt_succ_of_le (OnRing.length hring)
  unfold bget
  rw [hring.search_next _ _ hlen, hring.search_prev _ _ hlen]
  cases hfind : order.find? (fun i => (c.buf i).dev == dev && (c.buf i).blockno == blockno) with
  | some i =>
    left
    have hp := List.find?_some hfind
    simp only [Bool.and_eq_true, beq_iff_eq] at hp
    exact ⟨i, hp.1, hp.2, rfl⟩
  | none =>
    right
    constructor
    · intro i hi
      have hno := List.find?_eq_none.mp hfind i (hall i)
      simp [hi.1, hi.2] at hno
    · cases hfree : order.reverse.find? (fun i => (c.buf i).refcnt == 0) with
      | some i =>
        left
        have hp := List.find?_some hfree
        exact ⟨i, by simpa using hp, rfl⟩
      | none =>
        right
        refine ⟨?_, rfl⟩
        intro i hi
        have hno := List.find?_eq_none.mp hfree i (by simpa using hall i)
        simp [hi] at hno

theorem brelse_onRing {c : Bcache n} (h : c.OnRing) (i : Fin NBUF) : (c.brelse i).OnRing := by
  unfold brelse
  dsimp only
  split
  · obtain ⟨order, hring, hall⟩ := h
    obtain ⟨l₁, l₂, rfl⟩ := List.append_of_mem (hall i)
    have hnot : i ∉ l₁ ++ l₂ := by
      have hnd := hring.nodup
      simp only [List.nodup_append, List.nodup_cons, List.mem_cons] at hnd
      simp only [List.mem_append, not_or]
      exact ⟨fun hi => hnd.2.2 i hi i (Or.inl rfl) rfl, hnd.2.1.1⟩
    refine ⟨i :: (l₁ ++ l₂), hring.unlink.insertFront hnot, ?_⟩
    intro j
    have hj := hall j
    simp only [List.mem_append, List.mem_cons] at hj ⊢
    tauto
  · exact h

/-- Releasing moves the buffer on the ring and lowers its count. -/
theorem brelse_buf (c : Bcache n) (i j : Fin NBUF) : (c.brelse i).buf j =
    if j = i then { c.buf i with refcnt := (c.buf i).refcnt - 1 } else c.buf j := by
  unfold brelse
  dsimp only
  split <;> exact setBuf_buf ..

end Bcache
end Xv6.Source
