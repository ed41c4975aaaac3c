import Mathlib.Data.Set.Insert
import Xv6.Source.Fs

/-!
# Who owns a block

An allocated inode names blocks in its slots: the direct addresses, the indirect address
and the entries of the indirect block. The bitmap marks the blocks that are named, once
each, and those that are taken and not yet attached to an inode, or detached and not yet
freed.
-/
namespace Xv6.Inode

open Xv6.Source

/-- The first block behind the bitmap. -/
def datastart (sb : Superblock) : Nat := sb.bmapstart + (sb.size / BPB + 1)

/-- The areas of the disk follow each other. -/
structure Geometry (sb : Superblock) : Prop where
  inodes : sb.inodestart + (sb.ninodes / IPB + 1) ≤ sb.bmapstart
  size_lt : sb.size < 2 ^ 32

def IsData (sb : Superblock) (b : Nat) : Prop := datastart sb ≤ b ∧ b < sb.size

/-- The bit of a block in the bitmap. -/
def marked (sb : Superblock) (blk : Nat → Block) (b : Nat) : Bool :=
  (blk (BBLOCK b sb)).bit (b % BPB)

/-- A place of an inode that can name a block. -/
inductive Slot where
  | direct (k : Fin NDIRECT)
  | indirect
  | entry (j : Fin NINDIRECT)
  deriving DecidableEq

/-- The block that a slot names, or 0. -/
def slotAddr (blk : Nat → Block) (din : Dinode) : Slot → Nat
  | .direct k => din.addr k
  | .indirect => din.addr NDIRECT
  | .entry j => if din.addr NDIRECT = 0 then 0 else ((blk (din.addr NDIRECT)).getInt j).toNat

/-- The slot for block `bn` of a file, where `bn < MAXFILE`. -/
def fileSlot (bn : Nat) : Slot :=
  if h : bn < NDIRECT then .direct ⟨bn, h⟩
  else .entry ⟨(bn - NDIRECT) % NINDIRECT, Nat.mod_lt _ (by decide)⟩

/-- The block that holds block `bn` of a file, or 0. -/
def blockOf (blk : Nat → Block) (din : Dinode) (bn : Nat) : Nat := slotAddr blk din (fileSlot bn)

/-- An allocated inode. -/
def Live (sb : Superblock) (ino : Nat → Dinode) (i : Nat) : Prop :=
  i < sb.ninodes ∧ (ino i).type ≠ 0

/-- Some allocated inode names the block. -/
def Named (sb : Superblock) (blk : Nat → Block) (ino : Nat → Dinode) (b : Nat) : Prop :=
  ∃ i s, Live sb ino i ∧ slotAddr blk (ino i) s = b

/-- The bitmap and the inodes agree, but for the blocks in `x`, which are marked and not
named. -/
structure Owns (sb : Superblock) (blk : Nat → Block) (ino : Nat → Dinode) (x : Set Nat) : Prop where
  inData : ∀ i s, Live sb ino i → slotAddr blk (ino i) s ≠ 0 → IsData sb (slotAddr blk (ino i) s)
  once : ∀ i j s t, Live sb ino i → Live sb ino j → slotAddr blk (ino i) s ≠ 0 →
    slotAddr blk (ino i) s = slotAddr blk (ino j) t → i = j ∧ s = t
  marks : ∀ b, IsData sb b → (marked sb blk b = true ↔ Named sb blk ino b ∨ b ∈ x)
  apart : ∀ b ∈ x, IsData sb b ∧ ¬ Named sb blk ino b
  reserved : ∀ b < datastart sb, marked sb blk b = true

section geometry
variable {sb : Superblock} {b : Nat}

theorem BBLOCK_lt (hb : b < sb.size) : BBLOCK b sb < datastart sb := by
  have : b / BPB ≤ sb.size / BPB := Nat.div_le_div_right (Nat.le_of_lt hb)
  unfold BBLOCK datastart
  omega

theorem BBLOCK_ge (sb : Superblock) (b : Nat) : sb.bmapstart ≤ BBLOCK b sb := Nat.le_add_left _ _

theorem IBLOCK_lt (hg : Geometry sb) {i : Nat} (hi : i < sb.ninodes) :
    IBLOCK i sb < sb.bmapstart := by
  have := hg.inodes
  have : i / IPB ≤ sb.ninodes / IPB := Nat.div_le_div_right (Nat.le_of_lt hi)
  unfold IBLOCK
  omega

theorem IsData.bmapstart_lt (h : IsData sb b) : sb.bmapstart < b :=
  Nat.lt_of_lt_of_le (Nat.lt_add_of_pos_right (Nat.succ_pos _)) h.1

theorem IsData.ne_zero (h : IsData sb b) : b ≠ 0 := Nat.ne_zero_of_lt h.bmapstart_lt

/-- Bitmap blocks hold no data. -/
theorem IsData.ne_BBLOCK (h : IsData sb b) {c : Nat} (hc : c < sb.size) : b ≠ BBLOCK c sb := by
  have := BBLOCK_lt hc
  have := h.1
  omega

end geometry

section slots
variable {blk blk' : Nat → Block} {din : Dinode}

/-- What an inode names depends on its indirect block and on no other. -/
theorem slotAddr_congr (h : din.addr NDIRECT ≠ 0 → blk' (din.addr NDIRECT) = blk (din.addr NDIRECT))
    (s : Slot) : slotAddr blk' din s = slotAddr blk din s := by
  cases s with
  | direct k => rfl
  | indirect => rfl
  | entry j =>
    simp only [slotAddr]
    split
    · rfl
    · next h0 => rw [h h0]

theorem fileSlot_ne_indirect (bn : Nat) : fileSlot bn ≠ .indirect := by
  unfold fileSlot
  split <;> simp

theorem fileSlot_direct {bn : Nat} (h : bn < NDIRECT) : fileSlot bn = .direct ⟨bn, h⟩ := dif_pos h

theorem fileSlot_entry {bn : Nat} (h : ¬ bn < NDIRECT) (hlt : bn - NDIRECT < NINDIRECT) :
    fileSlot bn = .entry ⟨bn - NDIRECT, hlt⟩ := by
  rw [fileSlot, dif_neg h]
  congr 1
  exact Fin.ext (Nat.mod_eq_of_lt hlt)

theorem fileSlot_inj {m n : Nat} (hm : m < MAXFILE) (hn : n < MAXFILE)
    (h : fileSlot m = fileSlot n) : m = n := by
  have hM : MAXFILE = NDIRECT + NINDIRECT := rfl
  by_cases h1 : m < NDIRECT
  · by_cases h2 : n < NDIRECT
    · rw [fileSlot_direct h1, fileSlot_direct h2] at h
      simpa using h
    · rw [fileSlot_direct h1, fileSlot_entry h2 (by omega)] at h
      cases h
  · by_cases h2 : n < NDIRECT
    · rw [fileSlot_entry h1 (by omega), fileSlot_direct h2] at h
      cases h
    · rw [fileSlot_entry h1 (by omega), fileSlot_entry h2 (by omega)] at h
      simp only [Slot.entry.injEq, Fin.mk.injEq] at h
      omega

end slots

/-- The bit of block `c`, which is in block `x`, after the bit of `b` has been changed in block `y`. -/
theorem bit_update {blk : Nat → Block} {x y b c : Nat} {data : Block} {v : Bool} (hxy : x = y ↔ c / BPB = b / BPB)
    (hbit : ∀ j < BPB, data.bit j = if j = b % BPB then v else (blk y).bit j) :
    (Function.update blk y data x).bit (c % BPB) = if c = b then v else (blk x).bit (c % BPB) := by
  by_cases h : c / BPB = b / BPB
  · have heq : c % BPB = b % BPB ↔ c = b := by
      constructor
      · intro hm
        rw [← Nat.div_add_mod c BPB, h, hm, Nat.div_add_mod]
      · intro e
        rw [e]
    rw [hxy.2 h, Function.update_self, hbit _ (Nat.mod_lt _ (by decide))]
    exact if_congr heq rfl rfl
  · rw [Function.update_of_ne (mt hxy.1 h), if_neg fun e => h (by rw [e])]

/-- `marked` after the bit of one block has been changed. -/
theorem marked_update {sb : Superblock} {blk : Nat → Block} {b : Nat} {data : Block} {v : Bool}
    (hbit : ∀ j < BPB, data.bit j = if j = b % BPB then v else (blk (BBLOCK b sb)).bit j) (c : Nat) :
    marked sb (Function.update blk (BBLOCK b sb) data) c = if c = b then v else marked sb blk c :=
  bit_update Nat.add_right_cancel_iff hbit

/-- Storing into a data block leaves the bitmap alone. -/
theorem marked_store {sb : Superblock} {blk : Nat → Block} {b c : Nat} {data : Block}
    (hb : IsData sb b) (hc : c < sb.size) :
    marked sb (Function.update blk b data) c = marked sb blk c := by
  rw [marked, Function.update_of_ne (hb.ne_BBLOCK hc).symm, marked]

namespace Owns

variable {sb : Superblock} {blk blk' : Nat → Block} {ino ino' : Nat → Dinode} {x : Set Nat}
  {i a b : Nat}

/-- Where the indirect blocks stay as they are, inodes name what they named. -/
theorem slots_of_indirect (ind : ∀ j, Live sb ino j → (ino j).addr NDIRECT ≠ 0 →
      blk' ((ino j).addr NDIRECT) = blk ((ino j).addr NDIRECT)) {j : Nat} (hj : Live sb ino j)
    (s : Slot) : slotAddr blk' (ino j) s = slotAddr blk (ino j) s :=
  slotAddr_congr (ind j hj) s

theorem named_of_indirect (ind : ∀ j, Live sb ino j → (ino j).addr NDIRECT ≠ 0 →
      blk' ((ino j).addr NDIRECT) = blk ((ino j).addr NDIRECT)) :
    Named sb blk' ino b ↔ Named sb blk ino b := by
  constructor
  · rintro ⟨j, s, hj, hs⟩
    exact ⟨j, s, hj, by rw [← hs, slots_of_indirect ind hj]⟩
  · rintro ⟨j, s, hj, hs⟩
    exact ⟨j, s, hj, by rw [← hs, slots_of_indirect ind hj]⟩

/-- A change of blocks that leaves the indirect blocks alone, with the marks that it needs. -/
theorem remark {y : Set Nat} (h : Owns sb blk ino x) (ind : ∀ j, Live sb ino j →
      (ino j).addr NDIRECT ≠ 0 → blk' ((ino j).addr NDIRECT) = blk ((ino j).addr NDIRECT))
    (marks : ∀ b, IsData sb b → (marked sb blk' b = true ↔ Named sb blk ino b ∨ b ∈ y))
    (apart : ∀ b ∈ y, IsData sb b ∧ ¬ Named sb blk ino b)
    (reserved : ∀ b < datastart sb, marked sb blk' b = true) : Owns sb blk' ino y where
  inData j s hj hs := by
    rw [slots_of_indirect ind hj] at hs ⊢
    exact h.inData j s hj hs
  once j k s t hj hk hs hst := by
    rw [slots_of_indirect ind hj] at hs hst
    rw [slots_of_indirect ind hk] at hst
    exact h.once j k s t hj hk hs hst
  marks b hb := by rw [marks b hb, named_of_indirect ind]
  apart b hb := by rw [named_of_indirect ind]; exact apart b hb
  reserved := reserved

/-- The indirect block of an inode is not the block of a file. -/
theorem indirect_ne (h : Owns sb blk ino x) (hi : Live sb ino i) {s : Slot} (hs : s ≠ .indirect)
    (hne : slotAddr blk (ino i) s ≠ 0) {j : Nat} (hj : Live sb ino j) :
    (ino j).addr NDIRECT ≠ slotAddr blk (ino i) s := by
  intro he
  have hind : slotAddr blk (ino i) s = slotAddr blk (ino j) .indirect := he.symm
  exact hs (h.once i j s .indirect hi hj hne hind).2

theorem lt_size (hb : IsData sb b) {c : Nat} (hc : c < datastart sb) : c < sb.size :=
  Nat.lt_trans (Nat.lt_of_lt_of_le hc hb.1) hb.2

/-- Storing into a data block that is nobody's indirect block changes no ownership. -/
theorem store (h : Owns sb blk ino x) (hb : IsData sb b)
    (hind : ∀ j, Live sb ino j → (ino j).addr NDIRECT ≠ b) (data : Block) :
    Owns sb (Function.update blk b data) ino x := by
  refine h.remark (fun j hj _ => Function.update_of_ne (hind j hj) _ _) ?_ h.apart ?_
  · intro c hc
    rw [marked_store hb hc.2]
    exact h.marks c hc
  · intro c hc
    rw [marked_store hb (lt_size hb hc)]
    exact h.reserved c hc

theorem not_named (h : Owns sb blk ino x) (hb : IsData sb b) (hfree : marked sb blk b = false) :
    ¬ Named sb blk ino b ∧ b ∉ x := by
  have hiff := h.marks b hb
  rw [hfree] at hiff
  constructor
  · intro hn
    exact Bool.false_ne_true (hiff.mpr (.inl hn))
  · intro hx
    exact Bool.false_ne_true (hiff.mpr (.inr hx))

/-- A block that no inode names is nobody's indirect block. -/
theorem ne_indirect (hb : ¬ Named sb blk ino b) {j : Nat} (hj : Live sb ino j) :
    (ino j).addr NDIRECT ≠ b := fun he => hb ⟨j, .indirect, hj, he⟩

/-- Changing the bitmap leaves the indirect blocks alone. -/
theorem bitmap_ne (h : Owns sb blk ino x) {c : Nat} (hc : c < sb.size) {j : Nat}
    (hj : Live sb ino j) (hne : (ino j).addr NDIRECT ≠ 0) : (ino j).addr NDIRECT ≠ BBLOCK c sb :=
  (h.inData j .indirect hj hne).ne_BBLOCK hc

/-- Taking a free block: it is marked and zeroed, and belongs to no inode yet. -/
theorem alloc (h : Owns sb blk ino x) (hb : IsData sb b) (hfree : marked sb blk b = false)
    {data : Block}
    (hbit : ∀ j < BPB, data.bit j = if j = b % BPB then true else (blk (BBLOCK b sb)).bit j) :
    Owns sb (Function.update (Function.update blk (BBLOCK b sb) data) b .zero) ino (insert b x) := by
  obtain ⟨hname, hx⟩ := h.not_named hb hfree
  have hmark : ∀ c < sb.size, marked sb
      (Function.update (Function.update blk (BBLOCK b sb) data) b .zero) c =
        if c = b then true else marked sb blk c := by
    intro c hc
    rw [marked_store hb hc, marked_update hbit]
  refine h.remark ?_ ?_ ?_ ?_
  · intro j hj hne
    rw [Function.update_of_ne (ne_indirect hname hj), Function.update_of_ne (h.bitmap_ne hb.2 hj hne)]
  · intro c hc
    rw [hmark c hc.2]
    by_cases hcb : c = b
    · simp [hcb]
    · rw [if_neg hcb, h.marks c hc, Set.mem_insert_iff]
      simp [hcb]
  · intro c hc
    rcases hc with rfl | hc
    · exact ⟨hb, hname⟩
    · exact h.apart c hc
  · intro c hc
    rw [hmark c (lt_size hb hc)]
    split
    · rfl
    · exact h.reserved c hc

/-- Freeing a block that no inode names. -/
theorem free (h : Owns sb blk ino x) (hb : b ∈ x) {data : Block}
    (hbit : ∀ j < BPB, data.bit j = if j = b % BPB then false else (blk (BBLOCK b sb)).bit j) :
    Owns sb (Function.update blk (BBLOCK b sb) data) ino (x \ {b}) := by
  obtain ⟨hdata, hname⟩ := h.apart b hb
  refine h.remark ?_ ?_ ?_ ?_
  · intro j hj hne
    exact Function.update_of_ne (h.bitmap_ne hdata.2 hj hne) _ _
  · intro c hc
    rw [marked_update hbit]
    by_cases hcb : c = b
    · simp [hcb, hname]
    · rw [if_neg hcb, h.marks c hc]
      simp [hcb]
  · intro c hc
    exact h.apart c hc.1
  · intro c hc
    have hne : c ≠ b := Nat.ne_of_lt (Nat.lt_of_lt_of_le hc hdata.1)
    rw [marked_update hbit, if_neg hne]
    exact h.reserved c hc

theorem live_update {din : Dinode} (ht : din.type = (ino i).type) {j : Nat} :
    Live sb (Function.update ino i din) j ↔ Live sb ino j := by
  unfold Live
  by_cases hj : j = i
  · subst hj
    rw [Function.update_self, ht]
  · rw [Function.update_of_ne hj]

/-- One slot `t` of a live inode gets a block that was taken for it. -/
theorem attach {din : Dinode} {t : Slot} (h : Owns sb blk ino (insert b x)) (hi : Live sb ino i)
    (hx : b ∉ x) (ht : din.type = (ino i).type)
    (hother : ∀ j, Live sb ino j → j ≠ i → ∀ s, slotAddr blk' (ino j) s = slotAddr blk (ino j) s)
    (hempty : slotAddr blk (ino i) t = 0)
    (hslot : ∀ s, slotAddr blk' din s = if s = t then b else slotAddr blk (ino i) s)
    (hmark : ∀ c < sb.size, marked sb blk' c = marked sb blk c) :
    Owns sb blk' (Function.update ino i din) x := by
  obtain ⟨hb, hname⟩ := h.apart b (Set.mem_insert _ _)
  -- what a slot names afterwards: the new block in slot `t` of `i`, and as before elsewhere
  have haddr : ∀ j, Live sb ino j → ∀ s, slotAddr blk' (Function.update ino i din j) s =
      if j = i ∧ s = t then b else slotAddr blk (ino j) s := by
    intro j hj s
    by_cases hji : j = i
    · subst hji
      rw [Function.update_self, hslot]
      simp
    · rw [Function.update_of_ne hji, hother j hj hji]
      simp [hji]
  have hnamed : ∀ c, c ≠ 0 → (Named sb blk' (Function.update ino i din) c ↔
      Named sb blk ino c ∨ c = b) := by
    intro c hc
    constructor
    · rintro ⟨j, s, hj, hs⟩
      rw [live_update ht] at hj
      rw [haddr j hj] at hs
      split at hs
      · exact .inr hs.symm
      · exact .inl ⟨j, s, hj, hs⟩
    · rintro (⟨j, s, hj, hs⟩ | rfl)
      · refine ⟨j, s, (live_update ht).mpr hj, ?_⟩
        rw [haddr j hj, if_neg]
        · exact hs
        · rintro ⟨rfl, rfl⟩
          exact hc (hs ▸ hempty)
      · exact ⟨i, t, (live_update ht).mpr hi, by rw [haddr i hi, if_pos ⟨rfl, rfl⟩]⟩
  refine ⟨?_, ?_, ?_, ?_, ?_⟩
  · intro j s hj hs
    rw [live_update ht] at hj
    rw [haddr j hj] at hs ⊢
    split
    · exact hb
    · next hn =>
      rw [if_neg hn] at hs
      exact h.inData j s hj hs
  · intro j k s u hj hk hs hsu
    rw [live_update ht] at hj hk
    rw [haddr j hj] at hs hsu
    rw [haddr k hk] at hsu
    by_cases h1 : j = i ∧ s = t
    · by_cases h2 : k = i ∧ u = t
      · exact ⟨h1.1.trans h2.1.symm, h1.2.trans h2.2.symm⟩
      · rw [if_pos h1, if_neg h2] at hsu
        exact absurd ⟨k, u, hk, hsu.symm⟩ hname
    · rw [if_neg h1] at hs hsu
      by_cases h2 : k = i ∧ u = t
      · rw [if_pos h2] at hsu
        exact absurd ⟨j, s, hj, hsu⟩ hname
      · rw [if_neg h2] at hsu
        exact h.once j k s u hj hk hs hsu
  · intro c hc
    rw [hmark c hc.2, h.marks c hc, hnamed c hc.ne_zero, Set.mem_insert_iff, or_assoc]
  · intro c hc
    obtain ⟨hcd, hcn⟩ := h.apart c (Set.mem_insert_of_mem _ hc)
    refine ⟨hcd, ?_⟩
    rw [hnamed c hcd.ne_zero]
    rintro (hn | rfl)
    · exact hcn hn
    · exact hx hc
  · intro c hc
    rw [hmark c (lt_size hb hc)]
    exact h.reserved c hc

/-- All slots of an inode are emptied: its blocks are still marked and named by nobody. -/
theorem detach {din : Dinode} (h : Owns sb blk ino x) (hi : Live sb ino i)
    (ht : din.type = (ino i).type) (hzero : ∀ s, slotAddr blk din s = 0) :
    Owns sb blk (Function.update ino i din) (x ∪ {b | b ≠ 0 ∧ ∃ s, slotAddr blk (ino i) s = b}) := by
  have hnamed : ∀ c, c ≠ 0 → (Named sb blk (Function.update ino i din) c ↔
      ∃ j s, j ≠ i ∧ Live sb ino j ∧ slotAddr blk (ino j) s = c) := by
    intro c hc
    constructor
    · rintro ⟨j, s, hj, hs⟩
      rw [live_update ht] at hj
      by_cases hji : j = i
      · subst hji
        rw [Function.update_self, hzero] at hs
        exact absurd hs.symm hc
      · rw [Function.update_of_ne hji] at hs
        exact ⟨j, s, hji, hj, hs⟩
    · rintro ⟨j, s, hji, hj, hs⟩
      exact ⟨j, s, (live_update ht).mpr hj, by rw [Function.update_of_ne hji]; exact hs⟩
  refine ⟨?_, ?_, ?_, ?_, h.reserved⟩
  · intro j s hj hs
    rw [live_update ht] at hj
    by_cases hji : j = i
    · subst hji
      rw [Function.update_self, hzero] at hs
      exact absurd rfl hs
    · rw [Function.update_of_ne hji] at hs ⊢
      exact h.inData j s hj hs
  · intro j k s u hj hk hs hsu
    rw [live_update ht] at hj hk
    by_cases hji : j = i
    · subst hji
      rw [Function.update_self, hzero] at hs
      exact absurd rfl hs
    · by_cases hki : k = i
      · subst hki
        rw [Function.update_self, hzero] at hsu
        exact absurd hsu hs
      · rw [Function.update_of_ne hji] at hs hsu
        rw [Function.update_of_ne hki] at hsu
        exact h.once j k s u hj hk hs hsu
  · intro c hc
    rw [h.marks c hc, hnamed c hc.ne_zero]
    constructor
    · rintro (⟨j, s, hj, hs⟩ | hx)
      · by_cases hji : j = i
        · subst hji
          exact .inr (.inr ⟨hc.ne_zero, s, hs⟩)
        · exact .inl ⟨j, s, hji, hj, hs⟩
      · exact .inr (.inl hx)
    · rintro (⟨j, s, -, hj, hs⟩ | hx | ⟨-, s, hs⟩)
      · exact .inl ⟨j, s, hj, hs⟩
      · exact .inr hx
      · exact .inl ⟨i, s, hi, hs⟩
  · rintro c (hc | ⟨hc0, s, hs⟩)
    · obtain ⟨hcd, hcn⟩ := h.apart c hc
      refine ⟨hcd, fun hn => hcn ?_⟩
      obtain ⟨j, u, -, hj, hu⟩ := (hnamed c hcd.ne_zero).mp hn
      exact ⟨j, u, hj, hu⟩
    · refine ⟨hs ▸ h.inData i s hi (hs ▸ hc0), fun hn => ?_⟩
      obtain ⟨j, u, hji, hj, hu⟩ := (hnamed c hc0).mp hn
      exact hji (h.once i j s u hi hj (hs ▸ hc0) (hs.trans hu.symm)).1.symm

end Owns
end Xv6.Inode
