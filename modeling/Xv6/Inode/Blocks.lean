import Xv6.Inode.Ownership

/-!
# Allocation and release of the blocks of an inode

What `balloc`, `bfree`, `bmap` and `itrunc` do to the ownership of blocks. The inodes are
`ino`: a function that works on inode `i` holds its fields in memory, ahead of the disk.
-/
namespace Xv6.Inode

open Xv6.Source Xv6.Source.Fs

variable {sb : Superblock} {ino : Nat → Dinode} {x : Set Nat} {i : Nat}

/-- What `balloc` does when it finds block `b`: the bit is set, then the block is zeroed. -/
def taken (sb : Superblock) (blk : Nat → Block) (b : Nat) : Nat → Block :=
  let data := (blk (BBLOCK b sb)).setBit (b % BPB)
  Function.update (Function.update blk (BBLOCK b sb) data) b .zero

/-- A bit that `freeBit` finds in the bitmap block for the blocks from `b = BPB * k` on. -/
theorem freeBit_some {d : Disk} {k bi : Nat} (h : freeBit sb d (BPB * k) = some bi) :
    BBLOCK (BPB * k + bi) sb = BBLOCK (BPB * k) sb ∧ (BPB * k + bi) % BPB = bi ∧
    BPB * k + bi < sb.size ∧ marked sb d.block (BPB * k + bi) = false := by
  have hmem := List.mem_of_find?_eq_some h
  have hbi : bi < BPB := by simpa using hmem
  have hpos : 0 < BPB := by decide
  have hblock : BBLOCK (BPB * k + bi) sb = BBLOCK (BPB * k) sb := by
    rw [BBLOCK, BBLOCK, Nat.mul_add_div hpos, Nat.mul_div_right _ hpos, Nat.div_eq_of_lt hbi,
      Nat.add_zero]
  have hmod : (BPB * k + bi) % BPB = bi := by
    rw [Nat.mul_add_mod, Nat.mod_eq_of_lt hbi]
  have hp := List.find?_some h
  simp only [Bool.and_eq_true, decide_eq_true_eq, Bool.not_eq_true'] at hp
  refine ⟨hblock, hmod, hp.1, ?_⟩
  rw [marked, hblock, hmod]
  exact hp.2

/-- `balloc` finds nothing and changes nothing, or takes a free data block. -/
theorem balloc_spec {d : Disk} (h : Owns sb d.block ino x) :
    balloc sb d = (0, d) ∨
    ∃ b, (balloc sb d).1 = b ∧ IsData sb b ∧ marked sb d.block b = false ∧
      (balloc sb d).2.block = taken sb d.block b := by
  unfold balloc
  split
  · exact .inl rfl
  · next b bi hfound =>
    obtain ⟨b', hmem, hbit⟩ := List.exists_of_findSome?_eq_some hfound
    obtain ⟨k, -, rfl⟩ := List.mem_range'.mp hmem
    obtain ⟨bi', hfree, heq⟩ := Option.map_eq_some_iff.mp hbit
    obtain ⟨rfl, rfl⟩ := Prod.mk.inj heq
    rw [Nat.zero_add] at *
    obtain ⟨hblock, hmod, hlt, hunmarked⟩ := freeBit_some hfree
    refine .inr ⟨_, rfl, ⟨?_, hlt⟩, hunmarked, ?_⟩
    · by_contra hlow
      rw [h.reserved _ (Nat.lt_of_not_le hlow)] at hunmarked
      cases hunmarked
    · simp only [bzero, Disk.store_block, Disk.logWrite_block, taken, hblock, hmod]

theorem setBit_bit (data : Block) (k : Nat) : ∀ j < BPB,
    (data.setBit k).bit j = if j = k then true else data.bit j := by
  intro j hj
  rw [Block.bit_setBit _ hj]
  by_cases h : j = k <;> simp [h]

theorem clearBit_bit (data : Block) (k : Nat) : ∀ j < BPB,
    (data.clearBit k).bit j = if j = k then false else data.bit j := by
  intro j hj
  rw [Block.bit_clearBit _ hj]
  by_cases h : j = k <;> simp [h]

/-- A block taken by `balloc` belongs to no inode yet. -/
theorem Owns.taken {blk : Nat → Block} {b : Nat} (h : Owns sb blk ino x) (hb : IsData sb b)
    (hfree : marked sb blk b = false) : Owns sb (taken sb blk b) ino (insert b x) :=
  h.alloc hb hfree (setBit_bit _ _)

/-- What an operation on inode `i` leaves alone: the blocks before the bitmap, and the data
blocks that are marked, but for the indirect block `ind`. Marks are only added. -/
structure Keeps (sb : Superblock) (ind : Nat) (blk blk' : Nat → Block) : Prop where
  low : ∀ b < sb.bmapstart, blk' b = blk b
  data : ∀ b, IsData sb b → marked sb blk b = true → b ≠ ind → blk' b = blk b
  marks : ∀ b < sb.size, marked sb blk b = true → marked sb blk' b = true

namespace Keeps

variable {ind : Nat} {blk blk' blk'' : Nat → Block}

theorem refl (sb : Superblock) (ind : Nat) (blk : Nat → Block) : Keeps sb ind blk blk :=
  ⟨fun _ _ => rfl, fun _ _ _ _ => rfl, fun _ _ h => h⟩

theorem trans (h : Keeps sb ind blk blk') (h' : Keeps sb ind blk' blk'') : Keeps sb ind blk blk'' where
  low b hb := (h'.low b hb).trans (h.low b hb)
  data b hb hm hne := (h'.data b hb (h.marks b hb.2 hm) hne).trans (h.data b hb hm hne)
  marks b hb hm := h'.marks b hb (h.marks b hb hm)

theorem taken {b : Nat} (hb : IsData sb b) (hfree : marked sb blk b = false) :
    Keeps sb ind blk (taken sb blk b) where
  low c hc := by
    have hcb : c ≠ b := Nat.ne_of_lt (Nat.lt_trans hc hb.bmapstart_lt)
    have hcB : c ≠ BBLOCK b sb := Nat.ne_of_lt (Nat.lt_of_lt_of_le hc (BBLOCK_ge sb b))
    rw [Inode.taken, Function.update_of_ne hcb, Function.update_of_ne hcB]
  data c hc hm _ := by
    have hcb : c ≠ b := by
      rintro rfl
      rw [hfree] at hm
      cases hm
    rw [Inode.taken, Function.update_of_ne hcb, Function.update_of_ne (hc.ne_BBLOCK hb.2)]
  marks c hc hm := by
    rw [Inode.taken, marked_store hb hc, marked_update (setBit_bit _ _), hm, ite_self]

theorem store {b : Nat} (hb : IsData sb b) (h : marked sb blk b = true → b = ind) (data : Block) :
    Keeps sb ind blk (Function.update blk b data) where
  low c hc := Function.update_of_ne (Nat.ne_of_lt (Nat.lt_trans hc hb.bmapstart_lt)) _ _
  data c _ hm hne := by
    refine Function.update_of_ne ?_ _ _
    rintro rfl
    exact hne (h hm)
  marks c hc hm := by rw [marked_store hb hc]; exact hm

end Keeps

/-- Slot `t` gets block `b`, and the other slots keep theirs. -/
def Fills (blk : Nat → Block) (din : Dinode) (blk' : Nat → Block) (din' : Dinode) (t : Slot)
    (b : Nat) : Prop :=
  ∀ s, slotAddr blk' din' s = if s = t then b else slotAddr blk din s

theorem fills_direct {blk : Nat → Block} {din : Dinode} {b : Nat} (k : Fin NDIRECT)
    (hb : b < 2 ^ 32) : Fills blk din blk (din.setAddr k b) (.direct k) b := by
  have hk : k.val < NDIRECT + 1 := Nat.lt_succ_of_lt k.isLt
  have hind : (din.setAddr k b).addr NDIRECT = din.addr NDIRECT := by
    rw [Dinode.addr_setAddr _ hb hk, if_neg (Nat.ne_of_gt k.isLt)]
  intro s
  cases s with
  | direct j =>
    simp only [slotAddr, Dinode.addr_setAddr _ hb hk, Slot.direct.injEq, Fin.ext_iff]
  | indirect =>
    simp only [slotAddr, hind]
    rfl
  | entry j =>
    simp only [slotAddr, hind]
    rfl

theorem getInt_zero (k : Nat) : Block.zero.getInt k = 0 := by
  have hbyte : ∀ j, Block.zero.byte j = 0 := by
    intro j
    unfold Block.byte Block.zero
    split <;> rfl
  simp [Block.getInt, hbyte]

theorem fills_indirect {blk : Nat → Block} {din : Dinode} {b : Nat} (hb : b < 2 ^ 32)
    (hzero : blk b = .zero) (hempty : din.addr NDIRECT = 0) :
    Fills blk din blk (din.setAddr NDIRECT b) .indirect b := by
  have hset := fun j => Dinode.addr_setAddr din hb (show NDIRECT < NDIRECT + 1 by decide) j
  intro s
  cases s with
  | direct j => simp [slotAddr, hset, Nat.ne_of_lt j.isLt]
  | indirect => simp [slotAddr, hset]
  | entry j => simp [slotAddr, hset, hempty, hzero, getInt_zero]

theorem fills_entry {blk : Nat → Block} {din : Dinode} {b : Nat} (j : Fin NINDIRECT)
    (hb : b < 2 ^ 32) (hind : din.addr NDIRECT ≠ 0) :
    Fills blk din (Function.update blk (din.addr NDIRECT)
      ((blk (din.addr NDIRECT)).setInt j (UInt32.ofNat b))) din (.entry j) b := by
  intro s
  cases s with
  | direct k => rfl
  | indirect => rfl
  | entry k =>
    simp only [slotAddr, if_neg hind, Function.update_self, Slot.entry.injEq]
    by_cases hk : k = j
    · subst hk
      rw [if_pos rfl, Block.getInt_setInt _ _ _ k.isLt]
      exact UInt32.toNat_ofNat_of_lt' hb
    · rw [if_neg hk, Block.getInt_setInt_ne _ _ _ _ k.isLt fun e => hk (Fin.ext e)]

/-- Taking a free block changes nothing in what inodes name. -/
theorem slotAddr_taken {blk : Nat → Block} {b : Nat} (h : Owns sb blk ino x) (hb : IsData sb b)
    (hfree : marked sb blk b = false) {j : Nat} (hj : Live sb ino j) (s : Slot) :
    slotAddr (taken sb blk b) (ino j) s = slotAddr blk (ino j) s := by
  refine slotAddr_congr (fun hne => ?_) s
  have hne' := Owns.ne_indirect (h.not_named hb hfree).1 hj
  rw [taken, Function.update_of_ne hne', Function.update_of_ne (h.bitmap_ne hb.2 hj hne)]

/-- What taking blocks for inode `i` leaves behind: its fields in memory are `din'`, only
addresses have changed, and those that named a block still do. -/
structure Grown (sb : Superblock) (ino : Nat → Dinode) (x : Set Nat) (i : Nat)
    (blk blk' : Nat → Block) (din' : Dinode) : Prop where
  owns : Owns sb blk' (Function.update ino i din') x
  keeps : Keeps sb (din'.addr NDIRECT) blk blk'
  fields : din' = { ino i with addrs := din'.addrs }
  slots : ∀ s, slotAddr blk (ino i) s ≠ 0 → slotAddr blk' din' s = slotAddr blk (ino i) s

namespace Grown

variable {blk blk' blk'' : Nat → Block} {din' din'' : Dinode}

theorem refl (h : Owns sb blk ino x) : Grown sb ino x i blk blk (ino i) :=
  ⟨by rw [Function.update_eq_self]; exact h, Keeps.refl _ _ _, rfl, fun _ _ => rfl⟩

theorem type_eq (h : Grown sb ino x i blk blk' din') : din'.type = (ino i).type := by
  rw [h.fields]

theorem trans (h : Grown sb ino x i blk blk' din')
    (h' : Grown sb (Function.update ino i din') x i blk' blk'' din'') :
    Grown sb ino x i blk blk'' din'' := by
  have howns := h'.owns
  have hfields := h'.fields
  have hslots := h'.slots
  rw [Function.update_idem] at howns
  rw [Function.update_self] at hfields hslots
  refine ⟨howns, ?_, ?_, ?_⟩
  · -- an indirect block that was there stays; the address 0 is no data block
    have hind : ∀ b, IsData sb b → b ≠ din''.addr NDIRECT → b ≠ din'.addr NDIRECT := by
      rintro b hb hne rfl
      exact hne (hslots .indirect hb.ne_zero).symm
    refine ⟨fun b hb => (h'.keeps.low b hb).trans (h.keeps.low b hb), fun b hb hm hne => ?_,
      fun b hb hm => h'.keeps.marks b hb (h.keeps.marks b hb hm)⟩
    exact (h'.keeps.data b hb (h.keeps.marks b hb.2 hm) hne).trans
      (h.keeps.data b hb hm (hind b hb hne))
  · rw [hfields, h.fields]
  · intro s hs
    have h1 := h.slots s hs
    rw [hslots s (h1 ▸ hs), h1]

/-- A free block is taken and goes to the empty slot `t`. -/
theorem of_taken {b : Nat} {t : Slot} (h : Owns sb blk ino x) (hi : Live sb ino i) (hb : IsData sb b)
    (hfree : marked sb blk b = false) (hempty : slotAddr blk (ino i) t = 0)
    (hfields : din' = { ino i with addrs := din'.addrs })
    (hfill : Fills (taken sb blk b) (ino i) blk' din' t b)
    (hother : ∀ c, IsData sb c → c ≠ (ino i).addr NDIRECT → blk' c = taken sb blk b c)
    (hmark : ∀ c < sb.size, marked sb blk' c = marked sb (taken sb blk b) c)
    (hkeeps : Keeps sb (din'.addr NDIRECT) (taken sb blk b) blk') :
    Grown sb ino x i blk blk' din' := by
  refine ⟨(h.taken hb hfree).attach hi (h.not_named hb hfree).2 (by rw [hfields]) ?_ ?_ hfill hmark,
    (Keeps.taken hb hfree).trans hkeeps, hfields, ?_⟩
  · intro j hj hji s
    refine slotAddr_congr (fun hne => hother _ (h.inData j .indirect hj hne) fun he => ?_) s
    exact hji (h.once j i .indirect .indirect hj hi hne he).1
  · rw [slotAddr_taken h hb hfree hi]
    exact hempty
  · intro s hs
    have hst : s ≠ t := by
      rintro rfl
      exact hs hempty
    rw [hfill s, if_neg hst, slotAddr_taken h hb hfree hi]

end Grown

theorem lt_of_isData {b : Nat} (hg : Geometry sb) (hb : IsData sb b) : b < 2 ^ 32 :=
  Nat.lt_trans hb.2 hg.size_lt

/-- A free block becomes a direct block of inode `i`. -/
theorem Grown.direct {blk : Nat → Block} {b : Nat} (hg : Geometry sb) (h : Owns sb blk ino x)
    (hi : Live sb ino i) (hb : IsData sb b) (hfree : marked sb blk b = false) (k : Fin NDIRECT)
    (hempty : (ino i).addr k = 0) :
    Grown sb ino x i blk (taken sb blk b) ((ino i).setAddr k b) :=
  .of_taken h hi hb hfree (t := .direct k) hempty rfl (fills_direct k (lt_of_isData hg hb)) (fun _ _ _ => rfl)
    (fun _ _ => rfl) (Keeps.refl _ _ _)

/-- A free block becomes the indirect block of inode `i`. -/
theorem Grown.indirect {blk : Nat → Block} {b : Nat} (hg : Geometry sb) (h : Owns sb blk ino x)
    (hi : Live sb ino i) (hb : IsData sb b) (hfree : marked sb blk b = false)
    (hempty : (ino i).addr NDIRECT = 0) :
    Grown sb ino x i blk (taken sb blk b) ((ino i).setAddr NDIRECT b) :=
  .of_taken h hi hb hfree (t := .indirect) hempty rfl
    (fills_indirect (lt_of_isData hg hb) (Function.update_self _ _ _) hempty)
    (fun _ _ _ => rfl) (fun _ _ => rfl) (Keeps.refl _ _ _)

/-- A free block is entered in the indirect block of inode `i`. -/
theorem Grown.entry {blk : Nat → Block} {b : Nat} (hg : Geometry sb) (h : Owns sb blk ino x)
    (hi : Live sb ino i) (hb : IsData sb b) (hfree : marked sb blk b = false) (j : Fin NINDIRECT)
    (hind : (ino i).addr NDIRECT ≠ 0) (hempty : ((blk ((ino i).addr NDIRECT)).getInt j).toNat = 0) :
    Grown sb ino x i blk (Function.update (taken sb blk b) ((ino i).addr NDIRECT)
      ((taken sb blk b ((ino i).addr NDIRECT)).setInt j (UInt32.ofNat b))) (ino i) := by
  have hdata := h.inData i .indirect hi hind
  refine .of_taken h hi hb hfree (t := .entry j) ?_ rfl (fills_entry j (lt_of_isData hg hb) hind) ?_ ?_ ?_
  · rw [slotAddr, if_neg hind]
    exact hempty
  · intro c _ hne
    exact Function.update_of_ne hne _ _
  · intro c hc
    exact marked_store hdata hc
  · exact Keeps.store hdata (fun _ => rfl) _

/-- `bmap` finds the block of a mapped part of the file and changes nothing. -/
theorem bmap_found {d : Disk} {din : Dinode} {bn : Nat} (hbn : bn < MAXFILE)
    (h : blockOf d.block din bn ≠ 0) : bmap sb d din bn = .ok (blockOf d.block din bn, d, din) := by
  by_cases hdir : bn < NDIRECT
  · have hslot : blockOf d.block din bn = din.addr bn := by rw [blockOf, fileSlot_direct hdir]; rfl
    rw [hslot] at h ⊢
    simp only [bmap, if_pos hdir, if_neg h]
  · have hlt : bn - NDIRECT < NINDIRECT := by
      have : MAXFILE = NDIRECT + NINDIRECT := rfl
      omega
    rw [blockOf, fileSlot_entry hdir hlt, slotAddr] at h ⊢
    split at h
    · exact absurd rfl h
    · next hind =>
      simp only [bmap, if_neg hdir, if_pos hlt, if_neg hind, if_neg h]

/-- `bmap` in the part of the file behind the direct blocks, once the indirect block is there. -/
theorem bmap_entry {d : Disk} (hg : Geometry sb) (h : Owns sb d.block ino x) (hi : Live sb ino i)
    {bn : Nat} (hdir : ¬ bn < NDIRECT) (hlt : bn - NDIRECT < NINDIRECT)
    (hind : (ino i).addr NDIRECT ≠ 0) :
    ∃ addr d', bmap sb d (ino i) bn = .ok (addr, d', ino i) ∧
      Grown sb ino x i d.block d'.block (ino i) ∧
      (addr ≠ 0 → blockOf d'.block (ino i) bn = addr) := by
  have hblock : ∀ blk, blockOf blk (ino i) bn =
      ((blk ((ino i).addr NDIRECT)).getInt (bn - NDIRECT)).toNat := by
    intro blk
    rw [blockOf, fileSlot_entry hdir hlt, slotAddr, if_neg hind]
  simp only [bmap, if_neg hdir, if_pos hlt, if_neg hind]
  split
  · next hempty =>
    rcases balloc_spec h with hfull | ⟨b, hb1, hb, hfree, hblk⟩
    · rw [hfull, if_pos rfl]
      exact ⟨0, d, rfl, .refl h, fun h0 => absurd rfl h0⟩
    · rw [hb1, if_neg hb.ne_zero]
      refine ⟨b, _, rfl, ?_, fun _ => ?_⟩
      · rw [Disk.logWrite_block, Disk.store_block, hblk]
        exact .entry hg h hi hb hfree ⟨bn - NDIRECT, hlt⟩ hind hempty
      · rw [hblock, Disk.logWrite_block, Disk.store_block, Function.update_self,
          Block.getInt_setInt _ _ _ hlt]
        exact UInt32.toNat_ofNat_of_lt' (lt_of_isData hg hb)
  · exact ⟨_, d, rfl, .refl h, fun _ => hblock _⟩

/-- What `bmap` does: it hands out the block of block `bn`, or 0 if the disk is full; what it
took on the way belongs to the inode. -/
theorem bmap_spec {d : Disk} (hg : Geometry sb) (h : Owns sb d.block ino x) (hi : Live sb ino i)
    {bn : Nat} (hbn : bn < MAXFILE) :
    ∃ addr d' din', bmap sb d (ino i) bn = .ok (addr, d', din') ∧
      Grown sb ino x i d.block d'.block din' ∧ (addr ≠ 0 → blockOf d'.block din' bn = addr) := by
  by_cases hdir : bn < NDIRECT
  · have hblock : ∀ blk din, blockOf blk din bn = din.addr bn := by
      intro blk din
      rw [blockOf, fileSlot_direct hdir]
      rfl
    simp only [bmap, if_pos hdir]
    split
    · next hempty =>
      rcases balloc_spec h with hfull | ⟨b, hb1, hb, hfree, hblk⟩
      · rw [hfull, if_pos rfl]
        exact ⟨0, d, _, rfl, .refl h, fun h0 => absurd rfl h0⟩
      · rw [hb1, if_neg hb.ne_zero]
        refine ⟨b, _, _, rfl, ?_, fun _ => ?_⟩
        · rw [hblk]
          exact .direct hg h hi hb hfree ⟨bn, hdir⟩ hempty
        · rw [hblock, Dinode.addr_setAddr _ (lt_of_isData hg hb) (Nat.lt_succ_of_lt hdir), if_pos rfl]
    · exact ⟨_, d, _, rfl, .refl h, fun _ => hblock _ _⟩
  · have hlt : bn - NDIRECT < NINDIRECT := by
      have : MAXFILE = NDIRECT + NINDIRECT := rfl
      omega
    by_cases hind : (ino i).addr NDIRECT = 0
    · rcases balloc_spec h with hfull | ⟨b, hb1, hb, hfree, hblk⟩
      · simp only [bmap, if_neg hdir, if_pos hlt, if_pos hind, hfull, if_true]
        exact ⟨0, d, _, rfl, .refl h, fun h0 => absurd rfl h0⟩
      · -- with the new indirect block in place the rest is as for an inode that had one
        have hgrown : Grown sb ino x i d.block (balloc sb d).2.block ((ino i).setAddr NDIRECT b) := by
          rw [hblk]
          exact .indirect hg h hi hb hfree hind
        have haddr : ((ino i).setAddr NDIRECT b).addr NDIRECT = b := by
          rw [Dinode.addr_setAddr _ (lt_of_isData hg hb) (by decide), if_pos rfl]
        have hlive : Live sb (Function.update ino i ((ino i).setAddr NDIRECT b)) i :=
          (Owns.live_update (show ((ino i).setAddr NDIRECT b).type = (ino i).type from rfl)).mpr hi
        obtain ⟨addr, d', hbmap, hgrown', hfound⟩ := bmap_entry hg hgrown.owns hlive hdir hlt (by
          rw [Function.update_self, haddr]
          exact hb.ne_zero)
        rw [Function.update_self] at hbmap hgrown' hfound
        refine ⟨addr, d', _, ?_, hgrown.trans hgrown', hfound⟩
        rw [← hbmap]
        simp only [bmap, if_neg hdir, if_pos hlt, if_pos hind, hb1, if_neg hb.ne_zero, haddr]
    · obtain ⟨addr, d', hbmap, hgrown, hfound⟩ := bmap_entry hg h hi hdir hlt hind
      exact ⟨addr, d', _, hbmap, hgrown, hfound⟩

/-- Only blocks of the bitmap differ. -/
def BitmapOnly (sb : Superblock) (blk blk' : Nat → Block) : Prop :=
  ∀ b, b < sb.bmapstart ∨ datastart sb ≤ b → blk' b = blk b

theorem BitmapOnly.trans {blk blk' blk'' : Nat → Block} (h : BitmapOnly sb blk blk')
    (h' : BitmapOnly sb blk' blk'') : BitmapOnly sb blk blk'' :=
  fun b hb => (h' b hb).trans (h b hb)

/-- `bfree` of a block that no inode names. -/
theorem bfree_spec {d : Disk} {b : Nat} (h : Owns sb d.block ino x) (hb : b ∈ x) :
    ∃ d', bfree sb d b = .ok d' ∧ Owns sb d'.block ino (x \ {b}) ∧ BitmapOnly sb d.block d'.block := by
  obtain ⟨hdata, -⟩ := h.apart b hb
  have hmark : (d.block (BBLOCK b sb)).bit (b % BPB) = true := (h.marks b hdata).mpr (.inr hb)
  have hlt := BBLOCK_lt hdata.2
  refine ⟨_, by simp only [bfree, hmark, if_true]; rfl, h.free hb (clearBit_bit _ _), fun c hc => ?_⟩
  refine Function.update_of_ne ?_ _ _
  have := BBLOCK_ge sb b
  omega

/-- The blocks of a list are freed one by one. -/
def bfreeAll (sb : Superblock) : List Nat → Disk → Kernel Disk
  | [], d => .ok d
  | b :: rest, d => bfree sb d b >>= bfreeAll sb rest

theorem bfreeAll_append {l m : List Nat} {d : Disk} :
    bfreeAll sb (l ++ m) d = bfreeAll sb l d >>= bfreeAll sb m := by
  induction l generalizing d with
  | nil => rfl
  | cons b l ih =>
    simp only [List.cons_append, bfreeAll, bind_assoc]
    cases bfree sb d b with
    | error e => rfl
    | ok d' => exact ih

theorem bfreeAll_spec {l : List Nat} {d : Disk} (h : Owns sb d.block ino x) (hl : l.Nodup)
    (hx : ∀ b ∈ l, b ∈ x) :
    ∃ d', bfreeAll sb l d = .ok d' ∧ Owns sb d'.block ino (x \ {b | b ∈ l}) ∧
      BitmapOnly sb d.block d'.block := by
  induction l generalizing d x with
  | nil => exact ⟨d, rfl, by simpa using h, fun _ _ => rfl⟩
  | cons b l ih =>
    obtain ⟨hnot, hl⟩ := List.nodup_cons.mp hl
    obtain ⟨d1, hfree, howns, hsame⟩ := bfree_spec h (hx b List.mem_cons_self)
    have hx' : ∀ c ∈ l, c ∈ x \ {b} := by
      intro c hc
      refine ⟨hx c (List.mem_cons_of_mem _ hc), ?_⟩
      rintro rfl
      exact hnot hc
    obtain ⟨d2, hrest, howns', hsame'⟩ := ih howns hl hx'
    refine ⟨d2, by rw [bfreeAll, hfree]; exact hrest, ?_, hsame.trans hsame'⟩
    have hset : (x \ {b}) \ {c | c ∈ l} = x \ {c | c ∈ b :: l} := by
      ext c
      simp [and_assoc, not_or]
    exact hset ▸ howns'

/-- The addresses in a list that name a block. -/
def present (l : List Nat) : List Nat := l.filter (· ≠ 0)

theorem truncEntries_eq (a : Block) (l : List Nat) (d : Disk) :
    truncEntries sb a l d = bfreeAll sb (present (l.map fun j => (a.getInt j).toNat)) d := by
  induction l generalizing d with
  | nil => rfl
  | cons j l ih =>
    by_cases hj : (a.getInt j).toNat = 0
    · simp only [truncEntries, present, List.map_cons, List.filter_cons, hj, ne_eq, not_true_eq_false,
        decide_false, if_false, Bool.false_eq_true]
      exact ih d
    · simp only [truncEntries, present, List.map_cons, List.filter_cons, hj, ne_eq, not_false_eq_true,
        decide_true, if_true, bfreeAll]
      exact congrArg (bfree sb d _ >>= ·) (funext ih)

/-- The addresses of a list of slots are cleared. -/
def clearAddrs (l : List Nat) (din : Dinode) : Dinode := l.foldl (fun din k => din.setAddr k 0) din

theorem setAddr_zero {din : Dinode} {k : Nat} (hk : k < NDIRECT + 1) (h : din.addr k = 0) :
    din.setAddr k 0 = din := by
  unfold Dinode.addr at h
  rw [dif_pos hk] at h
  unfold Dinode.setAddr
  congr 1
  funext j
  split
  · next hj =>
    have hjk : j = ⟨k, hk⟩ := Fin.ext hj
    subst hjk
    exact (UInt32.toNat_inj.mp h).symm
  · rfl

theorem addr_clearAddrs {l : List Nat} (hlt : ∀ k ∈ l, k < NDIRECT + 1) (din : Dinode) (k : Nat) :
    (clearAddrs l din).addr k = if k ∈ l then 0 else din.addr k := by
  induction l generalizing din with
  | nil => rfl
  | cons j l ih =>
    have hj := hlt j List.mem_cons_self
    rw [clearAddrs, List.foldl_cons]
    refine (ih (fun k hk => hlt k (List.mem_cons_of_mem _ hk)) _).trans ?_
    rw [Dinode.addr_setAddr din (by decide) hj]
    by_cases hk : k = j <;> simp [hk]

theorem truncDirect_eq {l : List Nat} (hl : l.Nodup) (hlt : ∀ k ∈ l, k < NDIRECT) (d : Disk)
    (din : Dinode) : truncDirect sb l d din =
      (fun d => (d, clearAddrs l din)) <$> bfreeAll sb (present (l.map din.addr)) d := by
  induction l generalizing d din with
  | nil => rfl
  | cons j l ih =>
    obtain ⟨hnot, hl⟩ := List.nodup_cons.mp hl
    have hlt' : ∀ k ∈ l, k < NDIRECT := fun k hk => hlt k (List.mem_cons_of_mem _ hk)
    have hj : j < NDIRECT + 1 := Nat.lt_succ_of_lt (hlt j List.mem_cons_self)
    rw [clearAddrs, List.foldl_cons]
    by_cases h0 : din.addr j = 0
    · rw [setAddr_zero hj h0]
      simp only [truncDirect, present, List.map_cons, List.filter_cons, h0, ne_eq, not_true_eq_false,
        decide_false, if_false, Bool.false_eq_true]
      exact ih hl hlt' d din
    · have hmap : l.map (din.setAddr j 0).addr = l.map din.addr := by
        refine List.map_congr_left fun k hk => ?_
        rw [Dinode.addr_setAddr din (by decide) hj, if_neg]
        rintro rfl
        exact hnot hk
      simp only [truncDirect, present, List.map_cons, List.filter_cons, h0, ne_eq, not_false_eq_true,
        decide_true, if_true, bfreeAll]
      cases bfree sb d (din.addr j) with
      | error e => rfl
      | ok d1 =>
        have := ih hl hlt' d1 (din.setAddr j 0)
        rw [hmap] at this
        exact this

/-- An inode without content. -/
def emptied (din : Dinode) : Dinode := { din with size := 0, addrs := fun _ => 0 }

/-- The indirect block and what it names. -/
def indirectBlocks (blk : Nat → Block) (din : Dinode) : List Nat :=
  if din.addr NDIRECT = 0 then []
  else present ((List.range' 0 NINDIRECT).map fun j => ((blk (din.addr NDIRECT)).getInt j).toNat) ++
    [din.addr NDIRECT]

/-- The blocks of an inode, in the order in which `itrunc` frees them. -/
def blocksOf (blk : Nat → Block) (din : Dinode) : List Nat :=
  present ((List.range' 0 NDIRECT).map din.addr) ++ indirectBlocks blk din

/-- The slots of an inode that `itrunc` visits, in order. -/
def slotsOf : List Slot :=
  (List.finRange NDIRECT).map .direct ++ ((List.finRange NINDIRECT).map .entry ++ [.indirect])

theorem mem_slotsOf (s : Slot) : s ∈ slotsOf := by
  cases s <;> simp [slotsOf]

theorem nodup_slotsOf : slotsOf.Nodup := by
  have hd : ((List.finRange NDIRECT).map Slot.direct).Nodup :=
    (List.nodup_finRange _).map fun _ _ h => Slot.direct.inj h
  have he : ((List.finRange NINDIRECT).map Slot.entry).Nodup :=
    (List.nodup_finRange _).map fun _ _ h => Slot.entry.inj h
  unfold slotsOf
  refine List.nodup_append.mpr ⟨hd, List.nodup_append.mpr ⟨he, List.nodup_singleton _, ?_⟩, ?_⟩
  · simp
  · intro s hs t ht
    simp only [List.mem_append, List.mem_map, List.mem_singleton] at hs ht
    obtain ⟨k, -, rfl⟩ := hs
    rcases ht with ⟨j, -, rfl⟩ | rfl <;> simp

theorem blocksOf_eq (blk : Nat → Block) (din : Dinode) :
    blocksOf blk din = present (slotsOf.map (slotAddr blk din)) := by
  have hdirect : (List.finRange NDIRECT).map (fun k => slotAddr blk din (.direct k)) =
      (List.range' 0 NDIRECT).map din.addr := by
    rw [← List.range_eq_range', ← List.map_coe_finRange_eq_range, List.map_map]
    rfl
  unfold blocksOf slotsOf indirectBlocks
  simp only [List.map_append, List.map_map, present, List.filter_append]
  refine congrArg₂ _ (congrArg (List.filter _) hdirect.symm) ?_
  split
  · next h0 =>
    simp [slotAddr, h0]
  · next h0 =>
    have hentry : (List.finRange NINDIRECT).map (fun j => slotAddr blk din (.entry j)) =
        (List.range' 0 NINDIRECT).map fun j => ((blk (din.addr NDIRECT)).getInt j).toNat := by
      rw [← List.range_eq_range', ← List.map_coe_finRange_eq_range, List.map_map]
      exact List.map_congr_left fun j _ => by simp only [slotAddr, if_neg h0]; rfl
    refine congrArg₂ _ (congrArg (List.filter _) hentry.symm) ?_
    simp [slotAddr, h0]

theorem nodup_blocksOf {blk : Nat → Block} (h : Owns sb blk ino x) (hi : Live sb ino i) :
    (blocksOf blk (ino i)).Nodup := by
  rw [blocksOf_eq, present, List.filter_map]
  refine List.Nodup.map_on ?_ (nodup_slotsOf.filter _)
  intro s hs t _ hst
  have hne : slotAddr blk (ino i) s ≠ 0 := by simpa using (List.mem_filter.mp hs).2
  exact (h.once i i s t hi hi hne hst).2

theorem mem_blocksOf {blk : Nat → Block} {din : Dinode} {b : Nat} :
    b ∈ blocksOf blk din ↔ b ≠ 0 ∧ ∃ s, slotAddr blk din s = b := by
  rw [blocksOf_eq, present, List.mem_filter, List.mem_map]
  simp [mem_slotsOf, and_comm]

theorem addrs_ext {din din' : Dinode} (h : ∀ k < NDIRECT + 1, din.addr k = din'.addr k) :
    din.addrs = din'.addrs := by
  funext k
  have hk := h k.val k.isLt
  simp only [Dinode.addr, k.isLt, dif_pos] at hk
  exact UInt32.toNat_inj.mp hk

theorem emptied_addr (din : Dinode) (k : Nat) : (emptied din).addr k = 0 := by
  unfold Dinode.addr emptied
  split <;> rfl

theorem slotAddr_emptied (blk : Nat → Block) (din : Dinode) (s : Slot) :
    slotAddr blk (emptied din) s = 0 := by
  cases s <;> simp [slotAddr, emptied_addr]

/-- The fields that `itrunc` ends with. -/
theorem clearAddrs_emptied (din : Dinode) :
    { (clearAddrs (List.range' 0 NDIRECT) din).setAddr NDIRECT 0 with size := 0 } = emptied din := by
  have hfields : ∀ l : List Nat, ∀ din : Dinode,
      clearAddrs l din = { din with addrs := (clearAddrs l din).addrs } := by
    intro l
    induction l with
    | nil => exact fun _ => rfl
    | cons k l ih => exact fun din => (ih (din.setAddr k 0)).trans rfl
  have haddr : ∀ k < NDIRECT + 1,
      ((clearAddrs (List.range' 0 NDIRECT) din).setAddr NDIRECT 0).addr k = (emptied din).addr k := by
    intro k hk
    rw [Dinode.addr_setAddr _ (by decide) (by decide), addr_clearAddrs (by simp; omega), emptied_addr]
    have hmem : k ≠ NDIRECT → k ∈ List.range' 0 NDIRECT := by
      intro hne
      simp
      omega
    split
    · rfl
    · next hne => rw [if_pos (hmem hne)]
  rw [Dinode.setAddr, hfields, emptied]
  exact congrArg (Dinode.mk _ _ _ _ 0) (addrs_ext haddr)

/-- `truncIndirect` frees the rest of the blocks. -/
theorem truncIndirect_eq {d : Disk} {din : Dinode} : truncIndirect sb d din =
    (fun d => (d, din.setAddr NDIRECT 0)) <$> bfreeAll sb (indirectBlocks d.block din) d := by
  unfold truncIndirect indirectBlocks
  by_cases h0 : din.addr NDIRECT = 0
  · rw [if_neg (not_not_intro h0), if_pos h0, setAddr_zero (by decide) h0]
    rfl
  · rw [if_pos h0, if_neg h0, bfreeAll_append, truncEntries_eq]
    cases bfreeAll sb _ d with
    | error e => rfl
    | ok d1 =>
      simp only [bfreeAll, bind_pure_comp]
      cases hfree : bfree sb d1 (din.addr NDIRECT) with
      | error e => simp [bind, Except.bind, hfree]
      | ok d2 => simp [bind, Except.bind, hfree]

theorem indirectBlocks_congr {blk blk' : Nat → Block} {din din' : Dinode}
    (haddr : din'.addr NDIRECT = din.addr NDIRECT)
    (h : din.addr NDIRECT ≠ 0 → blk' (din.addr NDIRECT) = blk (din.addr NDIRECT)) :
    indirectBlocks blk' din' = indirectBlocks blk din := by
  unfold indirectBlocks
  rw [haddr]
  split
  · rfl
  · next hne => rw [h hne]

/-- `itrunc` gives up all blocks of the inode and writes it back without content. -/
theorem itrunc_spec {d : Disk} (h : Owns sb d.block ino x) (hi : Live sb ino i) :
    ∃ d', itrunc sb d i (ino i) = .ok (iupdate sb d' i (emptied (ino i)), emptied (ino i)) ∧
      Owns sb d'.block (Function.update ino i (emptied (ino i))) x ∧
      BitmapOnly sb d.block d'.block := by
  have hdetach := h.detach hi (show (emptied (ino i)).type = (ino i).type from rfl)
    (slotAddr_emptied _ _)
  obtain ⟨hnd1, hnd2, hdisj⟩ := List.nodup_append.mp (nodup_blocksOf h hi)
  -- the direct blocks
  obtain ⟨d1, hfree1, howns1, hsame1⟩ := bfreeAll_spec hdetach hnd1
    fun b hb => .inr (mem_blocksOf.mp (List.mem_append_left _ hb))
  -- the indirect block has not changed since: free what it names, and itself
  obtain ⟨d2, hfree2, howns2, hsame2⟩ := bfreeAll_spec howns1 hnd2 fun b hb =>
    ⟨.inr (mem_blocksOf.mp (List.mem_append_right _ hb)), fun hb1 => hdisj b hb1 b hb rfl⟩
  have hind : indirectBlocks d1.block (clearAddrs (List.range' 0 NDIRECT) (ino i)) =
      indirectBlocks d.block (ino i) := by
    refine indirectBlocks_congr ?_ fun hne => hsame1 _ (.inr (h.inData i .indirect hi hne).1)
    rw [addr_clearAddrs (by simp; omega), if_neg (by simp)]
  refine ⟨d2, ?_, ?_, hsame1.trans hsame2⟩
  · rw [itrunc, truncDirect_eq (List.nodup_range' ..) (by simp), hfree1]
    simp only [Functor.map, Except.map, bind, Except.bind, pure, Except.pure, truncIndirect_eq, hind,
      hfree2, clearAddrs_emptied]
  · refine cast (congrArg (Owns sb d2.block _) ?_) howns2
    ext b
    have hmem : b ∈ blocksOf d.block (ino i) ↔ _ ∨ _ := List.mem_append
    have hx : b ∈ x → b ∉ blocksOf d.block (ino i) := by
      intro hbx hb
      obtain ⟨-, s, hs⟩ := mem_blocksOf.mp hb
      exact (h.apart b hbx).2 ⟨i, s, hi, hs⟩
    have hset : (b ≠ 0 ∧ ∃ s, slotAddr d.block (ino i) s = b) ↔ b ∈ blocksOf d.block (ino i) :=
      mem_blocksOf.symm
    simp only [Set.mem_sdiff, Set.mem_union, Set.mem_ofPred_eq, hset]
    tauto

end Xv6.Inode
