import Xv6.Inode.Node
import Xv6.Source.Mkfs

/-!
# The image that mkfs builds

`mkfs` gives out blocks from a counter and writes the bitmap at the end. Seen with the
bitmap that it would write now, its image is a consistent disk at every step, and
`iappend` puts its bytes behind those of the inode.
-/
namespace Xv6.Inode

open Xv6.Source Xv6.Source.Fs Xv6.Source.Mkfs

theorem geometry_mkfs : Geometry Mkfs.sb := ⟨by decide, by decide⟩

theorem datastart_mkfs : datastart Mkfs.sb = nmeta := by decide

/-- The first `used` bits of the bitmap are set. -/
theorem bit_bitmap (used : Nat) {j : Nat} (hj : j < BPB) : (bitmap used).bit j = decide (j < used) := by
  induction used with
  | zero =>
    rw [bitmap, Block.bit]
    simp
  | succ used ih =>
    rw [bitmap, List.range_succ, List.foldl_append, List.foldl_cons, List.foldl_nil,
      Block.bit_setBit _ hj]
    refine (congrArg _ ih).trans ?_
    rw [← Bool.decide_or]
    exact decide_eq_decide.mpr (by omega)

theorem bitmap_succ (used : Nat) : bitmap (used + 1) = (bitmap used).setBit used := by
  rw [bitmap, List.range_succ, List.foldl_append]
  rfl

/-- The image, with the bitmap that `balloc` would write now. -/
def blocks (img : Image) : Nat → Block :=
  Function.update img.sect Mkfs.sb.bmapstart (bitmap img.freeblock)

def disk (img : Image) : Disk := ⟨blocks img, []⟩

@[simp] theorem disk_block (img : Image) : (disk img).block = blocks img := rfl

theorem BBLOCK_mkfs {b : Nat} (hb : b < FSSIZE) : BBLOCK b Mkfs.sb = Mkfs.sb.bmapstart := by
  have hF : FSSIZE < BPB := by decide
  rw [BBLOCK, Nat.div_eq_of_lt (Nat.lt_trans hb hF), Nat.zero_add]

theorem marked_blocks (img : Image) {b : Nat} (hb : b < FSSIZE) :
    marked Mkfs.sb (blocks img) b = decide (b < img.freeblock) := by
  have hF : b < BPB := Nat.lt_trans hb (by decide)
  rw [marked, BBLOCK_mkfs hb, blocks, Function.update_self, Nat.mod_eq_of_lt hF, bit_bitmap _ hF]

/-- Nothing is written behind the counter yet, nor in the boot block. -/
structure Spare (img : Image) : Prop where
  low : nmeta ≤ img.freeblock
  zero : ∀ b, img.freeblock ≤ b → img.sect b = .zero
  boot : img.sect 0 = .zero

theorem Spare.isData {img : Image} (h : Spare img) (hlt : img.freeblock < FSSIZE) :
    IsData Mkfs.sb img.freeblock := ⟨datastart_mkfs ▸ h.low, hlt⟩

theorem Spare.free {img : Image} (hlt : img.freeblock < FSSIZE) :
    marked Mkfs.sb (blocks img) img.freeblock = false := by
  rw [marked_blocks img hlt, decide_eq_false (Nat.lt_irrefl _)]

/-- The counter moves on. -/
def next (img : Image) : Image := { img with freeblock := img.freeblock + 1 }

/-- The next block is taken. -/
theorem blocks_next {img : Image} (h : Spare img) (hlt : img.freeblock < FSSIZE) :
    blocks (next img) = taken Mkfs.sb (blocks img) img.freeblock := by
  have hne : img.freeblock ≠ Mkfs.sb.bmapstart := by
    have := h.low
    have : Mkfs.sb.bmapstart < nmeta := by decide
    omega
  have hF : img.freeblock < BPB := Nat.lt_trans hlt (by decide)
  funext b
  unfold taken blocks next
  dsimp only
  rw [BBLOCK_mkfs hlt, Nat.mod_eq_of_lt hF, Function.update_self, Function.update_idem, ← bitmap_succ]
  by_cases hb : b = img.freeblock
  · rw [hb, Function.update_of_ne hne, Function.update_self, h.zero _ (Nat.le_refl _)]
  · rw [Function.update_of_ne hb]

theorem Spare.next {img : Image} (h : Spare img) : Spare (next img) :=
  ⟨Nat.le_succ_of_le h.low, fun b hb => h.zero b (Nat.le_of_succ_le hb), h.boot⟩

theorem Spare.wsect {img : Image} {sec : Nat} {buf : Block} (h : Spare img) (hsec : sec < img.freeblock)
    (hne : sec ≠ 0) : Spare (wsect img sec buf) :=
  ⟨h.low, fun b hb => (Function.update_of_ne (Nat.ne_of_gt (Nat.lt_of_lt_of_le hsec hb)) _ _).trans
    (h.zero b hb), (Function.update_of_ne hne.symm _ _).trans h.boot⟩

theorem Spare.blocks_boot {img : Image} (h : Spare img) : blocks img 0 = .zero :=
  (Function.update_of_ne (by decide) _ _).trans h.boot

theorem blocks_wsect (img : Image) {sec : Nat} {buf : Block} (hsec : sec ≠ Mkfs.sb.bmapstart) :
    blocks (wsect img sec buf) = Function.update (blocks img) sec buf := by
  unfold blocks wsect
  exact Function.update_comm hsec _ _ _

theorem rsect_ok (img : Image) {sec : Nat} (h : sec < FSSIZE) : rsect img sec = .ok (img.sect sec) :=
  if_pos h

theorem blocks_eq {img : Image} {b : Nat} (hb : IsData Mkfs.sb b) : blocks img b = img.sect b :=
  Function.update_of_ne (Nat.ne_of_gt hb.bmapstart_lt) _ _

section sector
variable {img : Image} {ino : Nat → Dinode} {i fbn : Nat}

/-- How many blocks `sector` takes for block `fbn`. -/
def needed (blk : Nat → Block) (din : Dinode) (fbn : Nat) : Nat :=
  if blockOf blk din fbn ≠ 0 then 0
  else if NDIRECT ≤ fbn ∧ din.addr NDIRECT = 0 then 2 else 1

/-- What a round of `sector` leaves behind. -/
structure Placed (img : Image) (ino : Nat → Dinode) (i fbn x : Nat) (img' : Image) (din' : Dinode) :
    Prop where
  grown : Grown Mkfs.sb ino ∅ i (blocks img) (blocks img') din'
  spare : Spare img'
  counter : img'.freeblock = img.freeblock + needed (blocks img) (ino i) fbn
  inodes : img'.freeinode = img.freeinode
  block : blockOf (blocks img') din' fbn = x
  ne_zero : x ≠ 0
  fresh : blockOf (blocks img) (ino i) fbn = 0 → blocks img' x = .zero
  slots : ∀ s, slotAddr (blocks img') din' s ≠ 0 ↔
    slotAddr (blocks img) (ino i) s ≠ 0 ∨ s = fileSlot fbn ∨ s = .indirect ∧ NDIRECT ≤ fbn

/-- `sector` on a block that the file has. -/
theorem sector_found (h : Owns Mkfs.sb (blocks img) ino ∅) (hi : Live Mkfs.sb ino i)
    (hs : Spare img) (hfbn : fbn < MAXFILE) (hne : blockOf (blocks img) (ino i) fbn ≠ 0) :
    ∃ x, sector img (ino i) fbn = .ok (x, img, ino i) ∧ Placed img ino i fbn x img (ino i) := by
  have hindirect : NDIRECT ≤ fbn → (ino i).addr NDIRECT ≠ 0 := by
    intro hge h0
    have hlt : fbn - NDIRECT < NINDIRECT := by
      have : MAXFILE = NDIRECT + NINDIRECT := rfl
      omega
    rw [blockOf, fileSlot_entry (Nat.not_lt.mpr hge) hlt, slotAddr, if_pos h0] at hne
    exact hne rfl
  refine ⟨blockOf (blocks img) (ino i) fbn, ?_, .refl h, hs, by rw [needed, if_pos hne]; rfl, rfl, rfl,
    hne, fun h0 => absurd h0 hne, fun s => ?_⟩
  · by_cases hdir : fbn < NDIRECT
    · rw [blockOf, fileSlot_direct hdir, slotAddr] at hne ⊢
      rw [sector, if_pos hdir, if_neg hne]
    · have hlt : fbn - NDIRECT < NINDIRECT := by
        have : MAXFILE = NDIRECT + NINDIRECT := rfl
        omega
      have hind := hindirect (Nat.not_lt.mp hdir)
      have hdata : IsData Mkfs.sb ((ino i).addr NDIRECT) := h.inData i .indirect hi hind
      rw [blockOf, fileSlot_entry hdir hlt, slotAddr, if_neg hind] at hne ⊢
      rw [blocks_eq hdata] at hne ⊢
      rw [sector, if_neg hdir]
      simp only [if_neg hind, rsect_ok img hdata.2, bind, Except.bind, if_neg hne]
      rfl
  · constructor
    · exact .inl
    · rintro (hs | rfl | ⟨rfl, hge⟩)
      · exact hs
      · exact hne
      · exact hindirect hge

/-- `sector` takes a block for a direct slot. -/
theorem sector_direct (h : Owns Mkfs.sb (blocks img) ino ∅) (hi : Live Mkfs.sb ino i)
    (hs : Spare img) (hdir : fbn < NDIRECT) (hne : blockOf (blocks img) (ino i) fbn = 0)
    (hfit : img.freeblock < FSSIZE) :
    Placed img ino i fbn img.freeblock (next img)
      ((ino i).setAddr fbn img.freeblock) := by
  have hb := hs.isData hfit
  have hfree := Spare.free hfit
  have hfill : Fills (taken Mkfs.sb (blocks img) img.freeblock) (ino i)
      (taken Mkfs.sb (blocks img) img.freeblock) ((ino i).setAddr fbn img.freeblock)
      (.direct ⟨fbn, hdir⟩) img.freeblock := fills_direct ⟨fbn, hdir⟩ (lt_of_isData geometry_mkfs hb)
  rw [blockOf, fileSlot_direct hdir] at hne
  refine ⟨?_, hs.next, ?_, rfl, ?_, hb.ne_zero, fun _ => ?_, fun s => ?_⟩
  · rw [blocks_next hs hfit]
    exact .direct geometry_mkfs h hi hb hfree ⟨fbn, hdir⟩ hne
  · rw [needed, blockOf, fileSlot_direct hdir, if_neg (not_not_intro hne), if_neg (by omega)]
    rfl
  · rw [blocks_next hs hfit, blockOf, fileSlot_direct hdir, hfill, if_pos rfl]
  · rw [blocks_next hs hfit, taken, Function.update_self]
  · rw [blocks_next hs hfit, hfill, fileSlot_direct hdir, slotAddr_taken h hb hfree hi]
    have hge : ¬ NDIRECT ≤ fbn := Nat.not_le.mpr hdir
    by_cases hst : s = .direct ⟨fbn, hdir⟩
    · simp [hst, hb.ne_zero]
    · simp [hst, hge]

/-- `sector` takes a block and enters it in the indirect block. -/
theorem sector_entry (h : Owns Mkfs.sb (blocks img) ino ∅) (hi : Live Mkfs.sb ino i)
    (hs : Spare img) (hdir : ¬ fbn < NDIRECT) (hlt : fbn - NDIRECT < NINDIRECT)
    (hind : (ino i).addr NDIRECT ≠ 0) (hne : blockOf (blocks img) (ino i) fbn = 0)
    (hfit : img.freeblock < FSSIZE) :
    Placed img ino i fbn img.freeblock (wsect (next img)
      ((ino i).addr NDIRECT) ((img.sect ((ino i).addr NDIRECT)).setInt (fbn - NDIRECT)
        (UInt32.ofNat img.freeblock))) (ino i) := by
  have hb := hs.isData hfit
  have hfree := Spare.free hfit
  have hdata : IsData Mkfs.sb ((ino i).addr NDIRECT) := h.inData i .indirect hi hind
  have hslot : fileSlot fbn = .entry ⟨fbn - NDIRECT, hlt⟩ := fileSlot_entry hdir hlt
  -- the indirect block lies below the counter and is not touched by it
  have hbelow : (ino i).addr NDIRECT < img.freeblock := by
    have hm := h.marked_slot hi (s := .indirect) hind
    have hm' := marked_blocks img hdata.2
    rw [show slotAddr (blocks img) (ino i) .indirect = (ino i).addr NDIRECT from rfl, hm'] at hm
    exact of_decide_eq_true hm
  have hread : img.sect ((ino i).addr NDIRECT) =
      taken Mkfs.sb (blocks img) img.freeblock ((ino i).addr NDIRECT) := by
    rw [taken, Function.update_of_ne (Nat.ne_of_lt hbelow),
      Function.update_of_ne (hdata.ne_BBLOCK hb.2), blocks_eq hdata]
  rw [hread]
  have hblocks : blocks (wsect (next img) ((ino i).addr NDIRECT)
      ((taken Mkfs.sb (blocks img) img.freeblock ((ino i).addr NDIRECT)).setInt (fbn - NDIRECT)
        (UInt32.ofNat img.freeblock))) = _ := blocks_wsect _ (Nat.ne_of_gt hdata.bmapstart_lt)
  rw [blocks_next hs hfit] at hblocks
  have hfill : Fills (taken Mkfs.sb (blocks img) img.freeblock) (ino i) _ (ino i)
      (.entry ⟨fbn - NDIRECT, hlt⟩) img.freeblock :=
    fills_entry _ (lt_of_isData geometry_mkfs hb) hind
  have hempty : slotAddr (blocks img) (ino i) (.entry ⟨fbn - NDIRECT, hlt⟩) = 0 := by
    rw [← hslot]
    exact hne
  refine ⟨?_, hs.next.wsect (Nat.lt_succ_of_lt hbelow) hind, ?_, rfl, ?_, hb.ne_zero, fun _ => ?_, fun s => ?_⟩
  · rw [hblocks]
    refine .entry geometry_mkfs h hi hb hfree ⟨fbn - NDIRECT, hlt⟩ hind ?_
    rwa [slotAddr, if_neg hind] at hempty
  · rw [needed, if_neg (not_not_intro hne), if_neg (by tauto)]
    rfl
  · rw [hblocks, blockOf, hslot, hfill, if_pos rfl]
  · rw [hblocks, Function.update_of_ne (Nat.ne_of_gt hbelow), taken, Function.update_self]
  · rw [hblocks, hfill, hslot, slotAddr_taken h hb hfree hi]
    by_cases hst : s = .entry ⟨fbn - NDIRECT, hlt⟩
    · simp [hst, hb.ne_zero]
    · rw [if_neg hst]
      constructor
      · exact .inl
      · rintro (h1 | h1 | ⟨rfl, -⟩)
        · exact h1
        · exact absurd h1 hst
        · exact hind

/-- `sector` behind the direct blocks, once the indirect block is there. -/
theorem sector_behind (hdir : ¬ fbn < NDIRECT) {din : Dinode} (hind : din.addr NDIRECT ≠ 0) :
    sector img din fbn = do
      let indirect ← rsect img (din.addr NDIRECT)
      let x := (indirect.getInt (fbn - NDIRECT)).toNat
      if x = 0 then
        return (img.freeblock, wsect (next img) (din.addr NDIRECT)
          (indirect.setInt (fbn - NDIRECT) (UInt32.ofNat img.freeblock)), din)
      else return (x, img, din) := by
  rw [sector, if_neg hdir]
  simp only [if_neg hind, next]

theorem sector_entry_eq (h : Owns Mkfs.sb (blocks img) ino ∅) (hi : Live Mkfs.sb ino i)
    (hdir : ¬ fbn < NDIRECT) (hlt : fbn - NDIRECT < NINDIRECT)
    (hind : (ino i).addr NDIRECT ≠ 0) (hne : blockOf (blocks img) (ino i) fbn = 0) :
    sector img (ino i) fbn = .ok (img.freeblock, wsect (next img)
      ((ino i).addr NDIRECT) ((img.sect ((ino i).addr NDIRECT)).setInt (fbn - NDIRECT)
        (UInt32.ofNat img.freeblock)), ino i) := by
  have hdata : IsData Mkfs.sb ((ino i).addr NDIRECT) := h.inData i .indirect hi hind
  rw [blockOf, fileSlot_entry hdir hlt, slotAddr, if_neg hind, blocks_eq hdata] at hne
  rw [sector_behind hdir hind, rsect_ok img hdata.2]
  simp only [bind, Except.bind, if_pos hne]
  rfl

/-- Where the indirect block is missing, `sector` takes a block for it and goes on. -/
theorem sector_indirect_eq (hs : Spare img) (hdir : ¬ fbn < NDIRECT) {din : Dinode}
    (hind : din.addr NDIRECT = 0) (hlt : img.freeblock < 2 ^ 32) :
    (din.setAddr NDIRECT img.freeblock).addr NDIRECT = img.freeblock ∧
    sector img din fbn = sector (next img) (din.setAddr NDIRECT img.freeblock) fbn := by
  have haddr : (din.setAddr NDIRECT img.freeblock).addr NDIRECT = img.freeblock := by
    rw [Dinode.addr_setAddr _ hlt (by decide), if_pos rfl]
  have hne : img.freeblock ≠ 0 := by
    have := hs.low
    have : 0 < nmeta := by decide
    omega
  have hbehind : sector (next img) (din.setAddr NDIRECT img.freeblock) fbn = _ :=
    sector_behind hdir (haddr.trans_ne hne)
  refine ⟨haddr, hbehind ▸ ?_⟩
  rw [sector, if_neg hdir]
  simp only [if_pos hind]
  rfl

/-- `sector` takes two blocks: the indirect block, and one that it enters there. -/
theorem sector_indirect (h : Owns Mkfs.sb (blocks img) ino ∅) (hi : Live Mkfs.sb ino i)
    (hs : Spare img) (hdir : ¬ fbn < NDIRECT) (hlt : fbn - NDIRECT < NINDIRECT)
    (hind : (ino i).addr NDIRECT = 0) (hfit : img.freeblock + 1 < FSSIZE) :
    ∃ img' din', sector img (ino i) fbn = .ok (img.freeblock + 1, img', din') ∧
      Placed img ino i fbn (img.freeblock + 1) img' din' := by
  have hfit1 : img.freeblock < FSSIZE := Nat.lt_of_succ_lt hfit
  have hb := hs.isData hfit1
  have hb32 := lt_of_isData geometry_mkfs hb
  have hfree := Spare.free hfit1
  obtain ⟨haddr, hnext⟩ := sector_indirect_eq hs hdir hind hb32
  have hgrown : Grown Mkfs.sb ino ∅ i (blocks img) (blocks (next img))
      ((ino i).setAddr NDIRECT img.freeblock) := by
    rw [blocks_next hs hfit1]
    exact .indirect geometry_mkfs h hi hb hfree hind
  have hfill : Fills (taken Mkfs.sb (blocks img) img.freeblock) (ino i) _
      ((ino i).setAddr NDIRECT img.freeblock) .indirect img.freeblock :=
    fills_indirect hb32 (Function.update_self _ _ _) hind
  have hslots : ∀ s, slotAddr (blocks (next img)) ((ino i).setAddr NDIRECT img.freeblock) s =
      if s = .indirect then img.freeblock else slotAddr (blocks img) (ino i) s := by
    intro s
    rw [blocks_next hs hfit1, hfill s, slotAddr_taken h hb hfree hi]
  generalize (ino i).setAddr NDIRECT img.freeblock = din1 at *
  have hne1 : blockOf (blocks img) (ino i) fbn = 0 := by
    rw [blockOf, fileSlot_entry hdir hlt, slotAddr, if_pos hind]
  have hne2 : blockOf (blocks (next img)) din1 fbn = 0 := by
    rw [blockOf, hslots, if_neg (fileSlot_ne_indirect _)]
    exact hne1
  have hind1 : din1.addr NDIRECT ≠ 0 := by
    rw [haddr]
    exact hb.ne_zero
  have hi1 : Live Mkfs.sb (Function.update ino i din1) i := (Owns.live_update hgrown.type_eq).mpr hi
  have heq := sector_entry_eq hgrown.owns hi1 hdir hlt
    (by rw [Function.update_self]; exact hind1) (by rw [Function.update_self]; exact hne2)
  have hplaced := sector_entry hgrown.owns hi1 hs.next hdir hlt
    (by rw [Function.update_self]; exact hind1) (by rw [Function.update_self]; exact hne2) hfit
  rw [Function.update_self] at heq hplaced
  refine ⟨_, din1, hnext.trans heq, ⟨hgrown.trans hplaced.grown, hplaced.spare, ?_, hplaced.inodes,
    hplaced.block, hplaced.ne_zero, fun _ => hplaced.fresh (by rw [Function.update_self]; exact hne2),
    fun s => ?_⟩⟩
  · rw [hplaced.counter, Function.update_self, needed, if_neg (not_not_intro hne2),
      if_neg fun h => hind1 h.2, needed, if_neg (not_not_intro hne1),
      if_pos ⟨Nat.not_lt.mp hdir, hind⟩]
    rfl
  · rw [hplaced.slots, Function.update_self, hslots]
    by_cases hst : s = .indirect
    · simp [hst, hb.ne_zero, Nat.not_lt.mp hdir]
    · simp [hst]

/-- `sector` takes the blocks that it needs. -/
theorem sector_spec (h : Owns Mkfs.sb (blocks img) ino ∅) (hi : Live Mkfs.sb ino i)
    (hs : Spare img) (hfbn : fbn < MAXFILE)
    (hfit : img.freeblock + needed (blocks img) (ino i) fbn ≤ FSSIZE) :
    ∃ x img' din', sector img (ino i) fbn = .ok (x, img', din') ∧ Placed img ino i fbn x img' din' := by
  by_cases hne : blockOf (blocks img) (ino i) fbn = 0
  · rw [needed, if_neg (not_not_intro hne)] at hfit
    by_cases hdir : fbn < NDIRECT
    · rw [if_neg (by omega)] at hfit
      refine ⟨_, _, _, ?_, sector_direct h hi hs hdir hne hfit⟩
      rw [blockOf, fileSlot_direct hdir, slotAddr] at hne
      rw [sector, if_pos hdir, if_pos hne]
      rfl
    · have hlt : fbn - NDIRECT < NINDIRECT := by
        have : MAXFILE = NDIRECT + NINDIRECT := rfl
        omega
      by_cases hind : (ino i).addr NDIRECT = 0
      · rw [if_pos ⟨Nat.not_lt.mp hdir, hind⟩] at hfit
        obtain ⟨img', din', hsec, hplaced⟩ := sector_indirect h hi hs hdir hlt hind hfit
        exact ⟨_, img', din', hsec, hplaced⟩
      · rw [if_neg (by tauto)] at hfit
        exact ⟨_, _, _, sector_entry_eq h hi hdir hlt hind hne,
          sector_entry h hi hs hdir hlt hind hne hfit⟩
  · obtain ⟨x, hsec, hplaced⟩ := sector_found h hi hs hfbn hne
    exact ⟨x, img, ino i, hsec, hplaced⟩

/-- Where the image has too few blocks left, `sector` stops or hands out a block behind it. -/
theorem sector_full (h : Owns Mkfs.sb (blocks img) ino ∅) (hi : Live Mkfs.sb ino i)
    (hs : Spare img) (hfbn : fbn < MAXFILE)
    (hfull : FSSIZE < img.freeblock + needed (blocks img) (ino i) fbn) {x : Nat} {img' : Image}
    {din' : Dinode} (hsec : sector img (ino i) fbn = .ok (x, img', din')) (hle : img.freeblock ≤ FSSIZE) :
    FSSIZE ≤ x := by
  by_cases hne : blockOf (blocks img) (ino i) fbn = 0
  · rw [needed, if_neg (not_not_intro hne)] at hfull
    by_cases hdir : fbn < NDIRECT
    · rw [if_neg (by omega)] at hfull
      rw [blockOf, fileSlot_direct hdir, slotAddr] at hne
      rw [sector, if_pos hdir, if_pos hne] at hsec
      cases hsec
      omega
    · have hlt : fbn - NDIRECT < NINDIRECT := by
        have : MAXFILE = NDIRECT + NINDIRECT := rfl
        omega
      by_cases hind : (ino i).addr NDIRECT = 0
      · rw [if_pos ⟨Nat.not_lt.mp hdir, hind⟩] at hfull
        -- the indirect block lies behind the image, or is its last block
        have hF : FSSIZE < 2 ^ 32 := by decide
        obtain ⟨haddr, hnext⟩ := sector_indirect_eq hs hdir hind (show img.freeblock < 2 ^ 32 by omega)
        have hpos : img.freeblock ≠ 0 := by
          have := hs.low
          have : 0 < nmeta := by decide
          omega
        rw [hnext, sector_behind hdir (by rw [haddr]; exact hpos), haddr] at hsec
        by_cases hlast : img.freeblock < FSSIZE
        · rw [rsect_ok _ hlast] at hsec
          have hzero : (next img).sect img.freeblock = .zero := hs.zero _ (Nat.le_refl _)
          simp only [bind, Except.bind, hzero, getInt_zero, UInt32.toNat_zero, if_true] at hsec
          cases hsec
          exact Nat.le_of_lt_succ (by unfold next; omega)
        · rw [rsect, if_neg hlast] at hsec
          cases hsec
      · rw [if_neg (by tauto)] at hfull
        rw [sector_entry_eq h hi hdir hlt hind hne] at hsec
        cases hsec
        omega
  · rw [needed, if_pos hne] at hfull
    omega

end sector

/-- `sector` changes no byte of the file: what it adds is zero, as the boot block is, which is
read for a block that is not there. -/
theorem Placed.byteAt_eq {img img' : Image} {ino : Nat → Dinode} {i fbn x k : Nat} {din' : Dinode}
    (h : Owns Mkfs.sb (blocks img) ino ∅) (hi : Live Mkfs.sb ino i) (hs : Spare img)
    (hfbn : fbn < MAXFILE) (hp : Placed img ino i fbn x img' din') (hk : k / BSIZE < MAXFILE) :
    byteAt (blocks img') din' k = byteAt (blocks img) (ino i) k := by
  by_cases hold : blockOf (blocks img) (ino i) (k / BSIZE) = 0
  · have hboot := hs.blocks_boot
    rw [byteAt, byteAt, hold, hboot, Block.get_zero]
    by_cases hsame : k / BSIZE = fbn
    · rw [hsame, hp.block, hp.fresh (hsame ▸ hold), Block.get_zero]
    · have hnew : blockOf (blocks img') din' (k / BSIZE) = 0 := by
        by_contra hne
        rcases (hp.slots _).mp hne with h1 | h1 | ⟨h1, -⟩
        · exact h1 hold
        · exact hsame (fileSlot_inj hk hfbn h1)
        · exact fileSlot_ne_indirect _ h1
      rw [hnew, hp.grown.keeps.low 0 (by decide), hboot, Block.get_zero]
  · exact hp.grown.byteAt_eq h hi hold

/-- How many blocks a file of `e` bytes takes, its indirect block included. -/
def blocksFor (e : Nat) : Nat := (e + BSIZE - 1) / BSIZE + if NDIRECT * BSIZE < e then 1 else 0

theorem blocksFor_mono {e e' : Nat} (h : e ≤ e') : blocksFor e ≤ blocksFor e' := by
  unfold blocksFor
  have hdiv : (e + BSIZE - 1) / BSIZE ≤ (e' + BSIZE - 1) / BSIZE := Nat.div_le_div_right (by omega)
  split
  · rw [if_pos (by omega)]
    omega
  · omega

/-- The blocks of the file are those for its first `e` bytes. -/
structure Extent (blk : Nat → Block) (din : Dinode) (e : Nat) : Prop where
  block : ∀ bn < MAXFILE, blockOf blk din bn ≠ 0 ↔ bn * BSIZE < e
  indirect : din.addr NDIRECT ≠ 0 ↔ NDIRECT * BSIZE < e

theorem Extent.congr {blk blk' : Nat → Block} {din : Dinode} {e : Nat} (h : Extent blk din e)
    (hslots : ∀ s, slotAddr blk' din s = slotAddr blk din s) : Extent blk' din e :=
  ⟨fun bn hbn => by rw [blockOf, hslots]; exact h.block bn hbn, h.indirect⟩

/-- What a round takes is what the longer file takes. -/
theorem Extent.needed_eq {blk : Nat → Block} {din : Dinode} {off n : Nat} (h : Extent blk din off)
    (hmax : off / BSIZE < MAXFILE) (hpos : 0 < n) (hn : n ≤ BSIZE - off % BSIZE) :
    needed blk din (off / BSIZE) + blocksFor off = blocksFor (off + n) := by
  have hblock := h.block _ hmax
  have hind := h.indirect
  unfold needed blocksFor
  unfold NDIRECT BSIZE at *
  split
  · next hne =>
    rw [hblock] at hne
    have hdiv : (off + 1024 - 1) / 1024 = (off + n + 1024 - 1) / 1024 := by omega
    have hsw : 12 * 1024 < off ↔ 12 * 1024 < off + n := by omega
    rw [hdiv, if_congr hsw rfl rfl]
    omega
  · next hne =>
    rw [hblock] at hne
    have hdiv : (off + 1024 - 1) / 1024 + 1 = (off + n + 1024 - 1) / 1024 := by omega
    split
    · next hcond =>
      have hlow : ¬ 12 * 1024 < off := fun hgt => hind.mpr hgt hcond.2
      rw [if_neg hlow, if_pos (by omega)]
      omega
    · next hcond =>
      have hsw : 12 * 1024 < off ↔ 12 * 1024 < off + n := by
        constructor
        · omega
        · intro hgt
          by_contra hlow
          have h0 : din.addr 12 = 0 := by
            by_contra hne0
            exact hlow (hind.mp hne0)
          exact hcond ⟨by omega, h0⟩
      rw [if_congr hsw rfl rfl]
      omega

/-- The blocks after a round. -/
theorem Extent.placed {img img' : Image} {ino : Nat → Dinode} {i off n x : Nat} {din' : Dinode}
    (h : Extent (blocks img) (ino i) off) (hp : Placed img ino i (off / BSIZE) x img' din')
    (hmax : off / BSIZE < MAXFILE) (hpos : 0 < n) (hn : n ≤ BSIZE - off % BSIZE) :
    Extent (blocks img') din' (off + n) := by
  refine ⟨fun bn hbn => ?_, ?_⟩
  · rw [blockOf, hp.slots]
    have hold := h.block bn hbn
    rw [blockOf] at hold
    have hsame : fileSlot bn = fileSlot (off / BSIZE) ↔ bn = off / BSIZE :=
      ⟨fileSlot_inj hbn hmax, fun e => by rw [e]⟩
    rw [hold, hsame]
    simp only [fileSlot_ne_indirect, false_and, or_false]
    unfold BSIZE at *
    omega
  · have hslot := hp.slots .indirect
    rw [slotAddr, slotAddr, h.indirect] at hslot
    rw [hslot]
    simp only [(fileSlot_ne_indirect _).symm, true_and, false_or]
    unfold NDIRECT BSIZE at *
    omega

/-- When the bytes up to `e` fit, from a file of `off` bytes in this image. -/
def Fits (img : Image) (off e : Nat) : Prop :=
  e ≤ MAXFILE * BSIZE ∧ img.freeblock + blocksFor e ≤ FSSIZE + blocksFor off

section append
variable {ino : Nat → Dinode} {i off tot rounds : Nat} {src : List UInt8} {blk : Nat → Block}
  {img : Image} {din : Dinode}

/-- What holds of the image when the loop of `iappend` has stored `tot` bytes of `src`. -/
structure Appended (ino : Nat → Dinode) (i off : Nat) (src : List UInt8) (blk : Nat → Block)
    (img : Image) (din : Dinode) (tot : Nat) : Prop where
  written : Written Mkfs.sb ino ∅ i off src blk (blocks img) din tot tot
  spare : Spare img
  extent : Extent (blocks img) din (off + tot)
  fits : img.freeblock ≤ FSSIZE
  tot_le : tot ≤ src.length
  end_le : off + tot ≤ MAXFILE * BSIZE
  tail : ∀ k, off + tot ≤ k → k / BSIZE < MAXFILE → byteAt (blocks img) din k = 0

/-- One round of the loop: up to the end of the block, or of the bytes. -/
theorem appendLoop_succ {p : List UInt8} (hne : p ≠ []) (hbn : off / BSIZE < MAXFILE) {n : Nat}
    (hn : min p.length (BSIZE - off % BSIZE) = n) :
    appendLoop (rounds + 1) off p img din = (do
      let (x, img, din) ← sector img din (off / BSIZE)
      let buf ← rsect img x
      appendLoop rounds (off + n) (p.drop n) (wsect img x (buf.patch (off % BSIZE) (p.take n))) din) := by
  have hdiv := Nat.div_add_mod off BSIZE
  have hlt : off % BSIZE < BSIZE := Nat.mod_lt _ (by decide)
  rw [Nat.mul_comm] at hdiv
  have hn' : min p.length ((off / BSIZE + 1) * BSIZE - off) = n := by
    rw [← hn, Nat.add_mul, Nat.one_mul]
    congr 1
    omega
  have hmod : off - off / BSIZE * BSIZE = off % BSIZE := by omega
  rw [appendLoop, if_neg hne, if_pos hbn]
  simp only [hn', hmod]

/-- A round of the loop that finds the blocks it needs. -/
theorem Appended.round (hi : Live Mkfs.sb ino i) (h : Appended ino i off src blk img din tot)
    (hbn : (off + tot) / BSIZE < MAXFILE) (hlt : tot < src.length) {n : Nat}
    (hn : n = min (src.length - tot) (BSIZE - (off + tot) % BSIZE))
    (hfit : img.freeblock + needed (blocks img) din ((off + tot) / BSIZE) ≤ FSSIZE) :
    ∃ x img' din', sector img din ((off + tot) / BSIZE) = .ok (x, img', din') ∧ x < FSSIZE ∧
      Appended ino i off src blk (wsect img' x ((img'.sect x).patch ((off + tot) % BSIZE)
        ((src.drop tot).take n))) din' (tot + n) ∧
      img'.freeblock = img.freeblock + needed (blocks img) din ((off + tot) / BSIZE) ∧
      img'.freeinode = img.freeinode := by
  have hpos : 0 < BSIZE - (off + tot) % BSIZE := Nat.sub_pos_of_lt (Nat.mod_lt _ (by decide))
  have hi' := h.written.live hi
  obtain ⟨x, img', din', hsec, hp⟩ := sector_spec h.written.owns hi' h.spare hbn
    (by rw [Function.update_self]; exact hfit)
  have hcounter := hp.counter
  rw [Function.update_self] at hsec hcounter
  have hgrown := h.written.grow hi hp.grown
  have hext : Extent (blocks img') din' (off + tot + n) :=
    Extent.placed (by rw [Function.update_self]; exact h.extent) hp hbn (by omega) (by omega)
  obtain rfl := hp.block
  generalize haddr : blockOf (blocks img') din' ((off + tot) / BSIZE) = x at *
  have hslot : slotAddr (blocks img') (Function.update ino i din' i) (fileSlot ((off + tot) / BSIZE)) = x := by
    rw [Function.update_self]
    exact haddr
  have hlive := hgrown.live hi
  have hne := hp.ne_zero
  have hdata : IsData Mkfs.sb x := hslot ▸ hgrown.owns.inData i _ hlive (hslot ▸ hne)
  have hbelow : x < img'.freeblock := by
    have hm := hgrown.owns.marked_slot hlive (hslot ▸ hne)
    rw [hslot, marked_blocks img' hdata.2] at hm
    exact of_decide_eq_true hm
  have hlen : ((src.drop tot).take n).length = n := by
    rw [List.length_take, List.length_drop]
    omega
  have hget : ∀ j < ((src.drop tot).take n).length,
      ((src.drop tot).take n).getD j 0 = src.getD (tot + j) 0 := by
    intro j hj
    rw [hlen] at hj
    simp [List.getD_eq_getElem?_getD, hj]
  have hind := hgrown.owns.indirect_ne hlive (fileSlot_ne_indirect _) (hslot ▸ hne) hlive
  rw [hslot, Function.update_self] at hind
  have hslots : ∀ s, slotAddr (blocks (wsect img' x ((img'.sect x).patch ((off + tot) % BSIZE)
      ((src.drop tot).take n)))) din' s = slotAddr (blocks img') din' s := by
    refine slotAddr_congr fun _ => ?_
    rw [blocks_wsect _ (Nat.ne_of_gt hdata.bmapstart_lt), Function.update_of_ne hind]
  refine ⟨x, img', din', hsec, hdata.2, ⟨?_, hp.spare.wsect hbelow hne, ?_, ?_, by omega, ?_, ?_⟩,
    hcounter, hp.inodes⟩
  · rw [blocks_wsect _ (Nat.ne_of_gt hdata.bmapstart_lt)]
    have hstore := hgrown.store hi hbn (haddr.trans_ne hne) (hlen.le.trans (by omega)) hget (Nat.le_refl _)
    rwa [haddr, hlen, blocks_eq hdata] at hstore
  · rw [← Nat.add_assoc]
    exact hext.congr hslots
  · exact hcounter.trans_le hfit
  · unfold MAXFILE NINDIRECT NDIRECT BSIZE at *
    omega
  · intro k hk hkmax
    have hold : byteAt (blocks img') din' k = 0 := by
      rw [hp.byteAt_eq h.written.owns hi' h.spare hbn hkmax, Function.update_self]
      exact h.tail k (by omega) hkmax
    rw [byteAt] at hold
    rw [byteAt, blockOf, hslots, ← blockOf, blocks_wsect _ (Nat.ne_of_gt hdata.bmapstart_lt)]
    by_cases hsame : blockOf (blocks img') din' (k / BSIZE) = x
    · -- the bytes of the chunk come before `k` in the block
      have hbneq : k / BSIZE = (off + tot) / BSIZE := by
        have honce := hgrown.owns.once i i (fileSlot (k / BSIZE)) (fileSlot ((off + tot) / BSIZE)) hlive hlive
        rw [Function.update_self] at honce
        exact fileSlot_inj hkmax hbn (honce (hsame.trans_ne hne) (hsame.trans haddr.symm)).2
      rw [hsame, blocks_eq hdata] at hold
      rw [hsame, Function.update_self, Block.get_patch _ _ _ (Nat.mod_lt _ (by decide)), hlen, if_neg]
      · exact hold
      · have h1 := Nat.div_add_mod k BSIZE
        have h2 := Nat.div_add_mod (off + tot) BSIZE
        rw [hbneq] at h1
        omega
    · rw [Function.update_of_ne hsame]
      exact hold

theorem appendLoop_done (off rounds : Nat) (src : List UInt8) (img : Image) (din : Dinode) :
    appendLoop rounds (off + src.length) (src.drop src.length) img din =
      .ok (off + src.length, img, din) := by
  cases rounds with
  | zero => rfl
  | succ n => rw [appendLoop, if_pos (by simp)]

/-- The loop of `iappend` stores all bytes if they fit, and stops the program if not. -/
theorem appendLoop_spec (hi : Live Mkfs.sb ino i) (h : Appended ino i off src blk img din tot)
    (hrounds : src.length - tot ≤ rounds) :
    (Fits img (off + tot) (off + src.length) → ∃ img' din',
      appendLoop rounds (off + tot) (src.drop tot) img din = .ok (off + src.length, img', din') ∧
      Appended ino i off src blk img' din' src.length ∧ img'.freeinode = img.freeinode ∧
      img'.freeblock + blocksFor (off + tot) = img.freeblock + blocksFor (off + src.length)) ∧
    (¬ Fits img (off + tot) (off + src.length) →
      ∃ e, appendLoop rounds (off + tot) (src.drop tot) img din = .error e) := by
  induction rounds generalizing tot img din with
  | zero =>
    obtain rfl : tot = src.length := by
      have := h.tot_le
      omega
    refine ⟨fun _ => ⟨img, din, appendLoop_done _ _ _ _ _, h, rfl, rfl⟩, fun hnot => absurd ⟨h.end_le, ?_⟩ hnot⟩
    have := h.fits
    omega
  | succ rounds ih =>
    by_cases hlen : tot = src.length
    · subst hlen
      refine ⟨fun _ => ⟨img, din, appendLoop_done _ _ _ _ _, h, rfl, rfl⟩, fun hnot => absurd ⟨h.end_le, ?_⟩ hnot⟩
      have := h.fits
      omega
    · have hlt : tot < src.length := Nat.lt_of_le_of_ne h.tot_le hlen
      have hne : src.drop tot ≠ [] := by simpa using hlt
      by_cases hbn : (off + tot) / BSIZE < MAXFILE
      · generalize hn : min (src.length - tot) (BSIZE - (off + tot) % BSIZE) = n
        rw [appendLoop_succ hne hbn (List.length_drop.symm ▸ hn)]
        have hpos : 0 < BSIZE - (off + tot) % BSIZE := Nat.sub_pos_of_lt (Nat.mod_lt _ (by decide))
        have hneed := h.extent.needed_eq hbn (show 0 < n by omega) (by omega)
        have hmono : blocksFor (off + tot + n) ≤ blocksFor (off + src.length) :=
          blocksFor_mono (by omega)
        by_cases hfit : img.freeblock + needed (blocks img) din ((off + tot) / BSIZE) ≤ FSSIZE
        · obtain ⟨x, img', din', hsec, hx, happ, hcount, hinodes⟩ := h.round hi hbn hlt hn.symm hfit
          simp only [hsec, bind, Except.bind, rsect_ok img' hx, List.drop_drop]
          obtain ⟨hyes, hno⟩ := ih happ (by omega)
          rw [← Nat.add_assoc] at hyes hno
          have hiff : Fits (wsect img' x ((img'.sect x).patch ((off + tot) % BSIZE)
              ((src.drop tot).take n))) (off + tot + n) (off + src.length) ↔
                Fits img (off + tot) (off + src.length) := by
            unfold Fits wsect
            dsimp only
            rw [hcount]
            omega
          rw [hiff] at hyes hno
          refine ⟨fun hf => ?_, hno⟩
          obtain ⟨img2, din2, hloop, happ2, hin2, hcount2⟩ := hyes hf
          refine ⟨img2, din2, hloop, happ2, hin2.trans hinodes, ?_⟩
          have : (wsect img' x ((img'.sect x).patch ((off + tot) % BSIZE)
              ((src.drop tot).take n))).freeblock = img'.freeblock := rfl
          omega
        · have hfull : ¬ Fits img (off + tot) (off + src.length) := by
            rintro ⟨-, hf⟩
            omega
          refine ⟨fun hf => absurd hf hfull, fun _ => ?_⟩
          cases hsec : sector img din ((off + tot) / BSIZE) with
          | error e => exact ⟨e, by simp only [bind, Except.bind]⟩
          | ok r =>
            obtain ⟨x, img', din'⟩ := r
            have hx : FSSIZE ≤ x := sector_full h.written.owns (h.written.live hi) h.spare hbn
              (by rw [Function.update_self]; omega) (by rw [Function.update_self]; exact hsec) h.fits
            refine ⟨"read", ?_⟩
            simp only [bind, Except.bind, rsect, if_neg (Nat.not_lt.mpr hx)]
      · rw [appendLoop, if_neg hne, if_neg hbn]
        refine ⟨fun hfit => ?_, fun _ => ⟨_, rfl⟩⟩
        have := hfit.1
        unfold MAXFILE NINDIRECT NDIRECT BSIZE at *
        omega

end append

/-- The state of the image between two calls of `ialloc` or `iappend`. -/
structure Built (img : Image) : Prop where
  consistent : Consistent Mkfs.sb (disk img)
  spare : Spare img
  fits : img.freeblock ≤ FSSIZE
  extent : ∀ i, Live Mkfs.sb (dinode Mkfs.sb (disk img)) i →
    Extent (blocks img) (dinode Mkfs.sb (disk img) i) (dinode Mkfs.sb (disk img) i).size.toNat
  live : ∀ i < NINODES, Live Mkfs.sb (dinode Mkfs.sb (disk img)) i ↔ 1 ≤ i ∧ i < img.freeinode
  tail : ∀ i, Live Mkfs.sb (dinode Mkfs.sb (disk img)) i → ∀ k,
    (dinode Mkfs.sb (disk img) i).size.toNat ≤ k → k / BSIZE < MAXFILE →
    byteAt (blocks img) (dinode Mkfs.sb (disk img) i) k = 0

theorem rinode_eq (img : Image) {inum : Nat} (hi : inum < NINODES) :
    rinode img inum = .ok (dinode Mkfs.sb (disk img) inum) := by
  have hlt : IBLOCK inum Mkfs.sb < Mkfs.sb.bmapstart := IBLOCK_lt geometry_mkfs hi
  have hF : Mkfs.sb.bmapstart < FSSIZE := by decide
  rw [rinode, rsect_ok img (Nat.lt_trans hlt hF), dinode, disk_block, blocks,
    Function.update_of_ne (Nat.ne_of_lt hlt)]
  rfl

/-- `winode` does to the image what `iupdate` does to a disk. -/
theorem winode_spec {img : Image} {inum : Nat} (hi : inum < NINODES) (hs : Spare img) (din : Dinode) :
    ∃ img', winode img inum din = .ok img' ∧
      (disk img').block = (iupdate Mkfs.sb (disk img) inum din).block ∧
      img'.freeblock = img.freeblock ∧ img'.freeinode = img.freeinode ∧ Spare img' := by
  have hlt : IBLOCK inum Mkfs.sb < Mkfs.sb.bmapstart := IBLOCK_lt geometry_mkfs hi
  have hF : Mkfs.sb.bmapstart < FSSIZE := by decide
  have hbelow : IBLOCK inum Mkfs.sb < img.freeblock := by
    have := hs.low
    have : Mkfs.sb.bmapstart < nmeta := by decide
    omega
  have hne : IBLOCK inum Mkfs.sb ≠ 0 :=
    Nat.ne_of_gt (Nat.lt_of_lt_of_le (show 0 < Mkfs.sb.inodestart by decide) (Nat.le_add_left _ _))
  refine ⟨wsect img (IBLOCK inum Mkfs.sb) (Dinode.write (img.sect (IBLOCK inum Mkfs.sb)) (inum % IPB) din),
    by rw [winode, rsect_ok img (Nat.lt_trans hlt hF)]; rfl, ?_, rfl, rfl, hs.wsect hbelow hne⟩
  have hread : img.sect (IBLOCK inum Mkfs.sb) = blocks img (IBLOCK inum Mkfs.sb) :=
    (Function.update_of_ne (Nat.ne_of_lt hlt) _ _).symm
  rw [disk_block, blocks_wsect _ (Nat.ne_of_lt hlt), hread]
  rfl

/-- The inodes after one of them has been written. -/
theorem Built.of_iupdate {img img' : Image} {inum : Nat} {din' : Dinode} (h : Built img)
    (img1 : Image) (hi : inum < NINODES) (ht : din'.type ≠ 0)
    (hblk : (disk img').block = (iupdate Mkfs.sb (disk img1) inum din').block)
    (hc : Consistent Mkfs.sb (iupdate Mkfs.sb (disk img1) inum din'))
    (hdin : ∀ j < NINODES, j ≠ inum →
      dinode Mkfs.sb (disk img1) j = dinode Mkfs.sb (disk img) j)
    (hunt : Untouched Mkfs.sb (dinode Mkfs.sb (disk img)) inum (blocks img) (blocks img1))
    (howns : Owns Mkfs.sb (blocks img1) (Function.update (dinode Mkfs.sb (disk img)) inum din') ∅)
    (hext : Extent (blocks img1) din' din'.size.toNat) (hspare1 : Spare img1) (hspare : Spare img')
    (htail : ∀ k, din'.size.toNat ≤ k → k / BSIZE < MAXFILE → byteAt (blocks img1) din' k = 0)
    (hfits : img'.freeblock ≤ FSSIZE)
    (hlive : ∀ i < NINODES, i ≠ inum → (1 ≤ i ∧ i < img'.freeinode ↔ 1 ≤ i ∧ i < img.freeinode))
    (hinum : 1 ≤ inum ∧ inum < img'.freeinode) : Built img' := by
  have hdin' : ∀ j < NINODES, dinode Mkfs.sb (disk img') j =
      Function.update (dinode Mkfs.sb (disk img)) inum din' j := by
    intro j hj
    rw [dinode_block hblk, dinode_iupdate, Function.update_apply]
    split
    · rfl
    · next hne => exact hdin j hj hne
  have hsame : ∀ j, Live Mkfs.sb (Function.update (dinode Mkfs.sb (disk img)) inum din') j →
      SameFile (blocks img1) (blocks img') (Function.update (dinode Mkfs.sb (disk img)) inum din' j) := by
    intro j hj
    have := sameFile_iupdate geometry_mkfs (show Owns Mkfs.sb (disk img1).block _ _ from howns) hi din' hj
    rwa [← hblk] at this
  have hlive' : ∀ j, Live Mkfs.sb (dinode Mkfs.sb (disk img')) j →
      Live Mkfs.sb (Function.update (dinode Mkfs.sb (disk img)) inum din') j :=
    fun j hj => ⟨hj.1, hdin' j hj.1 ▸ hj.2⟩
  have hother : ∀ j, j ≠ inum → Live Mkfs.sb (dinode Mkfs.sb (disk img')) j →
      Live Mkfs.sb (dinode Mkfs.sb (disk img)) j := by
    intro j hji hj
    refine ⟨hj.1, ?_⟩
    have := (hlive' j hj).2
    rwa [Function.update_of_ne hji] at this
  have hboot := hspare.blocks_boot.trans hspare1.blocks_boot.symm
  refine ⟨hc.block hblk, hspare, hfits, fun j hj => ?_, fun j hj => ?_, fun j hj => ?_⟩
  · rw [hdin' j hj.1]
    refine Extent.congr ?_ fun s => (hsame j (hlive' j hj) s).1
    by_cases hji : j = inum
    · subst hji
      rw [Function.update_self]
      exact hext
    · have hjd := hother j hji hj
      rw [Function.update_of_ne hji]
      exact (h.extent j hjd).congr fun s => (hunt j hjd hji s).1
  · unfold Live
    rw [hdin' j hj]
    by_cases hji : j = inum
    · subst hji
      rw [Function.update_self]
      exact ⟨fun _ => hinum, fun _ => ⟨hj, ht⟩⟩
    · rw [Function.update_of_ne hji, hlive j hj hji, ← h.live j hj]
      rfl
  · intro k hk hkmax
    rw [hdin' j hj.1] at hk ⊢
    rw [(hsame j (hlive' j hj)).byteAt_eq_of_boot hboot]
    by_cases hji : j = inum
    · subst hji
      rw [Function.update_self] at hk ⊢
      exact htail k hk hkmax
    · have hjd := hother j hji hj
      rw [Function.update_of_ne hji] at hk ⊢
      rw [(hunt j hjd hji).byteAt_eq_of_boot (hspare1.blocks_boot.trans h.spare.blocks_boot.symm)]
      exact h.tail j hjd k hk hkmax

/-- `ialloc` of mkfs hands out the next inode, with one link and no content. -/
theorem ialloc_spec {img : Image} (h : Built img) (h1 : 1 ≤ img.freeinode)
    (hlt : img.freeinode < NINODES) {type : Int16} (ht : type ≠ 0) :
    ∃ img', Mkfs.ialloc img type = .ok (img.freeinode, img') ∧ Built img' ∧
      img'.freeinode = img.freeinode + 1 ∧ img'.freeblock = img.freeblock ∧
      node Mkfs.sb (disk img') = Function.update (node Mkfs.sb (disk img)) img.freeinode
        ⟨type, 0, 0, 1, []⟩ := by
  generalize hdin : ({ Dinode.zero with type := type, nlink := 1 } : Dinode) = din
  have hempty : din = emptied din := by rw [← hdin]; rfl
  have htype : din.type ≠ 0 := by rw [← hdin]; exact ht
  have hfree : (dinode Mkfs.sb (disk img) img.freeinode).type = 0 := by
    by_contra hne
    exact Nat.lt_irrefl _ ((h.live _ hlt).mp ⟨hlt, hne⟩).2
  have hspare : Spare { img with freeinode := img.freeinode + 1 } :=
    ⟨h.spare.low, h.spare.zero, h.spare.boot⟩
  obtain ⟨img', hw, hblk, hfb, hfi, hspare'⟩ := winode_spec hlt hspare din
  obtain ⟨hc, hnode⟩ := iupdate_alloc geometry_mkfs h.consistent hlt hfree htype hempty
  have hslots : ∀ s b, b ≠ 0 → (din.type ≠ 0 ∧ slotAddr (blocks img) din s = b ↔
      (dinode Mkfs.sb (disk img) img.freeinode).type ≠ 0 ∧
        slotAddr (blocks img) (dinode Mkfs.sb (disk img) img.freeinode) s = b) := by
    intro s b hb
    rw [hempty, slotAddr_emptied]
    simp [hfree, hb.symm]
  refine ⟨img', ?_, ?_, hfi, hfb, ?_⟩
  · simp only [Mkfs.ialloc, hdin, hw, bind, Except.bind]
    rfl
  · refine h.of_iupdate img hlt htype hblk hc (fun _ _ _ => rfl) (untouched_self _ _ _)
      (h.consistent.owns.fields hslots) ?_ h.spare hspare' ?_ (hfb.trans_le h.fits) ?_ ?_
    · have hsize : din.size.toNat = 0 := by rw [hempty]; rfl
      rw [hsize]
      refine ⟨fun bn _ => ?_, ?_⟩
      · rw [blockOf, hempty, slotAddr_emptied]
        simp
      · rw [hempty, emptied_addr]
        simp
    · intro k _ _
      rw [byteAt, blockOf, hempty, slotAddr_emptied, h.spare.blocks_boot, Block.get_zero]
    · intro j _ hj
      rw [hfi]
      dsimp only
      omega
    · rw [hfi]
      dsimp only
      omega
  · rw [node_block hblk]
    refine Eq.trans hnode ?_
    rw [← hdin]
    rfl

theorem set_size_eq_resized {din : Dinode} {n : Nat} (h : din.size.toNat ≤ n) :
    { din with size := UInt32.ofNat n } = resized din n := by
  unfold resized
  split
  · rfl
  · next hle =>
    have hn : n = din.size.toNat := by omega
    rw [hn, UInt32.ofNat_toNat]

/-- The bytes of `iappend` go behind those of the inode, if there is room for them; if not,
mkfs stops. -/
theorem iappend_spec {img : Image} {inum : Nat} (h : Built img)
    (hi : Live Mkfs.sb (dinode Mkfs.sb (disk img)) inum) (p : List UInt8) {len : Nat}
    (hlen : (node Mkfs.sb (disk img) inum).data.length = len) :
    (Fits img len (len + p.length) → ∃ img', iappend img inum p = .ok img' ∧ Built img' ∧
      img'.freeinode = img.freeinode ∧
      img'.freeblock + blocksFor len = img.freeblock + blocksFor (len + p.length) ∧
      node Mkfs.sb (disk img') = Function.update (node Mkfs.sb (disk img)) inum
        { node Mkfs.sb (disk img) inum with data := (node Mkfs.sb (disk img) inum).data ++ p }) ∧
    (¬ Fits img len (len + p.length) → ∃ e, iappend img inum p = .error e) := by
  have hnode := node_of_live hi
  generalize hdin : dinode Mkfs.sb (disk img) inum = din at *
  have hlen' : din.size.toNat = len := by rw [← hlen, hnode, content_length]
  have hsize : len < 2 ^ 32 := hlen' ▸ UInt32.toNat_lt _
  have hmapped : Mapped (blocks img) din := hdin ▸ h.consistent.mapped inum hi
  have hmax : len ≤ MAXFILE * BSIZE := by
    by_contra hgt
    exact Nat.lt_irrefl _ (hmapped MAXFILE (by omega)).1
  have hext : Extent (blocks img) din len := by
    have := h.extent inum hi
    rwa [hdin, hlen'] at this
  have hstart : Appended (dinode Mkfs.sb (disk img)) inum len p (blocks img) img din 0 := by
    have hw : Written Mkfs.sb (dinode Mkfs.sb (disk img)) ∅ inum len p (blocks img) (blocks img)
        (dinode Mkfs.sb (disk img) inum) 0 0 := .start h.consistent.owns (hdin.symm ▸ hmapped)
    rw [hdin] at hw
    refine ⟨hw, h.spare, hext, h.fits, Nat.zero_le _, hmax, fun k hk hkmax => ?_⟩
    have htail := h.tail inum hi k
    rw [hdin, hlen'] at htail
    exact htail hk hkmax
  obtain ⟨hyes, hno⟩ := appendLoop_spec hi hstart (Nat.le_refl _)
  rw [Nat.sub_zero, Nat.add_zero, List.drop_zero] at hyes hno
  refine ⟨fun hfit => ?_, fun hnot => ?_⟩
  · obtain ⟨img1, din1, hloop, happ, hin, hcount⟩ := hyes hfit
    have hend : len + p.length < 2 ^ 32 := by
      have := hfit.1
      have : MAXFILE * BSIZE < 2 ^ 32 := by decide
      omega
    have hoff : len ≤ (dinode Mkfs.sb (disk img) inum).size.toNat := by rw [hdin, hlen']
    have hset : { din1 with size := UInt32.ofNat (len + p.length) } = resized din1 (len + p.length) :=
      set_size_eq_resized (by rw [happ.written.fields, hdin, hlen']; omega)
    obtain ⟨img', hw, hblk, hfb, hfi, hspare'⟩ := winode_spec hi.1 happ.spare (resized din1 (len + p.length))
    obtain ⟨hc, hnode'⟩ := h.consistent.writeback geometry_mkfs hi.1
      (show Owns Mkfs.sb (disk img1).block _ ∅ from happ.written.resized_owns (len + p.length))
      happ.written.low happ.written.untouched
      fun _ => happ.written.resized_mapped hend hoff
    have hcontent := happ.written.resized_content hend hoff (Nat.le_refl _) (Nat.le_refl _)
    have hfields : resized din1 (len + p.length) =
        { din with size := (resized din1 (len + p.length)).size, addrs := din1.addrs } := by
      rw [resized_fields, happ.written.fields, hdin]
    have ht : (resized din1 (len + p.length)).type ≠ 0 := by
      rw [hfields, ← hdin]
      exact hi.2
    refine ⟨img', ?_, ?_, hfi.trans hin, by rw [hfb]; exact hcount, ?_⟩
    · rw [iappend, rinode_eq img hi.1, hdin]
      simp only [bind, Except.bind, hlen', hloop, hset]
      exact hw
    · refine h.of_iupdate img1 hi.1 ht hblk hc ?_ happ.written.untouched
        (happ.written.resized_owns _) ?_ happ.spare hspare' ?_ (hfb.trans_le happ.fits) ?_ ?_
      · intro j hj _
        exact dinode_congr geometry_mkfs happ.written.low hj
      · rw [resized_size hend, happ.written.fields, hdin, hlen', Nat.max_eq_right (Nat.le_add_right _ _)]
        exact ⟨fun bn hbn => by rw [blockOf, slotAddr_resized]; exact happ.extent.block bn hbn,
          by rw [resized_addr]; exact happ.extent.indirect⟩
      · intro k hk hkmax
        rw [resized_size hend, happ.written.fields, hdin, hlen'] at hk
        rw [byteAt, blockOf, slotAddr_resized]
        exact happ.tail k (by omega) hkmax
      · intro j _ _
        rw [hfi, hin]
      · rw [hfi, hin]
        exact (h.live inum hi.1).mp hi
    · rw [node_block hblk]
      refine hnode'.trans ?_
      have hcl : (content (blocks img) din).length = len := (content_length _ _).trans hlen'
      have hdata : (overlay (content (blocks img) din) len (p.take p.length)).take
          (max (content (blocks img) din).length (len + p.length)) = content (blocks img) din ++ p := by
        rw [List.take_length, ← hcl, overlay_end, Nat.max_eq_right (Nat.le_add_right _ _),
          ← List.length_append, List.take_length]
      rw [nodeOf, if_neg ht, disk_block, hcontent, hdin, hdata, hfields, hnode, disk_block]
  · obtain ⟨e, hloop⟩ := hno hnot
    refine ⟨e, ?_⟩
    rw [iappend, rinode_eq img hi.1, hdin]
    simp only [bind, Except.bind, hlen', hloop]

/-- Chunks are appended one after the other. -/
theorem iappend_chunks {img : Image} {inum len : Nat} {chunks : List (List UInt8)} (h : Built img)
    (hi : Live Mkfs.sb (dinode Mkfs.sb (disk img)) inum)
    (hlen : (node Mkfs.sb (disk img) inum).data.length = len)
    (hfit : Fits img len (len + chunks.flatten.length)) :
    ∃ img', chunks.foldlM (fun img chunk => iappend img inum chunk) img = .ok img' ∧ Built img' ∧
      img'.freeinode = img.freeinode ∧
      img'.freeblock + blocksFor len = img.freeblock + blocksFor (len + chunks.flatten.length) ∧
      node Mkfs.sb (disk img') = Function.update (node Mkfs.sb (disk img)) inum
        { node Mkfs.sb (disk img) inum with
          data := (node Mkfs.sb (disk img) inum).data ++ chunks.flatten } := by
  induction chunks generalizing img len with
  | nil => exact ⟨img, rfl, h, rfl, rfl, by simp⟩
  | cons chunk chunks ih =>
    rw [List.flatten_cons, List.length_append] at hfit
    have hmono := blocksFor_mono (show len + chunk.length ≤ len + (chunk.length + chunks.flatten.length)
      by omega)
    have hfit1 : Fits img len (len + chunk.length) := by
      have := hfit.1
      have := hfit.2
      exact ⟨by omega, by omega⟩
    obtain ⟨img₁, happ, hb₁, hfi₁, hcount₁, hnode₁⟩ := (iappend_spec h hi chunk hlen).1 hfit1
    have hi₁ : Live Mkfs.sb (dinode Mkfs.sb (disk img₁)) inum := by
      rw [live_iff, hnode₁, Function.update_self]
      exact live_iff.mp hi
    have hlen₁ : (node Mkfs.sb (disk img₁) inum).data.length = len + chunk.length := by
      rw [hnode₁, Function.update_self, List.length_append, hlen]
    have hfit₂ : Fits img₁ (len + chunk.length) (len + chunk.length + chunks.flatten.length) := by
      obtain ⟨h1, h2⟩ := hfit
      rw [← Nat.add_assoc] at h1 h2
      exact ⟨h1, by omega⟩
    obtain ⟨img₂, hrest, hb₂, hfi₂, hcount₂, hnode₂⟩ := ih hb₁ hi₁ hlen₁ hfit₂
    refine ⟨img₂, ?_, hb₂, hfi₂.trans hfi₁, ?_, ?_⟩
    · rw [List.foldlM_cons, happ]
      exact hrest
    · rw [List.flatten_cons, List.length_append, ← Nat.add_assoc]
      omega
    · rw [hnode₂, hnode₁, Function.update_idem, Function.update_self, List.flatten_cons,
        List.append_assoc]

theorem read_zero (k : Nat) : Dinode.read .zero k = .zero := by
  unfold Dinode.read Dinode.ofBytes Dinode.short Dinode.uint
  simp only [Block.get_zero]
  rfl

/-- The image is empty but for the super block. -/
theorem sect_blank {b : Nat} (hb : b ≠ 1) : blank.sect b = .zero := by
  unfold blank
  dsimp only
  exact Function.update_of_ne hb _ _

theorem dinode_blank {i : Nat} (hi : i < NINODES) : dinode Mkfs.sb (disk blank) i = .zero := by
  have hlt : IBLOCK i Mkfs.sb < Mkfs.sb.bmapstart := IBLOCK_lt geometry_mkfs hi
  have hne : IBLOCK i Mkfs.sb ≠ 1 := by
    have h1 : 1 < Mkfs.sb.inodestart := by decide
    have h2 : Mkfs.sb.inodestart ≤ IBLOCK i Mkfs.sb := Nat.le_add_left _ _
    omega
  rw [dinode, disk_block, blocks, Function.update_of_ne (Nat.ne_of_lt hlt), sect_blank hne, read_zero]

theorem built_blank : Built blank := by
  have hdead : ∀ i, ¬ Live Mkfs.sb (dinode Mkfs.sb (disk blank)) i := by
    rintro i ⟨hi, ht⟩
    rw [dinode_blank hi] at ht
    exact ht rfl
  have hmeta : blank.freeblock = nmeta := rfl
  have hspare : Spare blank := by
    refine ⟨Nat.le_refl _, fun b hb => sect_blank ?_, sect_blank (by decide)⟩
    have : 1 < nmeta := by decide
    omega
  refine ⟨⟨⟨fun i _ hi => absurd hi (hdead i), fun i _ _ _ hi => absurd hi (hdead i), ?_, ?_, ?_⟩,
    fun i hi => absurd hi (hdead i)⟩, hspare, by decide, fun i hi => absurd hi (hdead i), ?_,
    fun i hi => absurd hi (hdead i)⟩
  · intro b hb
    have hge : ¬ b < blank.freeblock := by
      have := hb.1
      rw [datastart_mkfs] at this
      omega
    rw [disk_block, marked_blocks blank hb.2, decide_eq_false hge]
    constructor
    · intro h
      cases h
    · rintro (⟨i, _, hi, _⟩ | h)
      · exact absurd hi (hdead i)
      · exact absurd h (Set.notMem_empty _)
  · exact fun b hb => absurd hb (Set.notMem_empty _)
  · intro b hb
    rw [datastart_mkfs] at hb
    rw [disk_block, marked_blocks blank (Nat.lt_trans hb (by decide))]
    exact decide_eq_true hb
  · intro i _
    refine ⟨fun hi => absurd hi (hdead i), ?_⟩
    rintro ⟨h1, h2⟩
    exact absurd h2 (Nat.not_lt.mpr h1)

end Xv6.Inode
