import Xv6.Inode.Content

/-!
# Inodes as records with a byte array

What the layers above see of an inode: its type, device numbers, link count and bytes.
`Consistent` says when the disk holds such records, and each operation on the disk is an
operation on one of them.
-/
namespace Xv6.Inode

open Xv6.Source Xv6.Source.Fs

/-- An inode and its content. A free inode is `Node.free`. -/
structure Node where
  type : Int16
  major : Int16
  minor : Int16
  nlink : Int16
  data : List UInt8
  deriving DecidableEq

def Node.free : Node := ⟨0, 0, 0, 0, []⟩

/-- The inode with these fields on this disk. -/
def nodeOf (blk : Nat → Block) (din : Dinode) : Node :=
  if din.type = 0 then .free else ⟨din.type, din.major, din.minor, din.nlink, content blk din⟩

/-- Inode `i` of the disk. -/
def node (sb : Superblock) (d : Disk) (i : Nat) : Node :=
  if i < sb.ninodes then nodeOf d.block (dinode sb d i) else .free

/-- The bitmap and the inodes of the disk agree, and no file has a hole. -/
structure Consistent (sb : Superblock) (d : Disk) : Prop where
  owns : Owns sb d.block (dinode sb d) ∅
  mapped : ∀ i, Live sb (dinode sb d) i → Mapped d.block (dinode sb d i)

variable {sb : Superblock} {d : Disk} {i : Nat}

theorem node_of_live (h : Live sb (dinode sb d) i) : node sb d i =
    ⟨(dinode sb d i).type, (dinode sb d i).major, (dinode sb d i).minor, (dinode sb d i).nlink,
      content d.block (dinode sb d i)⟩ := by
  rw [node, if_pos h.1, nodeOf, if_neg h.2]

theorem node_of_not_live (h : ¬ Live sb (dinode sb d) i) : node sb d i = .free := by
  unfold node nodeOf
  split
  · next hi =>
    have h0 : (dinode sb d i).type = 0 := by
      by_contra hne
      exact h ⟨hi, hne⟩
    rw [if_pos h0]
  · rfl

theorem live_iff : Live sb (dinode sb d) i ↔ (node sb d i).type ≠ 0 := by
  by_cases h : Live sb (dinode sb d) i
  · rw [node_of_live h]
    exact ⟨fun _ => h.2, fun _ => h⟩
  · rw [node_of_not_live h]
    exact ⟨fun h' => absurd h' h, fun h' => absurd rfl h'⟩

/-- Only the blocks of a disk matter for what it holds. -/
theorem dinode_block {d' : Disk} (h : d'.block = d.block) :
    dinode sb d' = dinode sb d := by
  funext j
  rw [dinode, h, dinode]

theorem node_block {d' : Disk} (h : d'.block = d.block) :
    node sb d' = node sb d := by
  funext j
  rw [node, dinode_block h, h, node]

theorem Consistent.block {d' : Disk} (hc : Consistent sb d)
    (h : d'.block = d.block) : Consistent sb d' := by
  constructor
  · rw [dinode_block h, h]
    exact hc.owns
  · rw [dinode_block h, h]
    exact hc.mapped

/-- Reading back an inode from the block it was written to. -/
theorem dinode_iupdate (d : Disk) (i : Nat) (din : Dinode) (j : Nat) :
    dinode sb (iupdate sb d i din) j = if j = i then din else dinode sb d j := by
  have hpos : 0 < IPB := by decide
  rw [dinode, iupdate, Disk.logWrite_block, Disk.store_block]
  by_cases hB : IBLOCK j sb = IBLOCK i sb
  · rw [hB, Function.update_self]
    by_cases hji : j = i
    · subst hji
      rw [if_pos rfl, Dinode.read_write _ (Nat.mod_lt _ hpos)]
    · have hne : j % IPB ≠ i % IPB := by
        intro hm
        have h1 := Nat.div_add_mod j IPB
        have h2 := Nat.div_add_mod i IPB
        have hdiv : j / IPB = i / IPB := by
          unfold IBLOCK at hB
          omega
        exact hji (by rw [← h1, ← h2, hdiv, hm])
      rw [if_neg hji, Dinode.read_write_ne _ (Nat.mod_lt _ hpos) hne, dinode, hB]
  · have hji : j ≠ i := fun e => hB (by rw [e])
    rw [Function.update_of_ne hB, if_neg hji, dinode]

theorem iupdate_block (d : Disk) (i : Nat) (din : Dinode) {b : Nat} (hb : b ≠ IBLOCK i sb) :
    (iupdate sb d i din).block b = d.block b := by
  rw [iupdate, Disk.logWrite_block, Disk.store_block, Function.update_of_ne hb]

theorem dinode_congr {d' : Disk} (hg : Geometry sb)
    (h : ∀ b < sb.bmapstart, d'.block b = d.block b) {j : Nat} (hj : j < sb.ninodes) :
    dinode sb d' j = dinode sb d j := by
  rw [dinode, h _ (IBLOCK_lt hg hj), dinode]

/-- Ownership looks at the inodes of the file system and at the blocks from the bitmap on. -/
theorem Owns.congr {blk blk' : Nat → Block} {ino ino' : Nat → Dinode} {x : Set Nat}
    (h : Owns sb blk ino x) (hino : ∀ j < sb.ninodes, ino' j = ino j)
    (hblk : ∀ b, sb.bmapstart ≤ b → blk' b = blk b) : Owns sb blk' ino' x := by
  have hlive : ∀ j, Live sb ino' j ↔ Live sb ino j := by
    intro j
    unfold Live
    constructor
    · rintro ⟨hj, ht⟩
      exact ⟨hj, hino j hj ▸ ht⟩
    · rintro ⟨hj, ht⟩
      exact ⟨hj, (hino j hj).symm ▸ ht⟩
  have hslot : ∀ j, Live sb ino j → ∀ s, slotAddr blk' (ino' j) s = slotAddr blk (ino j) s := by
    intro j hj
    rw [hino j hj.1]
    exact slotAddr_congr fun hne => hblk _ (Nat.le_of_lt (h.inData j .indirect hj hne).bmapstart_lt)
  have hnamed : ∀ b, Named sb blk' ino' b ↔ Named sb blk ino b := by
    intro b
    constructor
    · rintro ⟨j, s, hj, hs⟩
      rw [hlive] at hj
      exact ⟨j, s, hj, hslot j hj s ▸ hs⟩
    · rintro ⟨j, s, hj, hs⟩
      exact ⟨j, s, (hlive j).mpr hj, (hslot j hj s).trans hs⟩
  have hmark : ∀ b, marked sb blk' b = marked sb blk b := by
    intro b
    rw [marked, hblk _ (BBLOCK_ge sb b), marked]
  refine ⟨?_, ?_, ?_, ?_, ?_⟩
  · intro j s hj hs
    rw [hlive] at hj
    rw [hslot j hj] at hs ⊢
    exact h.inData j s hj hs
  · intro j k s t hj hk hs hst
    rw [hlive] at hj hk
    rw [hslot j hj] at hs hst
    rw [hslot k hk] at hst
    exact h.once j k s t hj hk hs hst
  · intro b hb
    rw [hmark, hnamed]
    exact h.marks b hb
  · intro b hb
    rw [hnamed]
    exact h.apart b hb
  · intro b hb
    rw [hmark]
    exact h.reserved b hb

/-- Writing an inode back leaves the files alone. -/
theorem sameFile_iupdate {ino : Nat → Dinode} {x : Set Nat} (hg : Geometry sb)
    (h : Owns sb d.block ino x) (hi : i < sb.ninodes) (din : Dinode) {j : Nat}
    (hj : Live sb ino j) : SameFile d.block (iupdate sb d i din).block (ino j) := by
  have hblk : ∀ b, IsData sb b → (iupdate sb d i din).block b = d.block b := by
    intro b hb
    refine iupdate_block d i din ?_
    have := IBLOCK_lt hg hi
    have := hb.bmapstart_lt
    omega
  have hslot : ∀ s, slotAddr (iupdate sb d i din).block (ino j) s = slotAddr d.block (ino j) s :=
    slotAddr_congr fun hne => hblk _ (h.inData j .indirect hj hne)
  intro s
  exact ⟨hslot s, fun hs => hblk _ (h.inData j s hj hs)⟩

/-- An operation on inode `i` ends by writing it back. -/
theorem Consistent.writeback {d1 : Disk} {din' : Dinode} (hg : Geometry sb) (hc : Consistent sb d)
    (hi : i < sb.ninodes) (howns : Owns sb d1.block (Function.update (dinode sb d) i din') ∅)
    (hlow : ∀ b < sb.bmapstart, d1.block b = d.block b)
    (hunt : Untouched sb (dinode sb d) i d.block d1.block)
    (hmap : din'.type ≠ 0 → Mapped d1.block din') :
    Consistent sb (iupdate sb d1 i din') ∧
      node sb (iupdate sb d1 i din') = Function.update (node sb d) i (nodeOf d1.block din') := by
  have hdin : ∀ j < sb.ninodes, dinode sb (iupdate sb d1 i din') j =
      Function.update (dinode sb d) i din' j := by
    intro j hj
    rw [dinode_iupdate, Function.update_apply]
    split
    · rfl
    · exact dinode_congr hg hlow hj
  have hlive : ∀ j, Live sb (dinode sb (iupdate sb d1 i din')) j →
      Live sb (Function.update (dinode sb d) i din') j := fun j hj => ⟨hj.1, hdin j hj.1 ▸ hj.2⟩
  have hsame : ∀ j, Live sb (Function.update (dinode sb d) i din') j →
      SameFile d1.block (iupdate sb d1 i din').block (Function.update (dinode sb d) i din' j) :=
    fun j hj => sameFile_iupdate hg howns hi din' hj
  have hother : ∀ j, j ≠ i → Live sb (Function.update (dinode sb d) i din') j →
      Live sb (dinode sb d) j := by
    intro j hji hj
    refine ⟨hj.1, ?_⟩
    have := hj.2
    rwa [Function.update_of_ne hji] at this
  have hmap' : ∀ j, Live sb (Function.update (dinode sb d) i din') j →
      Mapped d1.block (Function.update (dinode sb d) i din' j) := by
    intro j hj
    by_cases hji : j = i
    · subst hji
      rw [Function.update_self]
      have := hj.2
      rw [Function.update_self] at this
      exact hmap this
    · have hjd := hother j hji hj
      rw [Function.update_of_ne hji]
      exact (hunt j hjd hji).mapped (hc.mapped j hjd)
  constructor
  · refine ⟨howns.congr hdin fun b hb => iupdate_block d1 i din' ?_, fun j hj => ?_⟩
    · have := IBLOCK_lt hg hi
      omega
    · rw [hdin j hj.1]
      exact (hsame j (hlive j hj)).mapped (hmap' j (hlive j hj))
  · funext j
    by_cases hj : Live sb (dinode sb (iupdate sb d1 i din')) j
    · have hj' := hlive j hj
      have hcontent := (hsame j hj').content_eq (hmap' j hj')
      by_cases hji : j = i
      · subst hji
        have hdin' := hdin j hi
        rw [Function.update_self] at hcontent hdin'
        have ht : din'.type ≠ 0 := hdin' ▸ hj.2
        rw [node_of_live hj, Function.update_self, nodeOf, if_neg ht, hdin', hcontent]
      · have hjd := hother j hji hj'
        have hdin' := hdin j hj.1
        rw [Function.update_of_ne hji] at hcontent hdin'
        rw [node_of_live hj, Function.update_of_ne hji, node_of_live hjd, hdin', hcontent,
          (hunt j hjd hji).content_eq (hc.mapped j hjd)]
    · rw [node_of_not_live hj]
      by_cases hji : j = i
      · subst hji
        have ht : din'.type = 0 := by
          by_contra hne
          refine hj ⟨hi, ?_⟩
          rw [hdin j hi, Function.update_self]
          exact hne
        rw [Function.update_self, nodeOf, if_pos ht]
      · rw [Function.update_of_ne hji, node_of_not_live]
        intro hjd
        refine hj ⟨hjd.1, ?_⟩
        rw [hdin j hjd.1, Function.update_of_ne hji]
        exact hjd.2

/-- `itrunc` leaves the inode without content. -/
theorem itrunc_node (hg : Geometry sb) (hc : Consistent sb d) (hi : Live sb (dinode sb d) i) :
    ∃ d', itrunc sb d i (dinode sb d i) = .ok (d', emptied (dinode sb d i)) ∧ Consistent sb d' ∧
      dinode sb d' i = emptied (dinode sb d i) ∧
      (∀ j < sb.ninodes, j ≠ i → dinode sb d' j = dinode sb d j) ∧
      node sb d' = Function.update (node sb d) i { node sb d i with data := [] } := by
  obtain ⟨d1, htrunc, howns, hsame⟩ := itrunc_spec hc.owns hi
  have hunt : Untouched sb (dinode sb d) i d.block d1.block := by
    intro j hj _
    have hblk : ∀ b, IsData sb b → d1.block b = d.block b := fun b hb => hsame b (.inr hb.1)
    have hslot : ∀ s, slotAddr d1.block (dinode sb d j) s = slotAddr d.block (dinode sb d j) s :=
      slotAddr_congr fun hne => hblk _ (hc.owns.inData j .indirect hj hne)
    exact fun s => ⟨hslot s, fun hs => hblk _ (hc.owns.inData j s hj hs)⟩
  obtain ⟨hc', hnode⟩ := hc.writeback hg hi.1 howns (fun b hb => hsame b (.inl hb)) hunt
    fun _ bn hbn => absurd hbn (Nat.not_lt_zero _)
  refine ⟨_, htrunc, hc', by rw [dinode_iupdate, if_pos rfl], fun j hj hji => ?_, ?_⟩
  · rw [dinode_iupdate, if_neg hji]
    exact dinode_congr hg (fun b hb => hsame b (.inl hb)) hj
  rw [hnode, node_of_live hi, nodeOf, if_neg (show (emptied (dinode sb d i)).type ≠ 0 from hi.2)]
  rfl

theorem untouched_self (ino : Nat → Dinode) (i : Nat) (blk : Nat → Block) :
    Untouched sb ino i blk blk := fun _ _ _ _ => ⟨rfl, fun _ => rfl⟩

/-- Ownership when an inode changes and names the blocks it named. -/
theorem Owns.fields {blk : Nat → Block} {ino : Nat → Dinode} {x : Set Nat} {din' : Dinode}
    (h : Owns sb blk ino x)
    (hslots : ∀ s b, b ≠ 0 → (din'.type ≠ 0 ∧ slotAddr blk din' s = b ↔
      (ino i).type ≠ 0 ∧ slotAddr blk (ino i) s = b)) :
    Owns sb blk (Function.update ino i din') x := by
  have hname : ∀ j s b, b ≠ 0 → (Live sb (Function.update ino i din') j ∧
      slotAddr blk (Function.update ino i din' j) s = b ↔ Live sb ino j ∧ slotAddr blk (ino j) s = b) := by
    intro j s b hb
    by_cases hji : j = i
    · subst hji
      unfold Live
      rw [Function.update_self, and_assoc, and_assoc, hslots s b hb]
    · unfold Live
      rw [Function.update_of_ne hji]
  have hnamed : ∀ b, b ≠ 0 → (Named sb blk (Function.update ino i din') b ↔ Named sb blk ino b) :=
    fun b hb => exists_congr fun j => exists_congr fun s => hname j s b hb
  refine ⟨?_, ?_, ?_, ?_, h.reserved⟩
  · intro j s hj hs
    obtain ⟨hj', hs'⟩ := (hname j s _ hs).mp ⟨hj, rfl⟩
    rw [← hs'] at hs ⊢
    exact h.inData j s hj' hs
  · intro j k s t hj hk hs hst
    obtain ⟨hj', hs'⟩ := (hname j s _ hs).mp ⟨hj, rfl⟩
    obtain ⟨hk', ht'⟩ := (hname k t _ hs).mp ⟨hk, hst.symm⟩
    exact h.once j k s t hj' hk' (hs'.trans_ne hs) (hs'.trans ht'.symm)
  · intro b hb
    rw [hnamed b hb.ne_zero]
    exact h.marks b hb
  · intro b hb
    obtain ⟨hdata, hn⟩ := h.apart b hb
    exact ⟨hdata, (hnamed b hdata.ne_zero).not.mpr hn⟩

/-- A free inode is allocated, with no content. -/
theorem iupdate_alloc {din' : Dinode} (hg : Geometry sb) (hc : Consistent sb d) (hi : i < sb.ninodes)
    (hfree : (dinode sb d i).type = 0) (ht : din'.type ≠ 0) (hempty : din' = emptied din') :
    Consistent sb (iupdate sb d i din') ∧
      node sb (iupdate sb d i din') = Function.update (node sb d) i
        ⟨din'.type, din'.major, din'.minor, din'.nlink, []⟩ := by
  have hslots : ∀ s b, b ≠ 0 → (din'.type ≠ 0 ∧ slotAddr d.block din' s = b ↔
      (dinode sb d i).type ≠ 0 ∧ slotAddr d.block (dinode sb d i) s = b) := by
    intro s b hb
    rw [hempty, slotAddr_emptied]
    simp [hfree, hb.symm]
  have hsize : din'.size.toNat = 0 := by rw [hempty]; rfl
  obtain ⟨hc', hnode⟩ := hc.writeback hg hi (hc.owns.fields hslots) (fun _ _ => rfl)
    (untouched_self _ _ _) fun _ bn hbn => absurd hbn (by rw [hsize]; exact Nat.not_lt_zero _)
  refine ⟨hc', ?_⟩
  rw [hnode, nodeOf, if_neg ht, content, hsize]
  rfl

/-- The bytes `new` are laid over `old` from offset `off` on. -/
def overlay (old : List UInt8) (off : Nat) (new : List UInt8) : List UInt8 :=
  old.take off ++ new ++ old.drop (off + new.length)

theorem overlay_length {old new : List UInt8} {off : Nat} (h : off ≤ old.length) :
    (overlay old off new).length = max old.length (off + new.length) := by
  simp [overlay]
  omega

theorem getD_overlay {old new : List UInt8} {off : Nat} (h : off ≤ old.length) (k : Nat) :
    (overlay old off new).getD k 0 =
      if off ≤ k ∧ k < off + new.length then new.getD (k - off) 0 else old.getD k 0 := by
  simp only [overlay, List.getD_eq_getElem?_getD]
  by_cases h1 : k < off
  · rw [if_neg (by omega), List.append_assoc, List.getElem?_append_left (by simp; omega),
      List.getElem?_take, if_pos h1]
  · by_cases h2 : k < off + new.length
    · rw [if_pos (by omega), List.getElem?_append_left (by simp; omega),
        List.getElem?_append_right (by simp; omega)]
      simp [Nat.min_eq_left h]
    · rw [if_neg (by omega), List.getElem?_append_right (by simp; omega), List.getElem?_drop]
      congr 2
      simp
      omega

theorem overlay_end (old new : List UInt8) : overlay old old.length new = old ++ new := by
  simp [overlay]

/-- What `writei` does to a file without holes when it gets as far as its loop: `tot` bytes
are counted, and `w` stored. -/
structure Wrote (old : Node) (src : List UInt8) (off n : Nat) (new : Node) (tot w : Nat) : Prop where
  off_le : off ≤ old.data.length
  end_le : off + n ≤ MAXFILE * BSIZE
  tot_le : tot ≤ n
  tot_src : tot ≤ src.length
  stored : w = tot ∨ w = src.length ∧ tot ≤ w ∧ w < n
  node : new = { old with
    data := (overlay old.data off (src.take w)).take (max old.data.length (off + tot)) }

theorem list_ext_getD {l m : List UInt8} (hlen : l.length = m.length)
    (h : ∀ k < l.length, l.getD k 0 = m.getD k 0) : l = m := by
  refine List.ext_getElem hlen fun k h1 h2 => ?_
  have := h k h1
  rwa [List.getD_eq_getElem _ _ h1, List.getD_eq_getElem _ _ h2] at this

theorem content_getD (blk : Nat → Block) (din : Dinode) {k : Nat} (hk : k < din.size.toNat) :
    (content blk din).getD k 0 = byteAt blk din k := by
  rw [List.getD_eq_getElem _ _ (by simpa using hk)]
  simp [content, bytesAt]

/-- `writei` turns down a range that starts behind the end or goes beyond the largest file. -/
theorem writei_refused {src : List UInt8} {off n : Nat} {din : Dinode}
    (h : ¬ (off ≤ din.size.toNat ∧ off + n ≤ MAXFILE * BSIZE)) (hn : n < 2 ^ 32) :
    writei sb d i din src off n = .ok ⟨-1, d, din⟩ := by
  have hsize : din.size.toNat < 2 ^ 32 := UInt32.toNat_lt _
  have hM : MAXFILE * BSIZE = 274432 := rfl
  unfold writei
  split
  · rfl
  · split
    · rfl
    · omega

/-- The size that `writei` leaves when its loop ends at `off`. -/
def resized (din : Dinode) (off : Nat) : Dinode :=
  if off > din.size.toNat then { din with size := UInt32.ofNat off } else din

theorem resized_size {din : Dinode} {off : Nat} (h : off < 2 ^ 32) :
    (resized din off).size.toNat = max din.size.toNat off := by
  unfold resized
  split
  · rw [UInt32.toNat_ofNat_of_lt' h]
    omega
  · omega

theorem resized_fields (din : Dinode) (off : Nat) :
    resized din off = { din with size := (resized din off).size } := by
  unfold resized
  split <;> rfl

theorem resized_addr (din : Dinode) (off k : Nat) : (resized din off).addr k = din.addr k := by
  rw [resized_fields]
  rfl

theorem slotAddr_resized (blk : Nat → Block) (din : Dinode) (off : Nat) (s : Slot) :
    slotAddr blk (resized din off) s = slotAddr blk din s := by
  cases s <;> simp only [slotAddr, resized_addr]

section written
variable {ino : Nat → Dinode} {x : Set Nat} {off tot w : Nat} {src : List UInt8}
  {blk blk' : Nat → Block} {din' : Dinode}

/-- Every byte below the new size is there. -/
theorem Written.resized_bytes (h : Written sb ino x i off src blk blk' din' tot w)
    (hend : off + tot < 2 ^ 32) (hoff : off ≤ (ino i).size.toNat) {k : Nat}
    (hk : k < (resized din' (off + tot)).size.toNat) :
    k / BSIZE < MAXFILE ∧ blockOf blk' (resized din' (off + tot)) (k / BSIZE) ≠ 0 ∧
    byteAt blk' (resized din' (off + tot)) k =
      if off ≤ k ∧ k < off + w then src.getD (k - off) 0 else byteAt blk (ino i) k := by
  have hsize : din'.size = (ino i).size := by rw [h.fields]
  rw [resized_size hend, hsize] at hk
  rw [byteAt, blockOf, slotAddr_resized]
  exact h.bytes k (by omega)

theorem Written.resized_mapped (h : Written sb ino x i off src blk blk' din' tot w)
    (hend : off + tot < 2 ^ 32) (hoff : off ≤ (ino i).size.toNat) :
    Mapped blk' (resized din' (off + tot)) := by
  intro bn hbn
  obtain ⟨h1, h2, -⟩ := h.resized_bytes hend hoff hbn
  rw [Nat.mul_div_cancel _ (show 0 < BSIZE by decide)] at h1 h2
  exact ⟨h1, h2⟩

theorem Written.resized_owns (h : Written sb ino x i off src blk blk' din' tot w) (m : Nat) :
    Owns sb blk' (Function.update ino i (resized din' m)) x := by
  have howns : Owns sb blk' (Function.update (Function.update ino i din') i (resized din' m)) x :=
    h.owns.fields fun s b _ => by rw [Function.update_self, slotAddr_resized, resized_fields]
  rwa [Function.update_idem] at howns

/-- The new content: the bytes of the source that were stored lie over the old content. -/
theorem Written.resized_content (h : Written sb ino x i off src blk blk' din' tot w)
    (hend : off + tot < 2 ^ 32) (hoff : off ≤ (ino i).size.toNat) (hw : w ≤ src.length)
    (htot : tot ≤ w) :
    content blk' (resized din' (off + tot)) =
      (overlay (content blk (ino i)) off (src.take w)).take
        (max (content blk (ino i)).length (off + tot)) := by
  have hsize : din'.size = (ino i).size := by rw [h.fields]
  have hlen : (src.take w).length = w := by simp [hw]
  have hoff' : off ≤ (content blk (ino i)).length := by simpa using hoff
  refine list_ext_getD ?_ fun k hk => ?_
  · rw [content_length, resized_size hend, hsize, List.length_take, overlay_length hoff', hlen,
      content_length]
    omega
  · rw [content_length] at hk
    rw [content_getD _ _ hk, (h.resized_bytes hend hoff hk).2.2]
    rw [resized_size hend, hsize] at hk
    have htake : ∀ (l : List UInt8) {m j : Nat}, j < m → (l.take m).getD j 0 = l.getD j 0 := by
      intro l m j hj
      rw [List.getD_eq_getElem?_getD, List.getElem?_take, if_pos hj, List.getD_eq_getElem?_getD]
    rw [htake _ (by rw [content_length]; exact hk), getD_overlay hoff', hlen]
    split
    · rw [htake _ (by omega)]
    · rw [content_getD _ _ (by omega)]

end written

/-- `writei` on a file without holes, and why it ends. -/
theorem writei_ends (hg : Geometry sb) (hc : Consistent sb d) (hi : Live sb (dinode sb d) i)
    (src : List UInt8) {off n : Nat} (hoff : off ≤ (dinode sb d i).size.toNat)
    (hmax : off + n ≤ MAXFILE * BSIZE) :
    ∃ tot w d' din' new, writei sb d i (dinode sb d i) src off n = .ok ⟨(tot : Nat), d', din'⟩ ∧
      Consistent sb d' ∧ dinode sb d' i = din' ∧
      (∀ j < sb.ninodes, j ≠ i → dinode sb d' j = dinode sb d j) ∧
      Wrote (node sb d i) src off n new tot w ∧
      node sb d' = Function.update (node sb d) i new ∧
      Ending off n src.length (dinode sb d i).size.toNat tot w := by
  have hM : MAXFILE * BSIZE = 274432 := rfl
  have hsize : (dinode sb d i).size.toNat < 2 ^ 32 := UInt32.toNat_lt _
  obtain ⟨r, w, hloop, hroff, hrn, hrsrc, hend', hwritten⟩ := writeLoop_ends hg hi
    (.start hc.owns (hc.mapped i hi)) (Nat.zero_le n) (Nat.zero_le src.length) (Nat.le_refl _) hmax (.inl rfl)
  have hw := hend'.stored
  rw [Nat.add_zero, Nat.sub_zero] at hloop
  have hend : off + r.tot < 2 ^ 32 := by omega
  obtain ⟨hc', hnode⟩ := hc.writeback hg hi.1 (hwritten.resized_owns (off + r.tot)) hwritten.low
    hwritten.untouched fun _ => hwritten.resized_mapped hend hoff
  refine ⟨r.tot, w, _, resized r.din (off + r.tot), _, ?_, hc', by rw [dinode_iupdate, if_pos rfl],
    fun j hj hji => ?_, ⟨?_, hmax, hrn, hrsrc, hw, rfl⟩, ?_, hend'⟩
  · rw [writei, if_neg (by omega), if_neg (by omega), hloop, ← hroff]
    rfl
  · rw [dinode_iupdate, if_neg hji]
    exact dinode_congr hg hwritten.low hj
  · rw [node_of_live hi, content_length]
    exact hoff
  · have ht : (resized r.din (off + r.tot)).type ≠ 0 := by
      rw [resized_fields, hwritten.fields]
      exact hi.2
    rw [hnode, nodeOf, if_neg ht, node_of_live hi,
      hwritten.resized_content hend hoff (by omega) (by omega), resized_fields, hwritten.fields]

/-- `writei` on a file without holes. -/
theorem writei_node (hg : Geometry sb) (hc : Consistent sb d) (hi : Live sb (dinode sb d) i)
    (src : List UInt8) {off n : Nat} (hoff : off ≤ (dinode sb d i).size.toNat)
    (hmax : off + n ≤ MAXFILE * BSIZE) :
    ∃ tot w d' din' new, writei sb d i (dinode sb d i) src off n = .ok ⟨(tot : Nat), d', din'⟩ ∧
      Consistent sb d' ∧ dinode sb d' i = din' ∧
      (∀ j < sb.ninodes, j ≠ i → dinode sb d' j = dinode sb d j) ∧
      Wrote (node sb d i) src off n new tot w ∧
      node sb d' = Function.update (node sb d) i new := by
  obtain ⟨tot, w, d', din', new, hwritei, hc', hdin, hothers, hwrote, hnode, -⟩ := writei_ends hg hc hi src hoff hmax
  exact ⟨tot, w, d', din', new, hwritei, hc', hdin, hothers, hwrote, hnode⟩

end Xv6.Inode
