import Xv6.Inode.Blocks

/-!
# The content of an inode

A file is the bytes of its blocks, in order, up to its size. `readi` returns a part of
them and leaves the disk alone; `writei` lays the bytes it is given over them.
-/
namespace Xv6.Inode

open Xv6.Source Xv6.Source.Fs

/-- Byte `k` of the file. -/
def byteAt (blk : Nat → Block) (din : Dinode) (k : Nat) : UInt8 :=
  (blk (blockOf blk din (k / BSIZE))).get (k % BSIZE)

/-- The `n` bytes from offset `off`. -/
def bytesAt (blk : Nat → Block) (din : Dinode) (off n : Nat) : List UInt8 :=
  (List.range n).map fun j => byteAt blk din (off + j)

def content (blk : Nat → Block) (din : Dinode) : List UInt8 := bytesAt blk din 0 din.size.toNat

/-- Every block below the inode's size is there. -/
def Mapped (blk : Nat → Block) (din : Dinode) : Prop :=
  ∀ bn, bn * BSIZE < din.size.toNat → bn < MAXFILE ∧ blockOf blk din bn ≠ 0

theorem Mapped.byte {blk : Nat → Block} {din : Dinode} (h : Mapped blk din) {k : Nat}
    (hk : k < din.size.toNat) : k / BSIZE < MAXFILE ∧ blockOf blk din (k / BSIZE) ≠ 0 :=
  h _ (Nat.lt_of_le_of_lt (Nat.div_mul_le_self k BSIZE) hk)

@[simp] theorem content_length (blk : Nat → Block) (din : Dinode) :
    (content blk din).length = din.size.toNat := by
  simp [content, bytesAt]

theorem bytesAt_eq {blk : Nat → Block} {din : Dinode} {off n : Nat} (h : off + n ≤ din.size.toNat) :
    bytesAt blk din off n = ((content blk din).drop off).take n := by
  apply List.ext_getElem
  · simp [bytesAt]
    omega
  · intro k h1 h2
    simp [bytesAt, content]

theorem bytesAt_append (blk : Nat → Block) (din : Dinode) (off m n : Nat) :
    bytesAt blk din off m ++ bytesAt blk din (off + m) n = bytesAt blk din off (m + n) := by
  simp [bytesAt, List.range_add, Nat.add_assoc]

/-- Offsets in one block. -/
theorem div_mod_add {off j : Nat} (h : j < BSIZE - off % BSIZE) :
    (off + j) / BSIZE = off / BSIZE ∧ (off + j) % BSIZE = off % BSIZE + j := by
  unfold BSIZE at *
  omega

/-- A part of the file that lies in one block. -/
theorem slice_eq_bytesAt (blk : Nat → Block) (din : Dinode) {off m : Nat}
    (hm : m ≤ BSIZE - off % BSIZE) :
    (blk (blockOf blk din (off / BSIZE))).slice (off % BSIZE) m = bytesAt blk din off m := by
  refine List.map_congr_left fun j hj => ?_
  obtain ⟨hdiv, hmod⟩ := div_mod_add (Nat.lt_of_lt_of_le (List.mem_range.mp hj) hm)
  rw [byteAt, hdiv, hmod]

section readi
variable {sb : Superblock} {d : Disk} {din : Dinode} {copyout : Nat → Nat → Bool}

/-- The loop of `readi` over a part of the file that is there. -/
theorem readLoop_spec (sb : Superblock) (copyout : Nat → Nat → Bool) (start : Nat)
    {n rounds off tot : Nat} {got : List UInt8} (hoff : off = start + tot) (hgot : got = bytesAt d.block din start tot)
    (htot : tot ≤ n) (hrounds : n - tot ≤ rounds)
    (hmap : ∀ k < start + n, k / BSIZE < MAXFILE ∧ blockOf d.block din (k / BSIZE) ≠ 0) :
    ∃ ret bytes, readLoop sb copyout n rounds off tot got d din = .ok ⟨ret, bytes, d, din⟩ ∧
      ((∀ tot m, copyout tot m = true) → ret = n ∧ bytes = bytesAt d.block din start n) := by
  induction rounds generalizing off tot got with
  | zero =>
    have hn : tot = n := by omega
    exact ⟨tot, got, rfl, fun _ => ⟨by rw [hn], by rw [hgot, hn]⟩⟩
  | succ rounds ih =>
    rw [readLoop]
    split
    · next hlt =>
      obtain ⟨hmax, hne⟩ := hmap off (by omega)
      simp only [bmap_found hmax hne, bind, Except.bind, if_neg hne]
      split
      · have hpos : 0 < BSIZE - off % BSIZE := Nat.sub_pos_of_lt (Nat.mod_lt _ (by decide))
        refine ih (by omega) ?_ (by omega) (by omega)
        rw [hgot, slice_eq_bytesAt _ _ (Nat.min_le_right _ _), hoff, bytesAt_append]
      · next hfail =>
        exact ⟨-1, got, rfl, fun hall => absurd (hall _ _) hfail⟩
    · have hn : tot = n := by omega
      exact ⟨tot, got, rfl, fun _ => ⟨by rw [hn], by rw [hgot, hn]⟩⟩

/-- How many bytes `readi` is to deliver. -/
def readable (size off n : Nat) : Nat :=
  if off > size ∨ (off + n) % 2 ^ 32 < off then 0
  else if (off + n) % 2 ^ 32 > size then size - off else n

theorem readable_le {size off n : Nat} (hsize : size < 2 ^ 32) (hn : n < 2 ^ 32)
    (h : ¬ (off > size ∨ (off + n) % 2 ^ 32 < off)) : off + readable size off n ≤ size := by
  unfold readable
  rw [if_neg h]
  split <;> omega

/-- `readi` on a file without holes takes no block, writes nothing and delivers the bytes of
the file, unless they cannot be copied out. -/
theorem readi_spec (h : Mapped d.block din) (off : Nat) {n : Nat} (hn : n < 2 ^ 32) :
    ∃ ret bytes, readi sb copyout d din off n = .ok ⟨ret, bytes, d, din⟩ ∧
      ((∀ tot m, copyout tot m = true) → ret = readable din.size.toNat off n ∧
        bytes = ((content d.block din).drop off).take (readable din.size.toNat off n)) := by
  have hsize : din.size.toNat < 2 ^ 32 := UInt32.toNat_lt _
  by_cases hguard : off > din.size.toNat ∨ (off + n) % 2 ^ 32 < off
  · simp only [readi, readable, if_pos hguard]
    exact ⟨0, [], rfl, fun _ => ⟨rfl, by simp⟩⟩
  · have hle := readable_le hsize hn hguard
    obtain ⟨ret, bytes, hloop, hbytes⟩ := readLoop_spec sb copyout off (Nat.add_zero off).symm
      (show [] = bytesAt d.block din off 0 from rfl) (Nat.zero_le _) (Nat.le_refl _)
      fun k hk => h.byte (Nat.lt_of_lt_of_le hk hle)
    refine ⟨ret, bytes, ?_, fun hall => ?_⟩
    · rw [← hloop]
      simp only [readi, readable, if_neg hguard, Nat.sub_zero]
    · obtain ⟨hret, hb⟩ := hbytes hall
      exact ⟨hret, by rw [hb, bytesAt_eq hle]⟩

end readi

/-- An inode names what it named, and its blocks are as before. -/
def SameFile (blk blk' : Nat → Block) (din : Dinode) : Prop :=
  ∀ s, slotAddr blk' din s = slotAddr blk din s ∧
    (slotAddr blk din s ≠ 0 → blk' (slotAddr blk din s) = blk (slotAddr blk din s))

namespace SameFile

variable {blk blk' : Nat → Block} {din : Dinode}

theorem mapped (h : SameFile blk blk' din) (hmap : Mapped blk din) : Mapped blk' din := by
  intro bn hbn
  obtain ⟨hmax, hne⟩ := hmap bn hbn
  refine ⟨hmax, ?_⟩
  rw [blockOf, (h _).1]
  exact hne

theorem byteAt_eq (h : SameFile blk blk' din) {k : Nat} (hne : blockOf blk din (k / BSIZE) ≠ 0) :
    byteAt blk' din k = byteAt blk din k := by
  obtain ⟨hslot, hblk⟩ := h (fileSlot (k / BSIZE))
  rw [byteAt, blockOf, hslot, hblk hne, byteAt, blockOf]

/-- A byte in a hole is read from block 0. -/
theorem byteAt_eq_of_boot (h : SameFile blk blk' din) (hboot : blk' 0 = blk 0) (k : Nat) :
    byteAt blk' din k = byteAt blk din k := by
  by_cases h0 : blockOf blk din (k / BSIZE) = 0
  · rw [byteAt, blockOf, (h _).1, byteAt, ← blockOf, h0, hboot]
  · exact h.byteAt_eq h0

theorem content_eq (h : SameFile blk blk' din) (hmap : Mapped blk din) :
    content blk' din = content blk din := by
  refine List.map_congr_left fun j hj => h.byteAt_eq ?_
  rw [Nat.zero_add]
  exact (hmap.byte (List.mem_range.mp hj)).2

end SameFile

/-- The live inodes other than `i` have the blocks they had. -/
def Untouched (sb : Superblock) (ino : Nat → Dinode) (i : Nat) (blk blk' : Nat → Block) : Prop :=
  ∀ j, Live sb ino j → j ≠ i → SameFile blk blk' (ino j)

section writei
variable {sb : Superblock} {ino : Nat → Dinode} {x : Set Nat} {i : Nat} {blk blk' : Nat → Block}
  {din' : Dinode}

theorem Owns.marked_slot (h : Owns sb blk ino x) {j : Nat} (hj : Live sb ino j) {s : Slot}
    (hs : slotAddr blk (ino j) s ≠ 0) : marked sb blk (slotAddr blk (ino j) s) = true :=
  (h.marks _ (h.inData j s hj hs)).mpr (.inl ⟨j, s, hj, rfl⟩)

theorem Owns.slot_ne (h : Owns sb blk (Function.update ino i din') x)
    (hi : Live sb (Function.update ino i din') i) {j : Nat}
    (hj : Live sb (Function.update ino i din') j) (hji : j ≠ i) {s : Slot}
    (hs : slotAddr blk (ino j) s ≠ 0) (t : Slot) :
    slotAddr blk (ino j) s ≠ slotAddr blk din' t := by
  intro he
  have honce := h.once j i s t hj hi
  rw [Function.update_of_ne hji, Function.update_self] at honce
  exact hji (honce hs he).1

theorem Grown.untouched (h : Owns sb blk ino x) (hi : Live sb ino i)
    (hg : Grown sb ino x i blk blk' din') : Untouched sb ino i blk blk' := by
  intro j hj hji
  have hlive : ∀ k, Live sb (Function.update ino i din') k ↔ Live sb ino k :=
    fun k => Owns.live_update hg.type_eq
  have hne : ∀ s, slotAddr blk' (ino j) s ≠ 0 → slotAddr blk' (ino j) s ≠ din'.addr NDIRECT :=
    fun s hs => hg.owns.slot_ne ((hlive i).mpr hi) ((hlive j).mpr hj) hji hs .indirect
  have hslot : ∀ s, slotAddr blk' (ino j) s = slotAddr blk (ino j) s := slotAddr_congr fun h0 =>
    hg.keeps.data _ (h.inData j .indirect hj h0) (h.marked_slot hj (s := .indirect) h0)
      (hne .indirect h0)
  intro s
  refine ⟨hslot s, fun hs => hg.keeps.data _ (h.inData j s hj hs) (h.marked_slot hj hs) ?_⟩
  rw [← hslot s] at hs ⊢
  exact hne s hs

/-- The bytes that the file had are as before. -/
theorem Grown.byteAt_eq (h : Owns sb blk ino x) (hi : Live sb ino i)
    (hg : Grown sb ino x i blk blk' din') {k : Nat} (hne : blockOf blk (ino i) (k / BSIZE) ≠ 0) :
    byteAt blk' din' k = byteAt blk (ino i) k := by
  have hslot := hg.slots _ hne
  have hi' : Live sb (Function.update ino i din') i := (Owns.live_update hg.type_eq).mpr hi
  -- the block is marked and is not the indirect block
  have hind : slotAddr blk (ino i) (fileSlot (k / BSIZE)) ≠ din'.addr NDIRECT := by
    intro he
    have honce := hg.owns.once i i (fileSlot (k / BSIZE)) .indirect hi' hi'
    rw [Function.update_self] at honce
    exact fileSlot_ne_indirect _ (honce (hslot.trans_ne hne) (hslot.trans he)).2
  rw [byteAt, blockOf, hslot, hg.keeps.data _ (h.inData i _ hi hne) (h.marked_slot hi hne) hind]
  rfl

/-- What the loop of `writei` has done to inode `i` when it has counted `tot` bytes of `src`
behind `off` and stored `w`. -/
structure Written (sb : Superblock) (ino : Nat → Dinode) (x : Set Nat) (i off : Nat)
    (src : List UInt8) (blk blk' : Nat → Block) (din' : Dinode) (tot w : Nat) : Prop where
  owns : Owns sb blk' (Function.update ino i din') x
  low : ∀ b < sb.bmapstart, blk' b = blk b
  untouched : Untouched sb ino i blk blk'
  fields : din' = { ino i with addrs := din'.addrs }
  bytes : ∀ k, k < (ino i).size.toNat ∨ off ≤ k ∧ k < off + tot →
    k / BSIZE < MAXFILE ∧ blockOf blk' din' (k / BSIZE) ≠ 0 ∧
    byteAt blk' din' k = if off ≤ k ∧ k < off + w then src.getD (k - off) 0
      else byteAt blk (ino i) k

namespace Written

variable {off tot w : Nat} {src : List UInt8}

theorem start (h : Owns sb blk ino x) (hmap : Mapped blk (ino i)) :
    Written sb ino x i off src blk blk (ino i) 0 0 := by
  refine ⟨by rw [Function.update_eq_self]; exact h, fun _ _ => rfl, fun _ _ _ _ => ⟨rfl, fun _ => rfl⟩,
    rfl, fun k hk => ?_⟩
  have hk : k < (ino i).size.toNat := by omega
  obtain ⟨hmax, hne⟩ := hmap.byte hk
  refine ⟨hmax, hne, ?_⟩
  rw [if_neg (by omega)]

theorem type_eq (h : Written sb ino x i off src blk blk' din' tot w) : din'.type = (ino i).type := by
  rw [h.fields]

theorem live (hi : Live sb ino i) (h : Written sb ino x i off src blk blk' din' tot w) :
    Live sb (Function.update ino i din') i := (Owns.live_update h.type_eq).mpr hi

/-- Blocks are added. -/
theorem grow {blk'' : Nat → Block} {din'' : Dinode} (hi : Live sb ino i)
    (h : Written sb ino x i off src blk blk' din' tot w)
    (hg : Grown sb (Function.update ino i din') x i blk' blk'' din'') :
    Written sb ino x i off src blk blk'' din'' tot w := by
  have howns := hg.owns
  have hfields := hg.fields
  have hslots := hg.slots
  have hunt := hg.untouched h.owns (h.live hi)
  rw [Function.update_idem] at howns
  rw [Function.update_self] at hfields hslots
  refine ⟨howns, fun b hb => (hg.keeps.low b hb).trans (h.low b hb), ?_, by rw [hfields, h.fields], ?_⟩
  · intro j hj hji s
    obtain ⟨h1, h2⟩ := h.untouched j hj hji s
    have hunt := hunt j ((Owns.live_update h.type_eq).mpr hj) hji s
    rw [Function.update_of_ne hji] at hunt
    refine ⟨hunt.1.trans h1, fun hs => ?_⟩
    rw [← h2 hs, ← h1]
    exact hunt.2 (h1 ▸ hs)
  · intro k hk
    obtain ⟨hmax, hne, hbyte⟩ := h.bytes k hk
    have hbyte' := hg.byteAt_eq h.owns (h.live hi) (k := k) (by rw [Function.update_self]; exact hne)
    rw [Function.update_self] at hbyte'
    refine ⟨hmax, ?_, hbyte'.trans hbyte⟩
    rw [blockOf, hslots _ hne]
    exact hne

/-- A chunk of the source is stored behind the first `tot` bytes, in one block. -/
theorem store {chunk : List UInt8} {tot' : Nat} (hi : Live sb ino i)
    (h : Written sb ino x i off src blk blk' din' tot tot) (hmax : (off + tot) / BSIZE < MAXFILE)
    (hne : blockOf blk' din' ((off + tot) / BSIZE) ≠ 0)
    (hlen : chunk.length ≤ BSIZE - (off + tot) % BSIZE)
    (hsrc : ∀ j < chunk.length, chunk.getD j 0 = src.getD (tot + j) 0)
    (htot : tot' ≤ tot + chunk.length) :
    Written sb ino x i off src blk (Function.update blk' (blockOf blk' din' ((off + tot) / BSIZE))
      ((blk' (blockOf blk' din' ((off + tot) / BSIZE))).patch ((off + tot) % BSIZE) chunk)) din'
      tot' (tot + chunk.length) := by
  generalize haddr : blockOf blk' din' ((off + tot) / BSIZE) = addr at *
  have hlive : ∀ k, Live sb (Function.update ino i din') k ↔ Live sb ino k :=
    fun k => Owns.live_update h.type_eq
  have hi' := h.live hi
  have hslot : slotAddr blk' (Function.update ino i din' i) (fileSlot ((off + tot) / BSIZE)) = addr := by
    rw [Function.update_self]
    exact haddr
  have hdata : IsData sb addr := hslot ▸ h.owns.inData i _ hi' (hslot ▸ hne)
  -- `addr` is no indirect block
  have hind : ∀ j, Live sb (Function.update ino i din') j →
      (Function.update ino i din' j).addr NDIRECT ≠ addr := by
    intro j hj
    rw [← hslot]
    exact h.owns.indirect_ne hi' (fileSlot_ne_indirect _) (hslot ▸ hne) hj
  generalize hblk : Function.update blk' addr _ = blk''
  have hother : ∀ b, b ≠ addr → blk'' b = blk' b := fun b hb => hblk ▸ Function.update_of_ne hb _ _
  have hslots : ∀ s, slotAddr blk'' din' s = slotAddr blk' din' s := by
    refine slotAddr_congr fun _ => hother _ ?_
    have := hind i hi'
    rwa [Function.update_self] at this
  refine ⟨hblk ▸ h.owns.store hdata hind _, ?_, ?_, h.fields, ?_⟩
  · intro b hb
    rw [hother b (Nat.ne_of_lt (Nat.lt_trans hb hdata.bmapstart_lt)), h.low b hb]
  · intro j hj hji s
    obtain ⟨h1, h2⟩ := h.untouched j hj hji s
    have hne' : ∀ t, slotAddr blk' (ino j) t ≠ 0 → slotAddr blk' (ino j) t ≠ addr := by
      intro t ht
      rw [← haddr]
      exact h.owns.slot_ne hi' ((hlive j).mpr hj) hji ht _
    have hslotj : slotAddr blk'' (ino j) s = slotAddr blk' (ino j) s :=
      slotAddr_congr (fun h0 => hother _ (hne' .indirect h0)) s
    refine ⟨hslotj.trans h1, fun hs => ?_⟩
    rw [← h2 hs, ← h1]
    exact hother _ (hne' s (h1 ▸ hs))
  · intro k hk
    have hblock : ∀ bn, blockOf blk'' din' bn = blockOf blk' din' bn := fun bn => hslots _
    rw [byteAt, hblock]
    by_cases hsame : k / BSIZE = (off + tot) / BSIZE
    · -- the block of the chunk
      rw [hsame, haddr, ← hblk, Function.update_self, Block.get_patch _ _ _ (Nat.mod_lt _ (by decide))]
      refine ⟨hmax, hne, ?_⟩
      have hk1 := Nat.div_add_mod k BSIZE
      have hk2 := Nat.div_add_mod (off + tot) BSIZE
      rw [hsame] at hk1
      by_cases hin : off + tot ≤ k ∧ k < off + tot + chunk.length
      · rw [if_pos (by omega), if_pos (by omega), hsrc _ (by omega)]
        congr 1
        omega
      · have hold : k < (ino i).size.toNat ∨ off ≤ k ∧ k < off + tot := by omega
        obtain ⟨-, -, hbyte⟩ := h.bytes k hold
        rw [byteAt, hsame, haddr] at hbyte
        rw [if_neg (by omega), hbyte]
        by_cases hw : off ≤ k ∧ k < off + tot
        · rw [if_pos hw, if_pos (by omega)]
        · rw [if_neg hw, if_neg (by omega)]
    · have hout : ¬ (off + tot ≤ k ∧ k < off + tot + chunk.length) := by
        rintro ⟨h1, h2⟩
        have := (div_mod_add (show k - (off + tot) < BSIZE - (off + tot) % BSIZE by omega)).1
        rw [Nat.add_sub_cancel' h1] at this
        exact hsame this
      obtain ⟨hkmax, hkne, hbyte⟩ := h.bytes k (by omega)
      have hkaddr : blockOf blk' din' (k / BSIZE) ≠ addr := by
        rw [← haddr]
        intro he
        have honce := h.owns.once i i (fileSlot (k / BSIZE)) (fileSlot ((off + tot) / BSIZE)) hi' hi'
        rw [Function.update_self] at honce
        exact hsame (fileSlot_inj hkmax hmax (honce hkne he).2)
      refine ⟨hkmax, hkne, ?_⟩
      rw [hother _ hkaddr]
      refine hbyte.trans ?_
      by_cases hw : off ≤ k ∧ k < off + tot
      · rw [if_pos hw, if_pos (by omega)]
      · rw [if_neg hw, if_neg (by omega)]

end Written

/-- Why the loop of `writei` ends when it has counted `tot` bytes and stored `w`: all is done; the
source could not be read behind its first `w` bytes, in the block where the next byte goes; or the
disk is full, which only happens behind the old end of the file. -/
inductive Ending (off n len size tot w : Nat) : Prop
  | done (tot_eq : tot = n) (w_eq : w = n)
  | unreadable (w_eq : w = len) (tot_le : tot ≤ w) (w_lt : w < n) (block : (off + tot) / BSIZE = (off + w) / BSIZE)
    (start : tot = 0 ∨ (off + tot) % BSIZE = 0)
  | full (w_eq : w = tot) (behind : size ≤ (off + tot) / BSIZE * BSIZE)

/-- What the loop of `writei` ends with. -/
theorem writeLoop_ends {n off rounds tot : Nat} {src : List UInt8} {d : Disk} (hg : Geometry sb)
    (hi : Live sb ino i) (h : Written sb ino x i off src blk d.block din' tot tot)
    (htot : tot ≤ n) (hsrc : tot ≤ src.length) (hrounds : n - tot ≤ rounds)
    (hmax : off + n ≤ MAXFILE * BSIZE) (hstart : tot = 0 ∨ tot = n ∨ (off + tot) % BSIZE = 0) :
    ∃ r w, writeLoop sb src n rounds (off + tot) tot d din' = .ok r ∧ r.off = off + r.tot ∧
      r.tot ≤ n ∧ r.tot ≤ src.length ∧ Ending off n src.length (ino i).size.toNat r.tot w ∧
      Written sb ino x i off src blk r.disk.block r.din r.tot w := by
  induction rounds generalizing tot d din' with
  | zero =>
    have hall : tot = n := by omega
    exact ⟨⟨tot, off + tot, d, din'⟩, tot, rfl, rfl, htot, hsrc, .done hall hall, h⟩
  | succ rounds ih =>
    rw [writeLoop]
    split
    · next hlt =>
      have hstart' : tot = 0 ∨ (off + tot) % BSIZE = 0 := by omega
      have hbn : (off + tot) / BSIZE < MAXFILE := Nat.div_lt_of_lt_mul (by
        rw [Nat.mul_comm]
        omega)
      obtain ⟨addr, d1, din1, hbmap, hgrown, hfound⟩ := bmap_spec hg h.owns (h.live hi) hbn
      rw [Function.update_self] at hbmap
      have h1 := h.grow hi hgrown
      simp only [hbmap, bind, Except.bind]
      split
      · next hzero =>
        refine ⟨_, tot, rfl, rfl, htot, hsrc, .full rfl (Nat.le_of_not_lt fun hin => ?_), h1⟩
        -- a block below the old size is there, and bmap finds it
        have hne := (h.bytes _ (.inl hin)).2.1
        rw [Nat.mul_div_cancel _ (by decide)] at hne
        have hb := hbmap.symm.trans (bmap_found hbn hne)
        exact hne ((Prod.mk.inj (Except.ok.inj hb)).1.symm.trans hzero)
      · next hne =>
        obtain rfl := hfound hne
        generalize hm : min (n - tot) (BSIZE - (off + tot) % BSIZE) = m
        have hpos : 0 < BSIZE - (off + tot) % BSIZE := Nat.sub_pos_of_lt (Nat.mod_lt _ (by decide))
        generalize hchunk : (src.drop tot).take m = chunk
        have hlen : chunk.length = min m (src.length - tot) := by simp [← hchunk]
        have hget : ∀ j < chunk.length, chunk.getD j 0 = src.getD (tot + j) 0 := by
          intro j hj
          rw [← hchunk] at hj ⊢
          simp only [List.length_take, List.length_drop] at hj
          simp [List.getD_eq_getElem?_getD, List.getElem?_drop, show j < m by omega]
        split
        · next hshort =>
          have hblock := (div_mod_add (show chunk.length < BSIZE - (off + tot) % BSIZE by omega)).1
          refine ⟨_, tot + chunk.length, rfl, rfl, htot, hsrc, .unreadable (by omega) (Nat.le_add_right _ _)
            (by omega) ?_ hstart', h1.store hi hbn hne (by omega) hget (Nat.le_add_right _ _)⟩
          rw [← hblock, Nat.add_assoc]
        · next hfull =>
          have hm' : chunk.length = m := by omega
          have h2 := h1.store hi hbn hne (by omega) hget (Nat.le_refl _)
          rw [hm'] at h2
          have hnext : tot + m = n ∨ (off + (tot + m)) % BSIZE = 0 := by
            simp only [BSIZE] at hm ⊢
            omega
          rw [Nat.add_assoc]
          exact ih (d := (d1.store _ _).logWrite _) h2 (by omega) (by omega) (by omega) (.inr hnext)
    · have hall : tot = n := by omega
      exact ⟨_, tot, rfl, rfl, htot, hsrc, .done hall hall, h⟩

theorem Ending.stored {off n len size tot w : Nat} (h : Ending off n len size tot w) :
    w = tot ∨ w = len ∧ tot ≤ w ∧ w < n := by
  cases h with
  | done tot_eq w_eq => exact .inl (w_eq.trans tot_eq.symm)
  | unreadable w_eq tot_le w_lt => exact .inr ⟨w_eq, tot_le, w_lt⟩
  | full w_eq => exact .inl w_eq

end writei
end Xv6.Inode
