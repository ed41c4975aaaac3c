import Xv6.Inode.Image

/-!
# mkfs and the kernel agree on the layout of files

Images are built by `ialloc` and `iappend` of mkfs, in any order, and read by `readi` of
the kernel. The one range that `readi` does not deliver is one whose end does not fit in
32 bits: it returns 0 for it, which is the kernel's check for overflow.
-/
namespace Xv6.Guarantees.FileLayout

open Xv6.Source Xv6.Source.Fs Xv6.Source.Mkfs Xv6.Inode

/-- Images that mkfs builds, and the chunks it has appended to each inode. -/
inductive Made : Image → (Nat → List (List UInt8)) → Prop
  | blank : Made blank fun _ => []
  | ialloc {img img' : Image} {chunks : Nat → List (List UInt8)} {type : Int16} {inum : Nat} :
    Made img chunks → type ≠ 0 → img.freeinode < NINODES →
    Mkfs.ialloc img type = .ok (inum, img') → Made img' chunks
  | iappend {img img' : Image} {chunks : Nat → List (List UInt8)} {inum : Nat} {chunk : List UInt8} :
    Made img chunks → 1 ≤ inum → inum < img.freeinode → iappend img inum chunk = .ok img' →
    Made img' (Function.update chunks inum (chunks inum ++ [chunk]))

/-- The image as the kernel reads it. -/
def image (img : Image) : Disk := ⟨img.sect, []⟩

/-- The bitmap holds no part of a file. -/
theorem sameFile_image {img : Image} (h : Built img) {i : Nat}
    (hi : Live Mkfs.sb (dinode Mkfs.sb (disk img)) i) :
    SameFile (disk img).block (image img).block (dinode Mkfs.sb (disk img) i) := by
  have hblk : ∀ b, IsData Mkfs.sb b → (image img).block b = (disk img).block b :=
    fun b hb => (blocks_eq hb).symm
  have hslot : ∀ s, slotAddr (image img).block (dinode Mkfs.sb (disk img) i) s =
      slotAddr (disk img).block (dinode Mkfs.sb (disk img) i) s :=
    slotAddr_congr fun hne => hblk _ (h.consistent.owns.inData i .indirect hi hne)
  exact fun s => ⟨hslot s, fun hs => hblk _ (h.consistent.owns.inData i s hi hs)⟩

theorem dinode_image {img : Image} {i : Nat} (hi : i < NINODES) :
    dinode Mkfs.sb (image img) i = dinode Mkfs.sb (disk img) i := by
  have hlt : IBLOCK i Mkfs.sb < Mkfs.sb.bmapstart := IBLOCK_lt geometry_mkfs hi
  rw [dinode, dinode, disk_block, blocks, Function.update_of_ne (Nat.ne_of_lt hlt)]
  rfl

/-- What holds of every image that mkfs builds. -/
theorem Made.built {img : Image} {chunks : Nat → List (List UInt8)} (h : Made img chunks) :
    Built img ∧ 1 ≤ img.freeinode ∧ img.freeinode ≤ NINODES ∧
    (∀ i, img.freeinode ≤ i → chunks i = []) ∧
    ∀ i, (node Mkfs.sb (disk img) i).data = (chunks i).flatten := by
  induction h with
  | blank =>
    refine ⟨built_blank, Nat.le_refl _, by decide, fun _ _ => rfl, fun i => ?_⟩
    rw [node_of_not_live]
    · rfl
    · rintro ⟨hi, ht⟩
      rw [dinode_blank hi] at ht
      exact ht rfl
  | @ialloc img img' chunks type inum _ ht hlt hal ih =>
    obtain ⟨hb, h1, -, hnone, hdata⟩ := ih
    obtain ⟨img₂, hal₂, hb₂, hfi, -, hnode⟩ := ialloc_spec hb h1 hlt ht
    obtain ⟨rfl, rfl⟩ : inum = img.freeinode ∧ img' = img₂ := by
      rw [hal] at hal₂
      exact Prod.mk.inj (Except.ok.inj hal₂)
    refine ⟨hb₂, by omega, by omega, fun i hi => hnone i (by omega), fun i => ?_⟩
    rw [hnode, Function.update_apply]
    split
    · next hi => rw [hnone i hi.ge]; rfl
    · exact hdata i
  | @iappend img img' chunks inum chunk _ h1 hlt happ ih =>
    obtain ⟨hb, hfree, hle, hnone, hdata⟩ := ih
    have hlive := (hb.live inum (Nat.lt_of_lt_of_le hlt hle)).mpr ⟨h1, hlt⟩
    obtain ⟨hyes, hno⟩ := iappend_spec hb hlive chunk rfl
    by_cases hfit : Fits img (node Mkfs.sb (disk img) inum).data.length
        ((node Mkfs.sb (disk img) inum).data.length + chunk.length)
    · obtain ⟨img₂, happ₂, hb₂, hfi, -, hnode⟩ := hyes hfit
      obtain rfl : img' = img₂ := Except.ok.inj (happ.symm.trans happ₂)
      refine ⟨hb₂, by omega, by omega, fun i hi => ?_, fun i => ?_⟩
      · rw [Function.update_of_ne (by omega)]
        exact hnone i (by omega)
      · rw [hnode, Function.update_apply, Function.update_apply]
        split
        · next hi => simp [hdata inum]
        · exact hdata i
    · obtain ⟨e, he⟩ := hno hfit
      rw [happ] at he
      cases he

/-- The slice that a read of `n` bytes at `off` is to deliver. -/
def slice (bytes : List UInt8) (off n : Nat) : List UInt8 := (bytes.drop off).take n

theorem take_readable (bytes : List UInt8) {off n : Nat} (h : off + n < 2 ^ 32) :
    (bytes.drop off).take (readable bytes.length off n) = slice bytes off n ∧
    readable bytes.length off n = (slice bytes off n).length := by
  have hmod : (off + n) % 2 ^ 32 = off + n := Nat.mod_eq_of_lt h
  unfold readable slice
  rw [hmod, List.length_take, List.length_drop]
  split
  · next hcase =>
    have hoff : bytes.length < off := by omega
    constructor
    · rw [List.drop_eq_nil_of_le (by omega)]
      simp
    · omega
  · split
    · constructor
      · rw [← List.length_drop, List.take_length, List.take_of_length_le (by rw [List.length_drop]; omega)]
      · omega
    · exact ⟨rfl, by omega⟩

/-- `readi` on an image that mkfs built, whatever the range. -/
theorem readi_image {img : Image} {chunks : Nat → List (List UInt8)} (h : Made img chunks)
    {inum : Nat} (h1 : 1 ≤ inum) (hlt : inum < img.freeinode) (off n : UInt32) :
    (dinode Mkfs.sb (image img) inum).size.toNat = (chunks inum).flatten.length ∧
    readi Mkfs.sb (fun _ _ => true) (image img) (dinode Mkfs.sb (image img) inum) off.toNat n.toNat =
      .ok ⟨readable (chunks inum).flatten.length off.toNat n.toNat,
        ((chunks inum).flatten.drop off.toNat).take
          (readable (chunks inum).flatten.length off.toNat n.toNat),
        image img, dinode Mkfs.sb (image img) inum⟩ := by
  obtain ⟨hb, -, hle, -, hdata⟩ := h.built
  have hin : inum < NINODES := Nat.lt_of_lt_of_le hlt hle
  have hlive := (hb.live inum hin).mpr ⟨h1, hlt⟩
  have hsame := sameFile_image hb hlive
  have hmap := hb.consistent.mapped inum hlive
  have hcontent : content (image img).block (dinode Mkfs.sb (disk img) inum) = (chunks inum).flatten := by
    rw [hsame.content_eq hmap, ← hdata inum, node_of_live hlive]
  have hsize : (dinode Mkfs.sb (disk img) inum).size.toNat = (chunks inum).flatten.length := by
    rw [← hcontent, content_length]
  rw [dinode_image hin]
  obtain ⟨ret, bytes, hread, hval⟩ := readi_spec (hsame.mapped hmap) off.toNat (UInt32.toNat_lt n)
  obtain ⟨rfl, rfl⟩ := hval fun _ _ => rfl
  refine ⟨hsize, ?_⟩
  rw [hread, hsize, hcontent]

/-- The kernel reads back what mkfs has appended: `readi` returns the slice of the chunks, one
behind the other, the inode's size is their length, and `iappend` takes every further chunk
that fits in the file and in the image. -/
theorem readi_returns_chunks {img : Image} {chunks : Nat → List (List UInt8)}
    (h : Made img chunks) {inum : Nat} (h1 : 1 ≤ inum) (hlt : inum < img.freeinode) :
    (dinode Mkfs.sb (image img) inum).size.toNat = (chunks inum).flatten.length ∧
    (∀ off n : UInt32, off.toNat + n.toNat < 2 ^ 32 →
      readi Mkfs.sb (fun _ _ => true) (image img) (dinode Mkfs.sb (image img) inum) off.toNat n.toNat =
        .ok ⟨(slice (chunks inum).flatten off.toNat n.toNat).length,
          slice (chunks inum).flatten off.toNat n.toNat, image img, dinode Mkfs.sb (image img) inum⟩) ∧
    ∀ chunk : List UInt8, ((chunks inum).flatten ++ chunk).length ≤ MAXFILE * BSIZE →
      img.freeblock + blocksFor ((chunks inum).flatten ++ chunk).length ≤
        FSSIZE + blocksFor (chunks inum).flatten.length →
      ∃ img', iappend img inum chunk = .ok img' := by
  refine ⟨(readi_image h h1 hlt 0 0).1, fun off n hend => ?_, fun chunk hmax hroom => ?_⟩
  · obtain ⟨htake, hret⟩ := take_readable (chunks inum).flatten hend
    rw [(readi_image h h1 hlt off n).2, htake, hret]
  · obtain ⟨hb, -, hle, -, hdata⟩ := h.built
    have hlive := (hb.live inum (Nat.lt_of_lt_of_le hlt hle)).mpr ⟨h1, hlt⟩
    rw [List.length_append] at hmax hroom
    obtain ⟨img', happ, -⟩ := (iappend_spec hb hlive chunk (congrArg List.length (hdata inum))).1
      ⟨hmax, hroom⟩
    exact ⟨img', happ⟩

/-- The chunks of inode 1 in an image with one file. -/
def oneFile (chunks : List (List UInt8)) : Nat → List (List UInt8) :=
  Function.update (fun _ => []) 1 chunks

/-- mkfs can make one file of two bytes, in one chunk. -/
theorem made_two_bytes : ∃ img, Made img (oneFile [[7, 8]]) ∧ 1 < img.freeinode := by
  obtain ⟨img₁, hal, hb, hfi, hfb, hnode⟩ := ialloc_spec built_blank (Nat.le_refl 1) (by decide)
    (show T_FILE ≠ 0 by decide)
  have hmade : Made img₁ fun _ => [] := .ialloc .blank (by decide) (by decide) hal
  have hlt : 1 < img₁.freeinode := by
    rw [hfi]
    decide
  have hlive := (hb.live 1 (by decide)).mpr ⟨Nat.le_refl 1, hlt⟩
  have hlen : (node Mkfs.sb (disk img₁) 1).data.length = 0 := by
    rw [hnode]
    rfl
  obtain ⟨img₂, happ, -, hfi₂, -⟩ := (iappend_spec hb hlive [7, 8] hlen).1
    ⟨by decide, by rw [hfb]; decide⟩
  exact ⟨img₂, .iappend hmade (Nat.le_refl 1) hlt happ, hfi₂ ▸ hlt⟩

theorem readi_returns_two_bytes : ∃ img, Made img (oneFile [[7, 8]]) ∧
    readi Mkfs.sb (fun _ _ => true) (image img) (dinode Mkfs.sb (image img) 1) 1 5 =
      .ok ⟨1, [8], image img, dinode Mkfs.sb (image img) 1⟩ := by
  obtain ⟨img, hmade, hlt⟩ := made_two_bytes
  exact ⟨img, hmade, (readi_returns_chunks hmade (Nat.le_refl 1) hlt).2.1 1 5 (by decide)⟩

/-- Byte 1 of a file of two bytes is not delivered when the range asked for ends at 2 ^ 32. -/
theorem readi_wrapped_range : ∃ img, Made img (oneFile [[7, 8]]) ∧
    readi Mkfs.sb (fun _ _ => true) (image img) (dinode Mkfs.sb (image img) 1) 1 (2 ^ 32 - 1) =
      .ok ⟨0, [], image img, dinode Mkfs.sb (image img) 1⟩ ∧
    slice [7, 8] 1 (2 ^ 32 - 1) = [8] := by
  obtain ⟨img, hmade, hlt⟩ := made_two_bytes
  have hn : (UInt32.ofNat (2 ^ 32 - 1)).toNat = 2 ^ 32 - 1 := by decide
  have hnone : readable (oneFile [[7, 8]] 1).flatten.length 1 (2 ^ 32 - 1) = 0 := by decide
  have hread := (readi_image hmade (Nat.le_refl 1) hlt 1 (UInt32.ofNat (2 ^ 32 - 1))).2
  rw [hn, show UInt32.toNat 1 = 1 from rfl, hnone] at hread
  exact ⟨img, hmade, hread, rfl⟩

end Xv6.Guarantees.FileLayout
