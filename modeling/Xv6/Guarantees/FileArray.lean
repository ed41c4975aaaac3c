import Xv6.Guarantees.FileLayout

/-!
# A file is an array of bytes

On a disk whose bitmap and inodes agree and whose files have no holes, `writei` that returns all
of `n` has laid the bytes over the file's content, `readi` returns slices of it, `itrunc` leaves an
empty file, and none of them touches another inode.
-/
namespace Xv6.Guarantees.FileArray

open Xv6.Source Xv6.Source.Fs Xv6.Inode Xv6.Guarantees.FileLayout

variable {sb : Superblock} {d d' : Disk} {din : Dinode} {i : Nat}

/-- Reads of the inode see the array `bytes`, cut at its end. -/
def ReadsAs (sb : Superblock) (d : Disk) (din : Dinode) (bytes : List UInt8) : Prop :=
  din.size.toNat = bytes.length ∧ ∀ off n, off + n < 2 ^ 32 →
    readi sb (fun _ _ => true) d din off n = .ok ⟨(slice bytes off n).length, slice bytes off n, d, din⟩

/-- Every other inode has the fields and the content it had. -/
def OthersKept (sb : Superblock) (i : Nat) (d d' : Disk) : Prop :=
  ∀ j < sb.ninodes, j ≠ i → dinode sb d' j = dinode sb d j ∧
    ((dinode sb d j).type ≠ 0 → ∀ bytes, ReadsAs sb d (dinode sb d j) bytes → ReadsAs sb d' (dinode sb d' j) bytes)

theorem readsAs_content (hmap : Mapped d.block din) : ReadsAs sb d din (content d.block din) := by
  refine ⟨(content_length d.block din).symm, fun off n hend => ?_⟩
  obtain ⟨ret, bytes, hread, hval⟩ := readi_spec hmap off (show n < 2 ^ 32 by omega)
  obtain ⟨rfl, rfl⟩ := hval fun _ _ => rfl
  obtain ⟨htake, hret⟩ := take_readable (content d.block din) hend
  rw [content_length] at htake hret
  rw [hread, htake, hret]

/-- Reads determine the content. -/
theorem ReadsAs.eq_content {bytes : List UInt8} (hmap : Mapped d.block din) (h : ReadsAs sb d din bytes) :
    bytes = content d.block din := by
  have hsize := h.1
  have hlt : din.size.toNat < 2 ^ 32 := UInt32.toNat_lt _
  have hread := (h.2 0 din.size.toNat (by omega)).symm.trans ((readsAs_content hmap).2 0 din.size.toNat (by omega))
  have hbytes := congrArg ReadResult.bytes (Except.ok.inj hread)
  have hwhole : ∀ l : List UInt8, l.length = din.size.toNat → slice l 0 din.size.toNat = l := by
    intro l hl
    rw [slice, List.drop_zero, ← hl, List.take_length]
  rwa [hwhole _ hsize.symm, hwhole _ (content_length _ _)] at hbytes

theorem content_eq_data (hi : Live sb (dinode sb d) i) : content d.block (dinode sb d i) = (node sb d i).data := by
  rw [node_of_live hi]

theorem readsAs_node (hc : Consistent sb d) (hi : Live sb (dinode sb d) i) :
    ReadsAs sb d (dinode sb d i) (node sb d i).data := by
  rw [← content_eq_data hi]
  exact readsAs_content (hc.mapped i hi)

theorem othersKept_of_node {new : Node} (hc : Consistent sb d) (hc' : Consistent sb d')
    (hdin : ∀ j < sb.ninodes, j ≠ i → dinode sb d' j = dinode sb d j)
    (hnode : node sb d' = Function.update (node sb d) i new) : OthersKept sb i d d' := by
  refine fun j hj hji => ⟨hdin j hj hji, fun ht bytes hbytes => ?_⟩
  have hlive : Live sb (dinode sb d) j := ⟨hj, ht⟩
  have hlive' : Live sb (dinode sb d') j := ⟨hj, by rw [hdin j hj hji]; exact ht⟩
  have hsame : node sb d' j = node sb d j := by rw [hnode, Function.update_of_ne hji]
  have heq := hbytes.eq_content (hc.mapped j hlive)
  rw [content_eq_data hlive, ← hsame] at heq
  rw [heq]
  exact readsAs_node hc' hlive'

/-- All bytes that `writei` has counted lie over the old content. -/
theorem Wrote.data_of_all {old new : Node} {src : List UInt8} {off n w : Nat} (h : Wrote old src off n new n w) :
    new.data = overlay old.data off (src.take n) := by
  have hw : w = n := by
    have := h.stored
    omega
  have hlen : (src.take n).length = n := by
    rw [List.length_take]
    exact Nat.min_eq_left h.tot_src
  rw [h.node, hw]
  refine List.take_of_length_le ?_
  rw [overlay_length h.off_le, hlen]

/-- A `writei` that returns all of `n`. -/
theorem writei_all (hg : Geometry sb) (hc : Consistent sb d) (hi : Live sb (dinode sb d) i) {src : List UInt8}
    {off n : Nat} {din' : Dinode} (hoff : off ≤ (dinode sb d i).size.toNat) (hmax : off + n ≤ MAXFILE * BSIZE)
    (hret : writei sb d i (dinode sb d i) src off n = .ok ⟨n, d', din'⟩) :
    ReadsAs sb d' din' (overlay (content d.block (dinode sb d i)) off (src.take n)) ∧ n ≤ src.length ∧
      OthersKept sb i d d' := by
  obtain ⟨tot, w, d₁, din₁, new, hwritei, hc₁, hdin₁, hothers, hwrote, hnode⟩ := writei_node hg hc hi src hoff hmax
  rw [hret] at hwritei
  obtain ⟨htot, rfl, rfl⟩ := WriteResult.mk.inj (Except.ok.inj hwritei)
  obtain rfl : n = tot := by exact_mod_cast htot
  have hnew : node sb d' i = new := by rw [hnode, Function.update_self]
  have hlive : Live sb (dinode sb d') i := by
    rw [live_iff, hnew, hwrote.node]
    exact live_iff.1 hi
  refine ⟨?_, hwrote.tot_src, othersKept_of_node hc hc₁ hothers hnode⟩
  rw [content_eq_data hi, ← Wrote.data_of_all hwrote, ← hnew, ← hdin₁]
  exact readsAs_node hc₁ hlive

theorem file_is_byte_array (hg : Geometry sb) (hc : Consistent sb d) (hi : Live sb (dinode sb d) i) :
    (∀ (src : List UInt8) (off n : Nat) (d' : Disk) (din' : Dinode), off ≤ (dinode sb d i).size.toNat →
      off + n ≤ MAXFILE * BSIZE → writei sb d i (dinode sb d i) src off n = .ok ⟨n, d', din'⟩ →
      din'.size.toNat = max (dinode sb d i).size.toNat (off + n) ∧
      ReadsAs sb d' din' (overlay (content d.block (dinode sb d i)) off (src.take n)) ∧ OthersKept sb i d d') ∧
    ∃ d' din', itrunc sb d i (dinode sb d i) = .ok (d', din') ∧ din'.size = 0 ∧ ReadsAs sb d' din' [] ∧
      OthersKept sb i d d' ∧ ∀ (src : List UInt8) (n : Nat) (d'' : Disk) (din'' : Dinode), n ≤ MAXFILE * BSIZE →
        writei sb d' i din' src 0 n = .ok ⟨n, d'', din''⟩ → ReadsAs sb d'' din'' (src.take n) := by
  refine ⟨fun src off n d' din' hoff hmax hret => ?_, ?_⟩
  · obtain ⟨hreads, hlen, hothers⟩ := writei_all hg hc hi hoff hmax hret
    refine ⟨?_, hreads, hothers⟩
    rw [hreads.1, overlay_length (by rw [content_length]; exact hoff), content_length, List.length_take,
      Nat.min_eq_left hlen]
  · obtain ⟨d₁, htrunc, hc₁, hdin₁, hothers, hnode⟩ := itrunc_node hg hc hi
    have hlive : Live sb (dinode sb d₁) i := ⟨hi.1, by rw [hdin₁]; exact hi.2⟩
    have hempty : (node sb d₁ i).data = [] := by rw [hnode, Function.update_self]
    refine ⟨d₁, _, htrunc, rfl, ?_, othersKept_of_node hc hc₁ hothers hnode, ?_⟩
    · rw [← hempty, ← hdin₁]
      exact readsAs_node hc₁ hlive
    · intro src n d'' din'' hmax hret
      rw [← hdin₁] at hret
      have hreads := (writei_all hg hc₁ hlive (Nat.zero_le _) (by omega) hret).1
      rwa [content_eq_data hlive, hempty, overlay, List.take_nil, List.nil_append, List.drop_nil,
        List.append_nil] at hreads

/-- A disk that mkfs has made, with a file of two bytes. -/
theorem disk_of_two_bytes : ∃ d, Consistent Mkfs.sb d ∧ Live Mkfs.sb (dinode Mkfs.sb d) 1 ∧
    content d.block (dinode Mkfs.sb d 1) = [7, 8] := by
  obtain ⟨img, hmade, hlt⟩ := made_two_bytes
  obtain ⟨hb, -, hle, -, hdata⟩ := hmade.built
  have hlive := (hb.live 1 (Nat.lt_of_lt_of_le hlt hle)).mpr ⟨Nat.le_refl 1, hlt⟩
  refine ⟨disk img, hb.consistent, hlive, ?_⟩
  rw [content_eq_data hlive, hdata 1]
  rfl

/-- One byte is written over the second of two. -/
theorem one_byte_over_two : ∃ d d' din', Consistent Mkfs.sb d ∧ Live Mkfs.sb (dinode Mkfs.sb d) 1 ∧
    content d.block (dinode Mkfs.sb d 1) = [7, 8] ∧
    writei Mkfs.sb d 1 (dinode Mkfs.sb d 1) [9] 1 1 = .ok ⟨1, d', din'⟩ := by
  obtain ⟨d, hc, hi, hcontent⟩ := disk_of_two_bytes
  have hsize : (dinode Mkfs.sb d 1).size.toNat = 2 := by rw [← content_length d.block, hcontent]; rfl
  obtain ⟨tot, w, d', din', new, hwritei, -, -, -, hwrote, -, hend⟩ := writei_ends geometry_mkfs hc hi [9]
    (show 1 ≤ (dinode Mkfs.sb d 1).size.toNat by omega) (show 1 + 1 ≤ MAXFILE * BSIZE by decide)
  have htot : tot = 1 := by
    have := hwrote.tot_le
    cases hend with
    | done tot_eq => exact tot_eq
    | unreadable w_eq tot_le w_lt => simp at w_eq; omega
    | full w_eq behind =>
      simp only [BSIZE] at behind
      omega
  subst htot
  exact ⟨d, d', din', hc, hi, hcontent, hwritei⟩

theorem file_is_byte_array_two_bytes : ∃ d d' din', content d.block (dinode Mkfs.sb d 1) = [7, 8] ∧
    writei Mkfs.sb d 1 (dinode Mkfs.sb d 1) [9] 1 1 = .ok ⟨1, d', din'⟩ ∧ ReadsAs Mkfs.sb d' din' [7, 9] := by
  obtain ⟨d, d', din', hc, hi, hcontent, hwritei⟩ := one_byte_over_two
  have hsize : (dinode Mkfs.sb d 1).size.toNat = 2 := by rw [← content_length d.block, hcontent]; rfl
  refine ⟨d, d', din', hcontent, hwritei, ?_⟩
  have hreads := ((file_is_byte_array geometry_mkfs hc hi).1 [9] 1 1 d' din' (by omega) (by decide) hwritei).2.1
  rwa [hcontent] at hreads

end Xv6.Guarantees.FileArray
