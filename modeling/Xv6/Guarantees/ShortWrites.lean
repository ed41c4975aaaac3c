import Xv6.Guarantees.FileArray

/-!
# What a short write leaves behind

`writei` copies from the user straight into the buffer of a block. Where the source cannot be read
to the end of the chunk, `copyin` has stored the bytes before the first bad address; `writei` does
not count them, but they are in the file. The rest of the file is as before if and only if these
bytes lie behind its old end or are the ones it had.
-/
namespace Xv6.Guarantees.ShortWrites

open Xv6.Source Xv6.Source.Fs Xv6.Inode Xv6.Guarantees.FileLayout Xv6.Guarantees.FileArray

variable {sb : Superblock} {d d' : Disk} {din : Dinode} {i : Nat}

/-- Byte `k` of the file, as `readi` returns it. -/
def readBack (sb : Superblock) (d : Disk) (din : Dinode) (k : Nat) : Option (List UInt8) :=
  (readi sb (fun _ _ => true) d din k 1).toOption.map ReadResult.bytes

/-- A call that returns `ret`, less than `n`, has changed no byte but those it reports. -/
def KeepsRest (sb : Superblock) (d : Disk) (din : Dinode) (d' : Disk) (din' : Dinode) (off n : Nat) (ret : Int) :
    Prop :=
  ret < n → ∀ k < din.size.toNat, ¬ (off ≤ k ∧ (k : Int) < off + ret) → readBack sb d' din' k = readBack sb d din k

/-- The bytes of the source in the block where it stops being readable, as far as they lie in the
file, are the ones that the file has there. -/
def StopsHarmless (blk : Nat → Block) (din : Dinode) (src : List UInt8) (off n : Nat) : Prop :=
  off ≤ din.size.toNat → off + n ≤ MAXFILE * BSIZE → src.length < n → ∀ k < din.size.toNat, off ≤ k →
    k < off + src.length → k / BSIZE = (off + src.length) / BSIZE → src.getD (k - off) 0 = byteAt blk din k

theorem readBack_of_readsAs {bytes : List UInt8} (h : ReadsAs sb d din bytes) {k : Nat} (hk : k < bytes.length) :
    readBack sb d din k = some [bytes.getD k 0] := by
  have hlt : din.size.toNat < 2 ^ 32 := UInt32.toNat_lt _
  have hone : slice bytes k 1 = [bytes.getD k 0] := by
    rw [slice, List.drop_eq_getElem_cons hk, List.take_succ_cons, List.take_zero, List.getD_eq_getElem _ _ hk]
  rw [readBack, h.2 k 1 (by have := h.1; omega), hone]
  rfl

theorem readBack_node (hc : Consistent sb d) (hi : Live sb (dinode sb d) i) {k : Nat}
    (hk : k < (node sb d i).data.length) : readBack sb d (dinode sb d i) k = some [(node sb d i).data.getD k 0] :=
  readBack_of_readsAs (readsAs_node hc hi) hk

/-- The bytes of the old file after `writei`, and why it has ended. -/
theorem writei_bytes (hg : Geometry sb) (hc : Consistent sb d) (hi : Live sb (dinode sb d) i) (src : List UInt8)
    {off n : Nat} (hoff : off ≤ (dinode sb d i).size.toNat) (hmax : off + n ≤ MAXFILE * BSIZE) :
    ∃ (tot w : Nat) (d' : Disk) (din' : Dinode), writei sb d i (dinode sb d i) src off n = .ok ⟨tot, d', din'⟩ ∧
      tot ≤ src.length ∧ Ending off n src.length (dinode sb d i).size.toNat tot w ∧
      ∀ k < (dinode sb d i).size.toNat,
        readBack sb d (dinode sb d i) k = some [byteAt d.block (dinode sb d i) k] ∧
        readBack sb d' din' k = some [if off ≤ k ∧ k < off + w then src.getD (k - off) 0
          else byteAt d.block (dinode sb d i) k] := by
  obtain ⟨tot, w, d', din', new, hwritei, hc', rfl, -, hwrote, hnode, hend⟩ := writei_ends hg hc hi src hoff hmax
  refine ⟨tot, w, d', _, hwritei, hwrote.tot_src, hend, fun k hk => ?_⟩
  have hlen : (node sb d i).data.length = (dinode sb d i).size.toNat := by
    rw [← content_eq_data hi, content_length]
  have hold : (node sb d i).data.getD k 0 = byteAt d.block (dinode sb d i) k := by
    rw [← content_eq_data hi, content_getD _ _ hk]
  have hnew : node sb d' i = new := by rw [hnode, Function.update_self]
  have hlive : Live sb (dinode sb d') i := by
    rw [live_iff, hnew, hwrote.node]
    exact live_iff.1 hi
  have hw : w ≤ src.length := by
    have := hwrote.stored
    have := hwrote.tot_src
    omega
  have htake : (src.take w).length = w := by rw [List.length_take, Nat.min_eq_left hw]
  have hdata : (node sb d' i).data.getD k 0 =
      if off ≤ k ∧ k < off + w then src.getD (k - off) 0 else byteAt d.block (dinode sb d i) k := by
    rw [hnew, hwrote.node, List.getD_eq_getElem?_getD, List.getElem?_take, if_pos (by omega),
      ← List.getD_eq_getElem?_getD, getD_overlay hwrote.off_le, htake, hold]
    refine ite_congr rfl (fun hin => ?_) fun _ => rfl
    rw [List.getD_eq_getElem?_getD, List.getElem?_take, if_pos (by omega), List.getD_eq_getElem?_getD]
  have hlen' : k < (node sb d' i).data.length := by
    rw [hnew, hwrote.node]
    dsimp only
    rw [List.length_take, overlay_length hwrote.off_le]
    omega
  rw [readBack_node hc hi (by omega), readBack_node hc' hlive hlen', hold, hdata]
  exact ⟨rfl, rfl⟩

theorem writei_keeps_rest_iff (hg : Geometry sb) (hc : Consistent sb d) (hi : Live sb (dinode sb d) i)
    (src : List UInt8) (off n : UInt32) :
    ∃ ret d' din', writei sb d i (dinode sb d i) src off.toNat n.toNat = .ok ⟨ret, d', din'⟩ ∧
      (KeepsRest sb d (dinode sb d i) d' din' off.toNat n.toNat ret ↔
        StopsHarmless d.block (dinode sb d i) src off.toNat n.toNat) := by
  by_cases hrange : off.toNat ≤ (dinode sb d i).size.toNat ∧ off.toNat + n.toNat ≤ MAXFILE * BSIZE
  · obtain ⟨tot, w, d', din', hwritei, htot, hend, hbytes⟩ := writei_bytes hg hc hi src hrange.1 hrange.2
    refine ⟨tot, d', din', hwritei, ?_, ?_⟩
    · intro hkeeps _ _ hshort k hk hle hlt hblock
      cases hend with
      | done tot_eq => omega
      | unreadable w_eq tot_le w_lt block start =>
        -- the byte is in the chunk that could not be read to its end
        have hin : off.toNat + tot ≤ k := by
          simp only [BSIZE] at hblock block start
          omega
        have hsame := hkeeps (by omega) k hk (by omega)
        rw [(hbytes k hk).1, (hbytes k hk).2, if_pos (by omega)] at hsame
        exact (List.cons.inj (Option.some.inj hsame)).1
      | full w_eq behind =>
        simp only [BSIZE] at hblock behind
        omega
    · intro hstops hret k hk hout
      rw [(hbytes k hk).1, (hbytes k hk).2]
      split
      · next hin =>
        cases hend with
        | done tot_eq => omega
        | unreadable w_eq tot_le w_lt block start =>
          have hblock : k / BSIZE = (off.toNat + src.length) / BSIZE := by
            simp only [BSIZE] at block ⊢
            omega
          rw [hstops hrange.1 hrange.2 (by omega) k hk hin.1 (by omega) hblock]
        | full w_eq behind => omega
      · rfl
  · refine ⟨-1, d, dinode sb d i, writei_refused hrange (UInt32.toNat_lt n), fun _ h1 h2 => absurd ⟨h1, h2⟩ hrange, ?_⟩
    intro _ _ _ _ _
    rfl

/-- Nothing of the source can be read, and nothing changes. -/
theorem writei_keeps_rest_unreadable : ∃ d ret d' din', content d.block (dinode Mkfs.sb d 1) = [7, 8] ∧
    writei Mkfs.sb d 1 (dinode Mkfs.sb d 1) [] 0 2 = .ok ⟨ret, d', din'⟩ ∧
    KeepsRest Mkfs.sb d (dinode Mkfs.sb d 1) d' din' 0 2 ret := by
  obtain ⟨d, hc, hi, hcontent⟩ := disk_of_two_bytes
  obtain ⟨ret, d', din', hwritei, hiff⟩ := writei_keeps_rest_iff geometry_mkfs hc hi [] 0 2
  refine ⟨d, ret, d', din', hcontent, hwritei, hiff.2 fun _ _ _ k _ _ hlt _ => ?_⟩
  exact absurd hlt (Nat.not_lt_zero k)

/-- One byte of the source can be read, and the second is at a bad address: the call returns 0 and
the first byte of the file has changed. -/
theorem writei_changes_unreported_byte : ∃ d d' din',
    content d.block (dinode Mkfs.sb d 1) = [7, 8] ∧
    writei Mkfs.sb d 1 (dinode Mkfs.sb d 1) [9] 0 2 = .ok ⟨0, d', din'⟩ ∧
    readBack Mkfs.sb d (dinode Mkfs.sb d 1) 0 = some [7] ∧ readBack Mkfs.sb d' din' 0 = some [9] := by
  obtain ⟨d, hc, hi, hcontent⟩ := disk_of_two_bytes
  have hsize : (dinode Mkfs.sb d 1).size.toNat = 2 := by rw [← content_length d.block, hcontent]; rfl
  obtain ⟨tot, w, d', din', hwritei, htot, hend, hbytes⟩ := writei_bytes geometry_mkfs hc hi [9] (Nat.zero_le _)
    (show 0 + 2 ≤ MAXFILE * BSIZE by decide)
  rw [hsize] at hend hbytes
  have hres : tot = 0 ∧ w = 1 := by
    rw [List.length_singleton] at htot hend
    cases hend with
    | done tot_eq => omega
    | unreadable w_eq tot_le w_lt block start =>
      simp only [BSIZE] at start
      omega
    | full w_eq behind =>
      simp only [BSIZE] at behind
      omega
  obtain ⟨rfl, rfl⟩ := hres
  obtain ⟨hold, hnew⟩ := hbytes 0 (by decide)
  have hbyte : byteAt d.block (dinode Mkfs.sb d 1) 0 = 7 := by
    rw [← content_getD _ _ (by omega), hcontent]
    rfl
  rw [hbyte] at hold hnew
  exact ⟨d, d', din', hcontent, hwritei, hold, hnew⟩

end Xv6.Guarantees.ShortWrites
