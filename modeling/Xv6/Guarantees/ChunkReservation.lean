import Xv6.Inode.Content
import Xv6.Source.Sysfile

/-!
# A chunk of a write fits its log reservation

`filewrite` cuts a write into chunks, each in an operation of its own. A chunk touches at most four
blocks of the file, and four only if it starts inside a block, which is then there. Every other
block may be new and mark a block of the bitmap; the indirect block may be new too. With the inode
this makes MAXOPBLOCKS.
-/
namespace Xv6.Guarantees.ChunkReservation

open Xv6.Source Xv6.Source.Fs Xv6.Source.Sysfile Xv6.Inode

variable {sb : Superblock} {d d₁ d₂ : Disk} {din din₁ : Dinode} {F G : Finset Nat}

/-- The blocks given to `log_write` on the way from `d` to `d₁` are in `F`. -/
def Adds (d d₁ : Disk) (F : Finset Nat) : Prop := ∃ new, d₁.logged = new ++ d.logged ∧ ∀ b ∈ new, b ∈ F

theorem Adds.refl (d : Disk) (F : Finset Nat) : Adds d d F := ⟨[], rfl, nofun⟩

theorem Adds.mono (h : Adds d d₁ F) (hle : F ⊆ G) : Adds d d₁ G := by
  obtain ⟨new, hnew, hmem⟩ := h
  exact ⟨new, hnew, fun b hb => hle (hmem b hb)⟩

theorem Adds.trans (h₁ : Adds d d₁ F) (h₂ : Adds d₁ d₂ F) : Adds d d₂ F := by
  obtain ⟨new₁, hnew₁, hmem₁⟩ := h₁
  obtain ⟨new₂, hnew₂, hmem₂⟩ := h₂
  refine ⟨new₂ ++ new₁, by rw [hnew₂, hnew₁, List.append_assoc], fun b hb => ?_⟩
  exact (List.mem_append.mp hb).elim (hmem₂ b) (hmem₁ b)

theorem Adds.logWrite (h : Adds d d₁ F) {b : Nat} (hb : b ∈ F) : Adds d (d₁.logWrite b) F := by
  refine h.trans ⟨[b], rfl, fun c hc => ?_⟩
  rw [List.mem_singleton.mp hc]
  exact hb

theorem Adds.store (h : Adds d d₁ F) (b : Nat) (data : Block) : Adds d (d₁.store b data) F := h

/-! ## A block of the file -/

/-- A new block is logged, and the block of the bitmap that has its bit. -/
theorem balloc_adds (sb : Superblock) (d : Disk) :
    ∃ bp, Adds d (balloc sb d).2 {bp, (balloc sb d).1} ∧ (balloc sb d).1 < max sb.size 1 := by
  unfold balloc
  split
  · exact ⟨0, .refl d _, by simp⟩
  · rename_i b bi hfound
    refine ⟨BBLOCK b sb, ((Adds.refl d _).logWrite (by simp)).logWrite (by simp), ?_⟩
    obtain ⟨b', hb', hmap⟩ := List.exists_of_findSome?_eq_some hfound
    obtain ⟨bi', hbit, heq⟩ := Option.map_eq_some_iff.mp hmap
    cases heq
    have := List.find?_some hbit
    simp only [Bool.and_eq_true, decide_eq_true_eq] at this
    show b + bi < _
    omega

/-- The indirect block, if there is one. -/
def indirect (din : Dinode) : Finset Nat := if din.addr NDIRECT = 0 then ∅ else {din.addr NDIRECT}

theorem indirect_card (din : Dinode) : (indirect din).card ≤ 1 := by
  unfold indirect
  split <;> simp

theorem mem_indirect {din : Dinode} (h : din.addr NDIRECT ≠ 0) : din.addr NDIRECT ∈ indirect din := by
  rw [indirect, if_neg h]
  exact Finset.mem_singleton_self _

/-- What `bmap` logs besides the indirect block, and the block that is found. -/
structure Found (d d₁ : Disk) (din din₁ : Dinode) (addr : Nat) (F : Finset Nat) : Prop where
  adds : Adds d d₁ (indirect din₁ ∪ F)
  addr : addr ≠ 0 → addr ∈ F
  card : F.card + (if din₁.addr NDIRECT = 0 then 1 else 0) ≤ 2 + if din.addr NDIRECT = 0 then 1 else 0
  kept : din.addr NDIRECT ≠ 0 → din₁.addr NDIRECT = din.addr NDIRECT

theorem found_same {addr : Nat} : Found d d din din addr {addr} where
  adds := .refl d _
  addr := fun _ => Finset.mem_singleton_self addr
  card := by
    rw [Finset.card_singleton]
    omega
  kept := fun _ => rfl

theorem card_pair_le (a b : Nat) : ({a, b} : Finset Nat).card ≤ 2 := Finset.card_le_two

/-- A block is allocated for a slot other than that of the indirect block. -/
theorem found_new {bp a : Nat} (h : Adds d d₁ {bp, a}) (hsame : din₁.addr NDIRECT = din.addr NDIRECT) :
    Found d d₁ din din₁ a {bp, a} where
  adds := h.mono Finset.subset_union_right
  addr := fun _ => by simp
  card := by
    have := card_pair_le bp a
    rw [hsame]
    omega
  kept := fun _ => hsame

/-- The part of `bmap` behind the load of the indirect block. -/
def entry (sb : Superblock) (d : Disk) (din : Dinode) (ind k : Nat) : Kernel (Nat × Disk × Dinode) :=
  if ((d.block ind).getInt k).toNat = 0 then
    if (balloc sb d).1 = 0 then .ok (0, (balloc sb d).2, din)
    else .ok ((balloc sb d).1, ((balloc sb d).2.store ind (((balloc sb d).2.block ind).setInt k
      (UInt32.ofNat (balloc sb d).1))).logWrite ind, din)
  else .ok (((d.block ind).getInt k).toNat, d, din)

theorem entry_found (sb : Superblock) (d : Disk) {din : Dinode} (hind : din.addr NDIRECT ≠ 0) (k : Nat) :
    ∃ addr d₁ F, entry sb d din (din.addr NDIRECT) k = .ok (addr, d₁, din) ∧ Found d d₁ din din addr F := by
  obtain ⟨bp, hadds, -⟩ := balloc_adds sb d
  unfold entry
  split
  · split
    · rename_i hzero
      rw [hzero] at hadds
      exact ⟨0, _, {bp, 0}, rfl, found_new hadds rfl⟩
    · have hfound : Found d (balloc sb d).2 din din (balloc sb d).1 {bp, (balloc sb d).1} := found_new hadds rfl
      exact ⟨_, _, {bp, (balloc sb d).1}, rfl, { hfound with
        adds := (hfound.adds.store _ _).logWrite (Finset.mem_union_left _ (mem_indirect hind)) }⟩
  · exact ⟨_, d, _, rfl, found_same⟩

theorem bmap_found_direct (sb : Superblock) (d : Disk) (din : Dinode) {bn : Nat} (hbn : bn < NDIRECT) :
    ∃ addr d₁ din₁ F, bmap sb d din bn = .ok (addr, d₁, din₁) ∧ Found d d₁ din din₁ addr F := by
  obtain ⟨bp, hadds, -⟩ := balloc_adds sb d
  rw [bmap, if_pos hbn]
  split
  · dsimp only
    split
    · rename_i hzero
      rw [hzero] at hadds
      exact ⟨0, _, din, {bp, 0}, rfl, found_new hadds rfl⟩
    · refine ⟨_, _, _, _, rfl, found_new hadds ?_⟩
      unfold Dinode.addr Dinode.setAddr
      rw [dif_pos (by decide)]
      dsimp only
      rw [if_neg (by omega)]
      rfl
  · exact ⟨_, d, din, _, rfl, found_same⟩

theorem bmap_found_indirect (hsize : sb.size < 2 ^ 32) (d : Disk) (din : Dinode) {bn : Nat} (hbn : ¬ bn < NDIRECT)
    (hmax : bn < MAXFILE) :
    ∃ addr d₁ din₁ F, bmap sb d din bn = .ok (addr, d₁, din₁) ∧ Found d d₁ din din₁ addr F := by
  have hlt : bn - NDIRECT < NINDIRECT := by
    unfold MAXFILE at hmax
    omega
  obtain ⟨bp, hadds, hbound⟩ := balloc_adds sb d
  by_cases hind : din.addr NDIRECT = 0
  · by_cases hzero : (balloc sb d).1 = 0
    · rw [hzero] at hadds
      refine ⟨0, (balloc sb d).2, din, {bp, 0}, ?_, found_new hadds rfl⟩
      simp [bmap, if_neg hbn, if_pos hlt, hind, hzero]
    · -- the indirect block is new, and so is the block of the bitmap for it
      let din₁ := din.setAddr NDIRECT (balloc sb d).1
      have hset : din₁.addr NDIRECT = (balloc sb d).1 :=
        (Dinode.addr_setAddr din (by omega) (by decide) NDIRECT).trans (if_pos rfl)
      have hne : din₁.addr NDIRECT ≠ 0 := by rwa [hset]
      obtain ⟨addr, d₁, F, hentry, hfound⟩ := entry_found sb (balloc sb d).2 hne (bn - NDIRECT)
      refine ⟨addr, d₁, din₁, insert bp F, ?_, ?_, fun h => Finset.mem_insert_of_mem (hfound.addr h), ?_,
        fun h => absurd hind h⟩
      · rw [hset] at hentry
        rw [← hentry]
        simp only [bmap, if_neg hbn, if_pos hlt, if_pos hind, if_neg hzero]
        rfl
      · refine Adds.trans (hadds.mono ?_) (hfound.adds.mono ?_)
        · refine Finset.insert_subset (Finset.mem_union_right _ (Finset.mem_insert_self _ _))
            (Finset.singleton_subset_iff.mpr (Finset.mem_union_left _ ?_))
          rw [← hset]
          exact mem_indirect hne
        · exact Finset.union_subset_union_right (Finset.subset_insert _ _)
      · have hcard := hfound.card
        have := Finset.card_insert_le bp F
        simp only [if_neg hne, if_pos hind] at hcard ⊢
        omega
  · obtain ⟨addr, d₁, F, hentry, hfound⟩ := entry_found sb d hind (bn - NDIRECT)
    refine ⟨addr, d₁, din, F, ?_, hfound⟩
    rw [← hentry]
    simp only [bmap, if_neg hbn, if_pos hlt, if_neg hind]
    rfl

theorem bmap_logs (hsize : sb.size < 2 ^ 32) (d : Disk) (din : Dinode) {bn : Nat} (hmax : bn < MAXFILE) :
    ∃ addr d₁ din₁ F, bmap sb d din bn = .ok (addr, d₁, din₁) ∧ Found d d₁ din din₁ addr F := by
  by_cases hbn : bn < NDIRECT
  · exact bmap_found_direct sb d din hbn
  · exact bmap_found_indirect hsize d din hbn hmax

/-! ## The loop -/

/-- How many blocks of the file `n` bytes from `off` on lie in. -/
def touched (off n : Nat) : Nat := if n = 0 then 0 else (off % BSIZE + n - 1) / BSIZE + 1

theorem touched_round (off : Nat) {n : Nat} (hn : 0 < n) :
    touched (off + min n (BSIZE - off % BSIZE)) (n - min n (BSIZE - off % BSIZE)) + 1 = touched off n := by
  rw [touched, touched, if_neg (Nat.pos_iff_ne_zero.mp hn)]
  unfold BSIZE
  by_cases hlast : n ≤ 1024 - off % 1024
  · rw [Nat.min_eq_left hlast, Nat.sub_self, if_pos rfl]
    omega
  · rw [Nat.min_eq_right (by omega), if_neg (by omega)]
    omega

/-- What the loop logs besides the indirect block. -/
structure Writes (d : Disk) (din : Dinode) (w : WriteLoop) (bound : Nat) (F : Finset Nat) : Prop where
  adds : Adds d w.disk (indirect w.din ∪ F)
  card : F.card + (if w.din.addr NDIRECT = 0 then 1 else 0) ≤ bound + if din.addr NDIRECT = 0 then 1 else 0
  kept : din.addr NDIRECT ≠ 0 → w.din.addr NDIRECT = din.addr NDIRECT

theorem writes_nothing (hd : d₂.logged = d.logged) (din : Dinode) (tot off bound : Nat) :
    Writes d din ⟨tot, off, d₂, din⟩ bound ∅ where
  adds := ⟨[], hd, nofun⟩
  card := by
    rw [Finset.card_empty]
    dsimp only
    omega
  kept := fun _ => rfl

/-- The last round, which fails behind `bmap`. -/
theorem Found.writes {addr tot off : Nat} (h : Found d d₁ din din₁ addr F) (hd : d₂.logged = d₁.logged) :
    Writes d din ⟨tot, off, d₂, din₁⟩ 2 F where
  adds := by
    obtain ⟨new, hnew, hmem⟩ := h.adds
    exact ⟨new, hd.trans hnew, hmem⟩
  card := h.card
  kept := h.kept

theorem indirect_subset {din din₁ : Dinode} (h : din.addr NDIRECT ≠ 0 → din₁.addr NDIRECT = din.addr NDIRECT) :
    indirect din ⊆ indirect din₁ := by
  by_cases hz : din.addr NDIRECT = 0
  · rw [indirect, if_pos hz]
    exact Finset.empty_subset _
  · have hne : din₁.addr NDIRECT ≠ 0 := by rwa [h hz]
    rw [indirect, indirect, if_neg hz, if_neg hne, h hz]

/-- A round, and the rounds behind it. -/
theorem Writes.round {addr b : Nat} {data : Block} {w : WriteLoop} {bound : Nat} (hf : Found d d₁ din din₁ addr F)
    (haddr : addr ≠ 0) (hw : Writes ((d₁.store b data).logWrite addr) din₁ w bound G) :
    Writes d din w (bound + 2) (F ∪ G) where
  adds := by
    have hsub : indirect din₁ ∪ F ⊆ indirect w.din ∪ (F ∪ G) :=
      Finset.union_subset_union (indirect_subset hw.kept) Finset.subset_union_left
    have hfirst : Adds d ((d₁.store b data).logWrite addr) (indirect w.din ∪ (F ∪ G)) :=
      ((hf.adds.mono hsub).store b data).logWrite (hsub (Finset.mem_union_right _ (hf.addr haddr)))
    exact hfirst.trans (hw.adds.mono (Finset.union_subset_union_right Finset.subset_union_right))
  card := by
    have h1 := hf.card
    have h2 := hw.card
    have := Finset.card_union_le F G
    omega
  kept := fun h => by
    have h1 := hf.kept h
    rw [← h1] at h ⊢
    exact hw.kept h

/-- The rounds behind one whose block is there. -/
theorem Writes.round_mapped {addr b : Nat} {data : Block} {w : WriteLoop} {bound : Nat}
    (hw : Writes ((d.store b data).logWrite addr) din w bound G) : Writes d din w (bound + 1) (insert addr G) where
  adds := by
    have hfirst : Adds d ((d.store b data).logWrite addr) (indirect w.din ∪ insert addr G) :=
      ((Adds.refl d _).store b data).logWrite (Finset.mem_union_right _ (Finset.mem_insert_self _ _))
    exact hfirst.trans (hw.adds.mono (Finset.union_subset_union_right (Finset.subset_insert _ _)))
  card := by
    have := hw.card
    have := Finset.card_insert_le addr G
    omega
  kept := hw.kept

theorem Writes.mono {w : WriteLoop} {bound bound' : Nat} (h : Writes d din w bound F) (hle : bound ≤ bound') :
    Writes d din w bound' F := by
  refine { h with card := ?_ }
  have := h.card
  omega

/-- The loop of `writei` logs two blocks for each block of the file that it touches. -/
theorem writeLoop_logs (hsize : sb.size < 2 ^ 32) (src : List UInt8) (n rounds off tot : Nat) (d : Disk) (din : Dinode)
    (hend : off + (n - tot) ≤ MAXFILE * BSIZE) :
    ∃ w F, writeLoop sb src n rounds off tot d din = .ok w ∧ Writes d din w (2 * touched off (n - tot)) F := by
  induction rounds generalizing off tot d din with
  | zero => exact ⟨_, ∅, rfl, writes_nothing rfl din tot off _⟩
  | succ rounds ih =>
    rw [writeLoop]
    by_cases htot : tot < n
    · have hbn : off / BSIZE < MAXFILE := Nat.div_lt_of_lt_mul (by rw [Nat.mul_comm]; omega)
      obtain ⟨addr, d₁, din₁, F, hbmap, hfound⟩ := bmap_logs hsize d din hbn
      have hround := touched_round off (show 0 < n - tot by omega)
      have htwo : 2 ≤ 2 * touched off (n - tot) := by omega
      simp only [if_pos htot, hbmap, bind, Except.bind]
      by_cases haddr : addr = 0
      · rw [if_pos haddr]
        exact ⟨_, F, rfl, (hfound.writes rfl).mono htwo⟩
      · rw [if_neg haddr]
        split
        · refine ⟨_, F, rfl, Writes.mono (Found.writes hfound ?_) htwo⟩
          rfl
        · obtain ⟨w, G, hloop, hw⟩ := ih (off + min (n - tot) (BSIZE - off % BSIZE))
            (tot + min (n - tot) (BSIZE - off % BSIZE)) _ din₁ (by omega)
          refine ⟨w, F ∪ G, hloop, (Writes.round hfound haddr hw).mono ?_⟩
          rw [Nat.sub_add_eq]
          omega
    · rw [if_neg htot]
      exact ⟨_, ∅, rfl, writes_nothing rfl din tot off _⟩

/-- If the first block is there, one block less. -/
theorem writeLoop_logs_mapped (hsize : sb.size < 2 ^ 32) (src : List UInt8) {n : Nat} (rounds off : Nat) (d : Disk) (din : Dinode)
    (hend : off + n ≤ MAXFILE * BSIZE) (hn : 0 < n) (hblock : blockOf d.block din (off / BSIZE) ≠ 0) :
    ∃ w F, writeLoop sb src n (rounds + 1) off 0 d din = .ok w ∧ Writes d din w (2 * touched off n - 1) F := by
  have hbn : off / BSIZE < MAXFILE := Nat.div_lt_of_lt_mul (by rw [Nat.mul_comm]; omega)
  have hround := touched_round off hn
  rw [writeLoop]
  simp only [if_pos hn, bmap_found hbn hblock, bind, Except.bind, if_neg hblock]
  split
  · refine ⟨_, ∅, rfl, writes_nothing ?_ din 0 off _⟩
    rfl
  · obtain ⟨w, G, hloop, hw⟩ := writeLoop_logs hsize src n rounds (off + min (n - 0) (BSIZE - off % BSIZE))
      (0 + min (n - 0) (BSIZE - off % BSIZE)) _ din (by omega)
    refine ⟨w, _, hloop, hw.round_mapped.mono ?_⟩
    rw [Nat.sub_add_eq, Nat.sub_zero]
    omega

/-- The loop for a chunk: at most seven blocks of the file and the bitmap, and one more for a new
indirect block. -/
theorem writeLoop_chunk (hsize : sb.size < 2 ^ 32) (src : List UInt8) (n off : Nat) (d : Disk) (hmapped : Mapped d.block din)
    (hoff : off ≤ din.size.toNat) (hend : off + n ≤ MAXFILE * BSIZE) (hn : n ≤ maxWrite) :
    ∃ w F, writeLoop sb src n n off 0 d din = .ok w ∧ Writes d din w 7 F := by
  have hmax : maxWrite = 3072 := by decide
  rw [hmax] at hn
  by_cases hin : off % BSIZE = 0 ∨ n = 0
  · obtain ⟨w, F, hloop, hw⟩ := writeLoop_logs hsize src n n off 0 d din (by omega)
    refine ⟨w, F, hloop, hw.mono ?_⟩
    rw [Nat.sub_zero]
    unfold touched
    unfold BSIZE at *
    split <;> omega
  · -- the chunk starts inside a block, which lies below the end of the file
    have hlt : off / BSIZE * BSIZE < din.size.toNat := by
      unfold BSIZE at *
      omega
    obtain ⟨rounds, rfl⟩ : ∃ rounds, n = rounds + 1 := ⟨n - 1, by omega⟩
    obtain ⟨w, F, hloop, hw⟩ := writeLoop_logs_mapped hsize src rounds off d din hend (by omega)
      (hmapped _ hlt).2
    refine ⟨w, F, hloop, hw.mono ?_⟩
    unfold touched
    unfold BSIZE at *
    rw [if_neg (by omega)]
    omega

/-- A chunk of `filewrite`, of any file without holes at any offset, gives at most MAXOPBLOCKS distinct
blocks to `log_write`. -/
theorem chunk_fits_reservation (sb : Superblock) (hsize : sb.size < 2 ^ 32) (d : Disk) (inum : Nat) (din : Dinode)
    (hmapped : Mapped d.block din) (src : List UInt8) (total i : Nat) (off : UInt32) :
    ∃ r new, writei sb d inum din (src.drop i) off.toNat (min (total - i) maxWrite) = .ok r ∧
      r.disk.logged = new ++ d.logged ∧ new.toFinset.card ≤ MAXOPBLOCKS := by
  have hchunk : min (total - i) maxWrite ≤ maxWrite := Nat.min_le_right _ _
  have hmax : maxWrite = 3072 := by decide
  generalize min (total - i) maxWrite = n at hchunk
  rw [writei]
  split
  · exact ⟨_, [], rfl, rfl, by decide⟩
  · rename_i hoff
    split
    · exact ⟨_, [], rfl, rfl, by decide⟩
    · rename_i hend
      have hlt := off.toNat_lt
      have hfile : MAXFILE * BSIZE = 274432 := by decide
      obtain ⟨w, F, hloop, hw⟩ := writeLoop_chunk hsize (src.drop i) n off.toNat d hmapped (by omega) (by omega) hchunk
      simp only [hloop, bind, Except.bind]
      -- the inode comes last
      obtain ⟨new, hnew, hmem⟩ : Adds d (iupdate sb w.disk inum (if w.off > w.din.size.toNat then
          { w.din with size := UInt32.ofNat w.off } else w.din)) (insert (IBLOCK inum sb) (indirect w.din ∪ F)) :=
        Adds.logWrite (Adds.store (hw.adds.mono (Finset.subset_insert _ _)) _ _) (Finset.mem_insert_self _ _)
      refine ⟨_, new, rfl, hnew, ?_⟩
      have hsub : new.toFinset ⊆ insert (IBLOCK inum sb) (indirect w.din ∪ F) := fun b hb =>
        hmem b (List.mem_toFinset.mp hb)
      have h1 := Finset.card_le_card hsub
      have h2 := Finset.card_insert_le (IBLOCK inum sb) (indirect w.din ∪ F)
      have h3 := Finset.card_union_le (indirect w.din) F
      have h4 := indirect_card w.din
      have h5 := hw.card
      have hop : MAXOPBLOCKS = 10 := rfl
      rw [hop]
      split at h5 <;> split at h5 <;> omega

/-- The first chunk of 5000 bytes for a new file, on a disk with two blocks of bitmap. -/
theorem chunk_fits_reservation_new_file :
    ∃ r new, writei ⟨16000, 15000, 200, 30, 2, 32, 45⟩ ⟨fun _ => .zero, []⟩ 2 (.fresh T_FILE) (List.replicate 5000 7) 0 maxWrite =
        .ok r ∧ r.disk.logged = new ++ [] ∧ new.toFinset.card ≤ MAXOPBLOCKS :=
  chunk_fits_reservation _ (by decide) ⟨fun _ => .zero, []⟩ 2 (.fresh T_FILE) (fun bn hbn => absurd hbn (Nat.not_lt_zero _))
    (List.replicate 5000 7) 5000 0 0

end Xv6.Guarantees.ChunkReservation
