import Xv6.Inode.Directory
import Xv6.Inode.Image

/-!
# The image of mkfs is consistent

For every list of files that fits, mkfs writes an image whose bitmap, blocks and link
counts agree, with two exceptions: the rounding of the root's size leaves a block that is
not there when the entries end at the end of a block, and a file can be installed under
the name `.`, which is not counted as a link.
-/
namespace Xv6.Guarantees.BuiltImage

open Xv6.Source Xv6.Source.Fs Xv6.Source.Mkfs Xv6.Inode

/-- The length of a file. -/
def length (f : File) : Nat := f.chunks.flatten.length

/-- The arguments of mkfs that the image has room for, with the names that the files get. -/
structure Inputs (files : List File) (names : List (List UInt8)) : Prop where
  named : List.Forall₂ (fun f name => shortname f.arg = .ok name) files names
  distinct : names.Nodup
  short : ∀ name ∈ names, name.length ≤ DIRSIZ
  strings : ∀ name ∈ names, 0 ∉ name
  count : files.length < NINODES - 1
  size : ∀ f ∈ files, length f ≤ MAXFILE * BSIZE
  room : nmeta + blocksFor (Dirent.size * (files.length + 2)) +
    (files.map fun f => blocksFor (length f)).sum ≤ FSSIZE

/-- The entries of the root directory. -/
def rootEntries (names : List (List UInt8)) : List Dirent :=
  direntFor 1 dot :: direntFor 1 dotdot :: names.mapIdx fun i name => direntFor (i + 2) name

def rootBytes (names : List (List UInt8)) : List UInt8 := (rootEntries names).flatMap Dirent.bytes

theorem direntFor_name (inum : Nat) (name : List UInt8) : (direntFor inum name).name.length = DIRSIZ := by
  simp [direntFor, nameField]
  omega

theorem rootBytes_append (names : List (List UInt8)) (name : List UInt8) :
    rootBytes (names ++ [name]) = rootBytes names ++ (direntFor (names.length + 2) name).bytes := by
  simp [rootBytes, rootEntries, List.mapIdx_append]

/-- The bytes of a list of entries. -/
theorem entries_flatMap {l : List Dirent} (h : ∀ de ∈ l, de.name.length = DIRSIZ) :
    entries (l.flatMap Dirent.bytes) = l ∧ (l.flatMap Dirent.bytes).length = Dirent.size * l.length := by
  induction l using List.reverseRecOn with
  | nil => exact ⟨rfl, rfl⟩
  | append_singleton l de ih =>
    obtain ⟨hent, hlen⟩ := ih fun d hd => h d (List.mem_append_left _ hd)
    have hde := h de (by simp)
    rw [List.flatMap_append, List.flatMap_singleton]
    constructor
    · rw [entries_append (by rw [hlen, Nat.mul_mod_right]) hde, hent]
    · rw [List.length_append, hlen, Dirent.bytes_length hde, List.length_append]
      rfl

theorem rootEntries_names (names : List (List UInt8)) :
    ∀ de ∈ rootEntries names, de.name.length = DIRSIZ := by
  intro de hde
  simp only [rootEntries, List.mem_cons, List.mem_mapIdx] at hde
  rcases hde with rfl | rfl | ⟨i, _, rfl⟩ <;> exact direntFor_name _ _

theorem rootBytes_length (names : List (List UInt8)) :
    (rootBytes names).length = Dirent.size * (names.length + 2) := by
  rw [rootBytes, (entries_flatMap (rootEntries_names names)).2]
  simp [rootEntries]

/-- The image when the files of `fs` are installed. -/
structure Loaded (fs : List File) (names : List (List UInt8)) (img : Image) : Prop where
  built : Built img
  inodes : img.freeinode = fs.length + 2
  counter : img.freeblock = nmeta + blocksFor (Dirent.size * (fs.length + 2)) +
    (fs.map fun f => blocksFor (length f)).sum
  lengths : names.length = fs.length
  root : node Mkfs.sb (disk img) 1 = ⟨T_DIR, 0, 0, 1, rootBytes names⟩
  files : ∀ j (h : j < fs.length),
    node Mkfs.sb (disk img) (j + 2) = ⟨T_FILE, 0, 0, 1, (fs.get ⟨j, h⟩).chunks.flatten⟩

/-- A round of the loop over the arguments. -/
theorem Loaded.addFile {fs : List File} {names : List (List UInt8)} {img : Image} {f : File}
    {name : List UInt8} (h : Loaded fs names img) (hname : shortname f.arg = .ok name)
    (hcount : fs.length + 2 < NINODES) (hsize : length f ≤ MAXFILE * BSIZE)
    (hroom : nmeta + blocksFor (Dirent.size * (fs.length + 3)) +
      ((fs.map fun f => blocksFor (length f)).sum + blocksFor (length f)) ≤ FSSIZE) :
    ∃ img', Mkfs.addFile 1 img f = .ok img' ∧ Loaded (fs ++ [f]) (names ++ [name]) img' := by
  have hinodes := h.inodes
  have hcounter := h.counter
  have hzero : blocksFor 0 = 0 := by decide
  obtain ⟨img₁, hal, hb₁, hfi₁, hfb₁, hnode₁⟩ := ialloc_spec h.built (by omega) (by omega)
    (show T_FILE ≠ 0 by decide)
  rw [hinodes] at hal hnode₁
  -- the entry in the root directory
  have hlive₁ : Live Mkfs.sb (dinode Mkfs.sb (disk img₁)) 1 :=
    (hb₁.live 1 (by decide)).mpr (by omega)
  have hroot₁ : node Mkfs.sb (disk img₁) 1 = ⟨T_DIR, 0, 0, 1, rootBytes names⟩ := by
    rw [hnode₁, Function.update_of_ne (by omega)]
    exact h.root
  have hlen₁ : (node Mkfs.sb (disk img₁) 1).data.length = Dirent.size * (fs.length + 2) := by
    rw [hroot₁, rootBytes_length, h.lengths]
  have hentry : (direntFor (fs.length + 2) name).bytes.length = Dirent.size :=
    Dirent.bytes_length (direntFor_name _ _)
  have hend : Dirent.size * (fs.length + 2) + Dirent.size = Dirent.size * (fs.length + 3) :=
    (Nat.mul_succ _ _).symm
  obtain ⟨img₂, happ, hb₂, hfi₂, hcount₂, hnode₂⟩ :=
    (iappend_spec hb₁ hlive₁ (direntFor (fs.length + 2) name).bytes hlen₁).1 (by
      rw [hentry, hend]
      refine ⟨?_, by omega⟩
      have hN : NINODES = 200 := rfl
      have hS : Dirent.size = 16 := rfl
      have hM : MAXFILE * BSIZE = 274432 := rfl
      rw [hS, hM]
      omega)
  rw [hentry, hend] at hcount₂
  -- the content of the file
  have hlive₂ : Live Mkfs.sb (dinode Mkfs.sb (disk img₂)) (fs.length + 2) :=
    (hb₂.live _ hcount).mpr (by omega)
  have hnew₂ : node Mkfs.sb (disk img₂) (fs.length + 2) = ⟨T_FILE, 0, 0, 1, []⟩ := by
    rw [hnode₂, Function.update_of_ne (by omega), hnode₁, Function.update_self]
  obtain ⟨img₃, hchunks, hb₃, hfi₃, hcount₃, hnode₃⟩ := iappend_chunks hb₂ hlive₂
    (show _ = 0 by rw [hnew₂]; rfl) (show Fits img₂ 0 (0 + length f) by
      rw [Nat.zero_add]
      exact ⟨hsize, by omega⟩)
  have hcount₃ : img₃.freeblock + blocksFor 0 = img₂.freeblock + blocksFor (0 + length f) := hcount₃
  rw [Nat.zero_add] at hcount₃
  refine ⟨img₃, ?_, hb₃, ?_, ?_, by simp [h.lengths], ?_, ?_⟩
  · simp only [Mkfs.addFile, hname, hal, happ, bind, Except.bind]
    exact hchunks
  · rw [List.length_append, List.length_singleton]
    omega
  · rw [List.length_append, List.length_singleton, List.map_append, List.sum_append,
      List.map_singleton, List.sum_singleton, show fs.length + 1 + 2 = fs.length + 3 from rfl]
    omega
  · rw [hnode₃, Function.update_of_ne (by omega), hnode₂, Function.update_self, hroot₁,
      rootBytes_append, h.lengths]
  · intro j hj
    rw [List.length_append, List.length_singleton] at hj
    rw [hnode₃]
    by_cases hjn : j = fs.length
    · subst hjn
      rw [Function.update_self, hnew₂]
      simp
    · rw [Function.update_of_ne (by omega), hnode₂, Function.update_of_ne (by omega), hnode₁,
        Function.update_of_ne (by omega), h.files j (by omega)]
      simp [List.getElem_append_left (show j < fs.length by omega)]

/-- The loop over the arguments. -/
theorem Loaded.addFiles {fs rest : List File} {names more : List (List UInt8)} {img : Image}
    (h : Loaded fs names img)
    (hnames : List.Forall₂ (fun f name => shortname f.arg = .ok name) rest more)
    (hcount : fs.length + rest.length + 1 < NINODES) (hsize : ∀ f ∈ rest, length f ≤ MAXFILE * BSIZE)
    (hroom : nmeta + blocksFor (Dirent.size * (fs.length + rest.length + 2)) +
      ((fs.map fun f => blocksFor (length f)).sum + (rest.map fun f => blocksFor (length f)).sum) ≤ FSSIZE) :
    ∃ img', rest.foldlM (Mkfs.addFile 1) img = .ok img' ∧ Loaded (fs ++ rest) (names ++ more) img' := by
  induction hnames generalizing fs names img with
  | nil => exact ⟨img, rfl, by simpa using h⟩
  | @cons f name rest more hname _ ih =>
    simp only [List.length_cons, List.map_cons, List.sum_cons] at hcount hroom
    have hmono : blocksFor (Dirent.size * (fs.length + 3)) ≤
        blocksFor (Dirent.size * (fs.length + (rest.length + 1) + 2)) :=
      blocksFor_mono (Nat.mul_le_mul_left _ (by omega))
    obtain ⟨img₁, hadd, h₁⟩ := h.addFile hname (by omega) (hsize f (by simp)) (by omega)
    have hlen : (fs ++ [f]).length = fs.length + 1 := by simp
    obtain ⟨img₂, hrest, h₂⟩ := ih h₁ (by omega) (fun g hg => hsize g (List.mem_cons_of_mem _ hg)) (by
      rw [hlen, List.map_append, List.sum_append, List.map_singleton, List.sum_singleton]
      rw [show fs.length + 1 + rest.length + 2 = fs.length + (rest.length + 1) + 2 by omega]
      omega)
    refine ⟨img₂, ?_, by simpa using h₂⟩
    rw [List.foldlM_cons, hadd]
    exact hrest

/-- The root directory with `.` and `..`. -/
theorem loaded_nil : ∃ img₁ img₂ img₃, Mkfs.ialloc blank T_DIR = .ok (1, img₁) ∧
    iappend img₁ 1 (direntFor 1 dot).bytes = .ok img₂ ∧
    iappend img₂ 1 (direntFor 1 dotdot).bytes = .ok img₃ ∧ Loaded [] [] img₃ := by
  obtain ⟨img₁, hal, hb₁, hfi₁, hfb₁, hnode₁⟩ := ialloc_spec built_blank (Nat.le_refl 1) (by decide)
    (show T_DIR ≠ 0 by decide)
  have hfi₁ : img₁.freeinode = 2 := hfi₁
  have hfb₁ : img₁.freeblock = nmeta := hfb₁
  have hnode₁ : node Mkfs.sb (disk img₁) 1 = ⟨T_DIR, 0, 0, 1, []⟩ := by
    rw [hnode₁]
    rfl
  have hlive₁ := (hb₁.live 1 (by decide)).mpr ⟨Nat.le_refl 1, by omega⟩
  obtain ⟨img₂, happ₂, hb₂, hfi₂, hcount₂, hnode₂⟩ :=
    (iappend_spec hb₁ hlive₁ (direntFor 1 dot).bytes (show _ = 0 by rw [hnode₁]; rfl)).1
      ⟨by decide, by rw [hfb₁]; decide⟩
  have hdata₂ : node Mkfs.sb (disk img₂) 1 = ⟨T_DIR, 0, 0, 1, (direntFor 1 dot).bytes⟩ := by
    rw [hnode₂, Function.update_self, hnode₁]
    rfl
  have hfb₂ : img₂.freeblock = nmeta + 1 := by
    have h0 : blocksFor 0 = 0 := by decide
    have h16 : blocksFor (0 + (direntFor 1 dot).bytes.length) = 1 := by decide
    omega
  have hlive₂ := (hb₂.live 1 (by decide)).mpr ⟨Nat.le_refl 1, by omega⟩
  obtain ⟨img₃, happ₃, hb₃, hfi₃, hcount₃, hnode₃⟩ :=
    (iappend_spec hb₂ hlive₂ (direntFor 1 dotdot).bytes (show _ = 16 by rw [hdata₂]; rfl)).1
      ⟨by decide, by rw [hfb₂]; decide⟩
  refine ⟨img₁, img₂, img₃, hal, happ₂, happ₃, hb₃, by simp; omega, ?_, rfl, ?_, ?_⟩
  · have h16 : blocksFor 16 = 1 := by decide
    have h32 : blocksFor (16 + (direntFor 1 dotdot).bytes.length) = 1 := by decide
    have hr : blocksFor (Dirent.size * (([] : List File).length + 2)) = 1 := by decide
    rw [hr, List.map_nil, List.sum_nil]
    omega
  · rw [hnode₃, Function.update_self, hdata₂]
    rfl
  · intro j hj
    exact absurd hj (Nat.not_lt_zero _)

/-- The size that `main` gives the root. -/
def rounded (size : Nat) : Nat := (size / BSIZE + 1) * BSIZE

/-- The image that `main` writes: the files, then the size of the root, then the bitmap. -/
theorem main_spec {files : List File} {names : List (List UInt8)} (h : Inputs files names) :
    ∃ img out, Loaded files names img ∧ main files = .ok out ∧
      out.sect = (iupdate Mkfs.sb (disk img) 1 { dinode Mkfs.sb (disk img) 1 with
        size := UInt32.ofNat (rounded (dinode Mkfs.sb (disk img) 1).size.toNat) }).block := by
  obtain ⟨img₁, img₂, img₃, hal, hdot, hdotdot, hnil⟩ := loaded_nil
  have hcount := h.count
  obtain ⟨img, hfiles, hloaded⟩ := hnil.addFiles h.named
    (by simp only [List.length_nil]; omega) h.size
    (by simpa only [List.length_nil, Nat.zero_add, List.map_nil, List.sum_nil] using h.room)
  rw [List.nil_append, List.nil_append] at hloaded
  obtain ⟨img', hw, hblk, hfb, -, -⟩ := winode_spec (show 1 < NINODES by decide) hloaded.built.spare
    { dinode Mkfs.sb (disk img) 1 with
      size := UInt32.ofNat (rounded (dinode Mkfs.sb (disk img) 1).size.toNat) }
  have hused : img'.freeblock < BSIZE * 8 := by
    have := hloaded.built.fits
    have : FSSIZE < BSIZE * 8 := by decide
    omega
  refine ⟨img, wsect img' Mkfs.sb.bmapstart (bitmap img'.freeblock), hloaded, ?_, hblk⟩
  have hround : roundRoot img 1 = .ok img' := by
    rw [roundRoot, rinode_eq img (by decide)]
    exact hw
  have hroot : ¬ (1 : Nat) ≠ ROOTINO := by decide
  simp only [main, hal, bind, Except.bind, if_neg hroot, hdot, hdotdot, hfiles, hround, Mkfs.balloc,
    if_pos hused]

/-- The kernel's invariants of an image. -/
structure Sound (d : Disk) : Prop where
  bitmap : ∀ b < Mkfs.sb.size, marked Mkfs.sb d.block b = true ↔
    b < nmeta ∨ Named Mkfs.sb d.block (dinode Mkfs.sb d) b
  below : ∀ i s, Live Mkfs.sb (dinode Mkfs.sb d) i → slotAddr d.block (dinode Mkfs.sb d i) s ≠ 0 →
    slotAddr d.block (dinode Mkfs.sb d i) s < Mkfs.sb.size
  once : ∀ i j s t, Live Mkfs.sb (dinode Mkfs.sb d) i → Live Mkfs.sb (dinode Mkfs.sb d) j →
    slotAddr d.block (dinode Mkfs.sb d i) s ≠ 0 →
    slotAddr d.block (dinode Mkfs.sb d i) s = slotAddr d.block (dinode Mkfs.sb d j) t → i = j ∧ s = t
  holes : ∀ i, Live Mkfs.sb (dinode Mkfs.sb d) i → Mapped d.block (dinode Mkfs.sb d i)
  links : ∀ i, Live Mkfs.sb (dinode Mkfs.sb d) i →
    (dinode Mkfs.sb d i).nlink.toInt = linkCount Mkfs.sb (node Mkfs.sb d) i

/-- The root with its size rounded. -/
def rootOf (img : Image) : Dinode :=
  { dinode Mkfs.sb (disk img) 1 with
    size := UInt32.ofNat (rounded (dinode Mkfs.sb (disk img) 1).size.toNat) }

/-- The disk with that root. -/
def finished (img : Image) : Disk := iupdate Mkfs.sb (disk img) 1 (rootOf img)

section finished
variable {fs : List File} {names : List (List UInt8)} {img : Image}

theorem Loaded.live_root (h : Loaded fs names img) : Live Mkfs.sb (dinode Mkfs.sb (disk img)) 1 :=
  live_iff.mpr (by rw [h.root]; exact show T_DIR ≠ 0 by decide)

theorem Loaded.root_size (h : Loaded fs names img) :
    (dinode Mkfs.sb (disk img) 1).size.toNat = Dirent.size * (fs.length + 2) := by
  have hroot := h.root
  rw [node_of_live h.live_root] at hroot
  rw [← content_length (disk img).block, (Node.mk.inj hroot).2.2.2.2, rootBytes_length, h.lengths]

theorem slotAddr_rootOf (blk : Nat → Block) (img : Image) (s : Slot) :
    slotAddr blk (rootOf img) s = slotAddr blk (dinode Mkfs.sb (disk img) 1) s := by
  cases s <;> rfl

theorem dinode_finished (img : Image) (j : Nat) : dinode Mkfs.sb (finished img) j =
    Function.update (dinode Mkfs.sb (disk img)) 1 (rootOf img) j := by
  rw [finished, dinode_iupdate, Function.update_apply]

theorem live_finished {img : Image} {j : Nat} :
    Live Mkfs.sb (dinode Mkfs.sb (finished img)) j ↔ Live Mkfs.sb (dinode Mkfs.sb (disk img)) j := by
  rw [show dinode Mkfs.sb (finished img) = _ from funext (dinode_finished img)]
  exact Owns.live_update (show (rootOf img).type = (dinode Mkfs.sb (disk img) 1).type from rfl)

theorem Loaded.owns (h : Loaded fs names img) :
    Owns Mkfs.sb (finished img).block (dinode Mkfs.sb (finished img)) ∅ := by
  have howns : Owns Mkfs.sb (disk img).block
      (Function.update (dinode Mkfs.sb (disk img)) 1 (rootOf img)) ∅ :=
    h.built.consistent.owns.fields fun s b _ => by rw [slotAddr_rootOf]; rfl
  refine howns.congr (fun j _ => dinode_finished img j) fun b hb => iupdate_block _ _ _ ?_
  have := IBLOCK_lt geometry_mkfs (show 1 < Mkfs.sb.ninodes by decide)
  omega

/-- The files of the finished image. -/
theorem Loaded.sameFile (h : Loaded fs names img) {j : Nat}
    (hj : Live Mkfs.sb (dinode Mkfs.sb (disk img)) j) :
    SameFile (disk img).block (finished img).block (dinode Mkfs.sb (disk img) j) :=
  sameFile_iupdate geometry_mkfs h.built.consistent.owns (by decide) _ hj

/-- The root has a block for its rounded size unless its entries fill their blocks. -/
theorem Loaded.root_mapped (h : Loaded fs names img) (hcount : fs.length + 2 < NINODES + 1) :
    Mapped (finished img).block (rootOf img) ↔ (fs.length + 2) % 64 ≠ 0 := by
  have hsize := h.root_size
  have hext := h.built.extent 1 h.live_root
  have hslot : ∀ bn, blockOf (finished img).block (rootOf img) bn =
      blockOf (blocks img) (dinode Mkfs.sb (disk img) 1) bn := by
    intro bn
    rw [blockOf, slotAddr_rootOf]
    exact (h.sameFile h.live_root _).1
  have hN : NINODES = 200 := rfl
  have hS : Dirent.size = 16 := rfl
  have hround : (rootOf img).size.toNat = rounded (Dirent.size * (fs.length + 2)) := by
    rw [rootOf, hsize]
    refine UInt32.toNat_ofNat_of_lt' (show _ < 2 ^ 32 from ?_)
    unfold rounded BSIZE
    rw [hS]
    omega
  rw [hS] at hsize
  unfold Mapped
  rw [hround, hS]
  constructor
  · intro hmap
    obtain ⟨hlt, hne⟩ := hmap (16 * (fs.length + 2) / BSIZE) (by unfold rounded BSIZE; omega)
    rw [hslot, hext.block _ hlt, hsize] at hne
    unfold BSIZE at hne
    omega
  · intro hmod bn hbn
    unfold rounded BSIZE at hbn
    have hlt : bn < MAXFILE := by
      unfold MAXFILE NINDIRECT NDIRECT BSIZE
      omega
    refine ⟨hlt, ?_⟩
    rw [hslot, hext.block _ hlt, hsize]
    unfold BSIZE
    omega

/-- The content of the root: its entries, then zeroes up to the rounded size. -/
theorem Loaded.root_content (h : Loaded fs names img) (hcount : fs.length + 2 < NINODES + 1) :
    content (finished img).block (rootOf img) = rootBytes names ++ List.replicate
      (rounded (Dirent.size * (fs.length + 2)) - Dirent.size * (fs.length + 2)) 0 := by
  have hN : NINODES = 200 := rfl
  have hS : Dirent.size = 16 := rfl
  have hsize := h.root_size
  have hlen : (rootBytes names).length = Dirent.size * (fs.length + 2) := by
    rw [rootBytes_length, h.lengths]
  have hge : Dirent.size * (fs.length + 2) ≤ rounded (Dirent.size * (fs.length + 2)) := by
    unfold rounded BSIZE
    rw [hS]
    omega
  have hround : (rootOf img).size.toNat = rounded (Dirent.size * (fs.length + 2)) := by
    rw [rootOf, hsize]
    refine UInt32.toNat_ofNat_of_lt' (show _ < 2 ^ 32 from ?_)
    unfold rounded BSIZE
    rw [hS]
    omega
  -- the bytes are those of the root before its size was changed
  have hbyte : ∀ k, byteAt (finished img).block (rootOf img) k =
      byteAt (blocks img) (dinode Mkfs.sb (disk img) 1) k := by
    intro k
    have hsame := h.sameFile h.live_root
    have hboot : (finished img).block 0 = (disk img).block 0 := iupdate_block _ _ _ (by decide)
    have := hsame.byteAt_eq_of_boot hboot k
    rw [byteAt, blockOf, slotAddr_rootOf]
    exact this
  have hroot := h.root
  rw [node_of_live h.live_root] at hroot
  have hcontent := (Node.mk.inj hroot).2.2.2.2
  refine list_ext_getD ?_ fun k hk => ?_
  · rw [content_length, hround, List.length_append, hlen, List.length_replicate]
    omega
  · rw [content_length] at hk
    rw [content_getD _ _ hk, hbyte]
    rw [hround] at hk
    by_cases hin : k < Dirent.size * (fs.length + 2)
    · rw [List.getD_append _ _ _ _ (by rw [hlen]; exact hin), ← hcontent,
        content_getD _ _ (by rw [hsize]; exact hin)]
      rfl
    · rw [List.getD_append_right _ _ _ _ (by rw [hlen]; omega), List.getD_replicate]
      · refine h.built.tail 1 h.live_root k (by omega) ?_
        rw [hS] at hk
        unfold rounded MAXFILE NINDIRECT NDIRECT BSIZE at *
        omega
      · rw [hlen]
        omega

theorem Loaded.root_entries (h : Loaded fs names img) (hcount : fs.length + 2 < NINODES + 1) :
    ∃ k, entries (content (finished img).block (rootOf img)) =
      rootEntries names ++ List.replicate k .zero := by
  have hS : Dirent.size = 16 := rfl
  have hmul : ∃ k, rounded (Dirent.size * (fs.length + 2)) - Dirent.size * (fs.length + 2) =
      Dirent.size * k := by
    refine ⟨(rounded (Dirent.size * (fs.length + 2)) - Dirent.size * (fs.length + 2)) / 16, ?_⟩
    unfold rounded BSIZE
    rw [hS]
    omega
  obtain ⟨k, hk⟩ := hmul
  refine ⟨k, ?_⟩
  obtain ⟨hent, hlen⟩ := entries_flatMap (rootEntries_names names)
  rw [h.root_content hcount, hk, entries_append_zero, rootBytes, hent]
  rw [rootBytes, hlen, Nat.mul_mod_right]

/-- A name that fits is read back from the entry. -/
theorem key_nameField {name : List UInt8} (hlen : name.length ≤ DIRSIZ) (h0 : 0 ∉ name) :
    key (nameField name) = name := by
  unfold key nameField
  rw [List.take_of_length_le hlen, List.takeWhile_append_of_pos]
  · simp
  · intro c hc
    have : c ≠ 0 := fun e => h0 (e ▸ hc)
    simpa using this

theorem direntFor_inum {inum : Nat} (h : inum < 2 ^ 16) : (direntFor inum name).inum.toNat = inum :=
  UInt16.toNat_ofNat_of_lt' h

/-- The entries of the files that name inode `i`. -/
theorem countP_files (i : Nat) {names : List (List UInt8)} {m : Nat} (hm : 0 < m)
    (hmax : m + names.length < 2 ^ 16) (hlen : ∀ name ∈ names, name.length ≤ DIRSIZ)
    (h0 : ∀ name ∈ names, 0 ∉ name) :
    (names.mapIdx fun k name => direntFor (k + m) name).countP
      (fun de => de.inum ≠ 0 ∧ de.inum.toNat = i ∧ key de.name ≠ dotKey) =
    if m ≤ i ∧ ∃ name, names[i - m]? = some name ∧ name ≠ dotKey then 1 else 0 := by
  induction names generalizing m with
  | nil => simp
  | cons name names ih =>
    rw [List.length_cons] at hmax
    have hidx : (fun k name => direntFor (k + 1 + m) name) = fun k name => direntFor (k + (m + 1)) name := by
      funext k name
      rw [Nat.add_assoc, Nat.add_comm 1 m]
    have hinum : (direntFor m name).inum.toNat = m := direntFor_inum (by omega)
    have hne : (direntFor m name).inum ≠ 0 := by
      intro he
      rw [he] at hinum
      exact absurd hinum.symm (Nat.ne_of_gt hm)
    have hkey : key (direntFor m name).name = name :=
      key_nameField (hlen name (by simp)) (h0 name (by simp))
    rw [List.mapIdx_cons, Nat.zero_add, List.countP_cons, hidx,
      ih (Nat.succ_pos m) (by omega) (fun n hn => hlen n (by simp [hn])) (fun n hn => h0 n (by simp [hn])),
      hinum, hkey]
    by_cases hi : i = m
    · subst hi
      simp [hne]
    · by_cases hlt : m ≤ i
      · have hsub : i - m = i - (m + 1) + 1 := by omega
        rw [hsub, List.getElem?_cons_succ]
        simp [hlt, show m + 1 ≤ i by omega, Ne.symm hi]
      · simp [hlt, show ¬ m + 1 ≤ i by omega, Ne.symm hi]

/-- The inodes of the image: the root and the files. -/
theorem Loaded.live_iff_lt (h : Loaded fs names img) (hcount : fs.length + 2 < NINODES + 1) {i : Nat} :
    Live Mkfs.sb (dinode Mkfs.sb (disk img)) i ↔ 1 ≤ i ∧ i < fs.length + 2 := by
  rw [← h.inodes]
  by_cases hi : i < NINODES
  · exact h.built.live i hi
  · have := h.inodes
    exact ⟨fun hl => absurd hl.1 hi, fun hl => absurd (show i < NINODES by omega) hi⟩

/-- The root is the only directory. -/
theorem Loaded.type_ne_dir (h : Loaded fs names img) (hcount : fs.length + 2 < NINODES + 1) {i : Nat}
    (hi : i ≠ 1) : (node Mkfs.sb (finished img) i).type ≠ T_DIR := by
  by_cases hl : Live Mkfs.sb (dinode Mkfs.sb (finished img)) i
  · have hold := live_finished.mp hl
    obtain ⟨h1, h2⟩ := (h.live_iff_lt hcount).mp hold
    have hfile := h.files (i - 2) (by omega)
    rw [show i - 2 + 2 = i by omega, node_of_live hold] at hfile
    rw [node_of_live hl, dinode_finished, Function.update_of_ne hi]
    dsimp only
    rw [(Node.mk.inj hfile).1]
    decide
  · rw [node_of_not_live hl]
    exact show (0 : Int16) ≠ T_DIR by decide

/-- The root of the finished image. -/
theorem Loaded.root_finished (h : Loaded fs names img) :
    node Mkfs.sb (finished img) 1 = ⟨T_DIR, 0, 0, 1, content (finished img).block (rootOf img)⟩ := by
  have hold := h.root
  rw [node_of_live h.live_root] at hold
  obtain ⟨ht, hmaj, hmin, hnl, -⟩ := Node.mk.inj hold
  rw [node_of_live (live_finished.mpr h.live_root), dinode_finished, Function.update_self]
  unfold rootOf
  rw [ht, hmaj, hmin, hnl]

theorem Loaded.linkCount_eq (h : Loaded fs names img) (hcount : fs.length + 2 < NINODES + 1)
    (hlen : ∀ name ∈ names, name.length ≤ DIRSIZ) (h0 : ∀ name ∈ names, 0 ∉ name) (i : Nat) :
    linkCount Mkfs.sb (node Mkfs.sb (finished img)) i =
      (if i = 1 then 1 else 0) +
        if 2 ≤ i ∧ ∃ name, names[i - 2]? = some name ∧ name ≠ dotKey then 1 else 0 := by
  obtain ⟨k, hent⟩ := h.root_entries hcount
  have hlens := h.lengths
  have hN : NINODES = 200 := rfl
  rw [linkCount, Finset.sum_eq_single 1]
  · rw [h.root_finished, namesIn, if_pos rfl, hent, rootEntries, List.countP_append, List.countP_cons,
      List.countP_cons, List.countP_replicate,
      countP_files i (m := 2) (by decide) (by omega) hlen h0]
    have hdot : key (direntFor 1 dot).name = dotKey := by decide
    have hdotdot : key (direntFor 1 dotdot).name ≠ dotKey := by decide
    have hone : (direntFor 1 dotdot).inum ≠ 0 ∧ (direntFor 1 dotdot).inum.toNat = 1 := by decide
    have hzero : (Dirent.zero).inum = 0 := rfl
    by_cases hi1 : i = 1
    · simp [hi1, hdot, hdotdot, hone, hzero]
    · simp [Ne.symm hi1, hi1, hdot, hone, hzero]
  · intro j _ hj
    rw [namesIn, if_neg (h.type_ne_dir hcount hj)]
  · intro hnot
    exact absurd (Finset.mem_range.mpr (by decide)) hnot

/-- The root and each file have one link. -/
theorem Loaded.nlink_eq (h : Loaded fs names img) (hcount : fs.length + 2 < NINODES + 1) {i : Nat}
    (hi : Live Mkfs.sb (dinode Mkfs.sb (disk img)) i) : (dinode Mkfs.sb (finished img) i).nlink = 1 := by
  rw [dinode_finished]
  obtain ⟨h1, h2⟩ := (h.live_iff_lt hcount).mp hi
  by_cases hroot : i = 1
  · subst hroot
    have hnode := h.root
    rw [node_of_live hi] at hnode
    rw [Function.update_self]
    exact (Node.mk.inj hnode).2.2.2.1
  · have hnode := h.files (i - 2) (by omega)
    rw [show i - 2 + 2 = i by omega, node_of_live hi] at hnode
    rw [Function.update_of_ne hroot]
    exact (Node.mk.inj hnode).2.2.2.1

/-- The link counts are right unless a file is called `.`. -/
theorem Loaded.links_iff (h : Loaded fs names img) (hcount : fs.length + 2 < NINODES + 1)
    (hlen : ∀ name ∈ names, name.length ≤ DIRSIZ) (h0 : ∀ name ∈ names, 0 ∉ name) :
    (∀ i, Live Mkfs.sb (dinode Mkfs.sb (finished img)) i → (dinode Mkfs.sb (finished img) i).nlink.toInt =
      linkCount Mkfs.sb (node Mkfs.sb (finished img)) i) ↔ dotKey ∉ names := by
  have hlens := h.lengths
  have hone : (1 : Int16).toInt = 1 := by decide
  constructor
  · intro hlinks hdot
    obtain ⟨k, hk, hname⟩ := List.getElem_of_mem hdot
    have hlive : Live Mkfs.sb (dinode Mkfs.sb (disk img)) (k + 2) :=
      (h.live_iff_lt hcount).mpr (by omega)
    have hl := hlinks (k + 2) (live_finished.mpr hlive)
    rw [h.nlink_eq hcount hlive, h.linkCount_eq hcount hlen h0, if_neg (by omega), if_neg, hone] at hl
    · exact absurd hl (by decide)
    · rintro ⟨-, name, hget, hne⟩
      rw [Nat.add_sub_cancel, List.getElem?_eq_getElem hk, hname, Option.some.injEq] at hget
      exact hne hget.symm
  · intro hdot i hlive
    have hold := live_finished.mp hlive
    obtain ⟨h1, h2⟩ := (h.live_iff_lt hcount).mp hold
    rw [h.nlink_eq hcount hold, h.linkCount_eq hcount hlen h0, hone]
    by_cases hi1 : i = 1
    · rw [if_pos hi1, if_neg (by omega)]
      rfl
    · have hk : i - 2 < names.length := by omega
      rw [if_neg hi1, if_pos]
      · rfl
      · refine ⟨by omega, names[i - 2], List.getElem?_eq_getElem hk, fun heq => hdot ?_⟩
        rw [← heq]
        exact List.getElem_mem hk

/-- The blocks of every file are there unless the entries of the root fill their blocks. -/
theorem Loaded.holes_iff (h : Loaded fs names img) (hcount : fs.length + 2 < NINODES + 1) :
    (∀ i, Live Mkfs.sb (dinode Mkfs.sb (finished img)) i →
      Mapped (finished img).block (dinode Mkfs.sb (finished img) i)) ↔ (fs.length + 2) % 64 ≠ 0 := by
  rw [← h.root_mapped hcount]
  constructor
  · intro hall
    have := hall 1 (live_finished.mpr h.live_root)
    rwa [dinode_finished, Function.update_self] at this
  · intro hroot i hi
    rw [dinode_finished]
    by_cases hi1 : i = 1
    · rw [hi1, Function.update_self]
      exact hroot
    · have hold := live_finished.mp hi
      rw [Function.update_of_ne hi1]
      exact (h.sameFile hold).mapped (h.built.consistent.mapped i hold)

/-- The bitmap marks the metadata and the blocks of the files. -/
theorem Loaded.bitmap (h : Loaded fs names img) {b : Nat} (hb : b < Mkfs.sb.size) :
    marked Mkfs.sb (finished img).block b = true ↔
      b < nmeta ∨ Named Mkfs.sb (finished img).block (dinode Mkfs.sb (finished img)) b := by
  have howns := h.owns
  have hstart : datastart Mkfs.sb = nmeta := datastart_mkfs
  by_cases hlow : b < nmeta
  · exact ⟨fun _ => .inl hlow, fun _ => howns.reserved b (by omega)⟩
  · rw [howns.marks b ⟨by omega, hb⟩, or_iff_left (Set.notMem_empty b), or_iff_right hlow]

end finished

/-- What holds of the disk holds of another with the same blocks. -/
theorem Sound.block {d d' : Disk} (h : Sound d) (heq : d'.block = d.block) : Sound d' := by
  have hdin : dinode Mkfs.sb d' = dinode Mkfs.sb d := dinode_block heq
  have hnode : node Mkfs.sb d' = node Mkfs.sb d := node_block heq
  constructor
  · rw [heq, hdin]
    exact h.bitmap
  · rw [heq, hdin]
    exact h.below
  · rw [heq, hdin]
    exact h.once
  · rw [heq, hdin]
    exact h.holes
  · rw [hdin, hnode]
    exact h.links

/-- mkfs succeeds, and its image meets the invariants of the kernel exactly when the
entries of the root do not end at the end of a block and no file is called `.`. -/
theorem mkfs_sound_iff (files : List File) (names : List (List UInt8)) (h : Inputs files names) :
    ∃ out, main files = .ok out ∧
      (Sound ⟨out.sect, []⟩ ↔ (files.length + 2) % 64 ≠ 0 ∧ dotKey ∉ names) := by
  obtain ⟨img, out, hl, hmain, hsect⟩ := main_spec h
  have hcount : files.length + 2 < NINODES + 1 := by
    have := h.count
    omega
  have hblk : (⟨out.sect, []⟩ : Disk).block = (finished img).block := hsect
  refine ⟨out, hmain, ?_⟩
  rw [← hl.holes_iff hcount, ← hl.links_iff hcount h.short h.strings]
  constructor
  · intro hs
    have hs := hs.block hblk.symm
    exact ⟨hs.holes, hs.links⟩
  · rintro ⟨hholes, hlinks⟩
    refine Sound.block ⟨fun b hb => hl.bitmap hb, fun i s hi hne => (hl.owns.inData i s hi hne).2,
      hl.owns.once, hholes, hlinks⟩ hblk

/-- Empty files under these names. -/
def emptyFiles (names : List (List UInt8)) : List File := names.map fun name => ⟨'_'.toUInt8 :: name, []⟩

/-- Names of two letters. -/
def twoLetters (n : Nat) : List (List UInt8) :=
  (List.range n).map fun k => ['f'.toUInt8, UInt8.ofNat (k + 65)]

theorem inputs_emptyFiles {names : List (List UInt8)} (hnd : names.Nodup)
    (hlen : ∀ name ∈ names, name.length ≤ DIRSIZ) (h0 : ∀ name ∈ names, 0 ∉ name)
    (hslash : ∀ name ∈ names, '/'.toUInt8 ∉ name) (hcount : names.length < NINODES - 1) :
    Inputs (emptyFiles names) names := by
  have hnamed : ∀ name ∈ names, shortname ('_'.toUInt8 :: name) = .ok name := by
    intro name hname
    have hpre : ¬ userDir <+: '_'.toUInt8 :: name := by
      intro hpre
      exact absurd (List.cons_prefix_cons.mp hpre).1 (by decide)
    have hmem : '/'.toUInt8 ∉ '_'.toUInt8 :: name := by
      rw [List.mem_cons, not_or]
      exact ⟨by decide, hslash name hname⟩
    simp only [shortname, if_neg hpre, if_neg hmem, List.head?_cons, List.tail_cons, if_true]
  have hzero : (((emptyFiles names).map fun f => blocksFor (length f)).sum) = 0 := by
    rw [List.sum_eq_zero]
    intro k hk
    rw [emptyFiles, List.map_map, List.mem_map] at hk
    obtain ⟨_, -, rfl⟩ := hk
    exact show blocksFor 0 = 0 by decide
  have hlength : (emptyFiles names).length = names.length := List.length_map ..
  refine ⟨?_, hnd, hlen, h0, by rwa [hlength], ?_, ?_⟩
  · rw [emptyFiles, List.forall₂_map_left_iff]
    exact List.forall₂_same.mpr hnamed
  · intro f hf
    obtain ⟨_, -, rfl⟩ := List.mem_map.mp hf
    exact Nat.zero_le _
  · have hN : NINODES = 200 := rfl
    have hmeta : nmeta = 46 := by decide
    have hF : FSSIZE = 2000 := by decide
    have hS : Dirent.size = 16 := rfl
    rw [hzero, hlength, hmeta, hF, hS]
    unfold blocksFor BSIZE
    split <;> omega

/-- Two files are installed with no invariant broken. -/
theorem mkfs_sound_two : ∃ out, main (emptyFiles (twoLetters 2)) = .ok out ∧ Sound ⟨out.sect, []⟩ := by
  have hinputs : Inputs (emptyFiles (twoLetters 2)) (twoLetters 2) :=
    inputs_emptyFiles (by decide) (by decide) (by decide) (by decide) (by decide)
  obtain ⟨out, hout, hiff⟩ := mkfs_sound_iff _ _ hinputs
  exact ⟨out, hout, hiff.mpr (by decide)⟩

/-- With 62 files the last block of the root is not there, and a file called `.` has a link
count of 1 that no entry accounts for. -/
theorem mkfs_not_sound :
    (Inputs (emptyFiles (twoLetters 62)) (twoLetters 62) ∧
      ∃ out, main (emptyFiles (twoLetters 62)) = .ok out ∧ ¬ Sound ⟨out.sect, []⟩) ∧
    (Inputs (emptyFiles [dotKey]) [dotKey] ∧
      ∃ out, main (emptyFiles [dotKey]) = .ok out ∧ ¬ Sound ⟨out.sect, []⟩) := by
  have hmany : Inputs (emptyFiles (twoLetters 62)) (twoLetters 62) :=
    inputs_emptyFiles (by decide +kernel) (by decide) (by decide) (by decide) (by decide)
  have hdot : Inputs (emptyFiles [dotKey]) [dotKey] :=
    inputs_emptyFiles (by decide) (by decide) (by decide) (by decide) (by decide)
  refine ⟨⟨hmany, ?_⟩, hdot, ?_⟩
  · obtain ⟨img, out, hl, hmain, hsect⟩ := main_spec hmany
    refine ⟨out, hmain, fun hs => ?_⟩
    have hs : Sound (finished img) := hs.block hsect.symm
    exact absurd ((hl.holes_iff (by decide)).mp hs.holes) (by decide)
  · obtain ⟨img, out, hl, hmain, hsect⟩ := main_spec hdot
    refine ⟨out, hmain, fun hs => ?_⟩
    have hs : Sound (finished img) := hs.block hsect.symm
    exact absurd ((hl.links_iff (by decide) hdot.short hdot.strings).mp hs.links) (by decide)

end Xv6.Guarantees.BuiltImage
