import Xv6.Source.Exec
import Xv6.Vm.UserMemory

/-!
# Loading a program

The part of `exec` that works on the new page table. The headers of the file are arbitrary; what
`loadseg` writes stays in the pages of the image, because `uvmalloc` has mapped all addresses below
the end of the segment, and it comes to an end, because the file does.
-/
namespace Xv6.Vm

open Xv6.Library.Total Xv6.Source.Vm
open Xv6.Source.Exec (readi field le word32 loadLoop loadseg loadHeaders proghdr proghdrSize flags2perm)

variable {m m' : Mem} {t t' : Pagetable} {sz sz' : Nat} {a b : UInt64} {content : List UInt8}

/-- User memory that a program is loaded to: the user has all its pages, and there are no more pages in
memory than can be mapped. -/
structure Image (m : Mem) (t : Pagetable) (sz : Nat) (a b : UInt64) : Prop where
  owns : Space m t sz a b
  user : ∀ v < pageCount sz, pte t v &&& PTE_U ≠ 0
  room : (memory.free m + space t (pageCount sz)).card ≤ userPages

/-- The pages of an image, before and after. -/
abbrev ImageMoves (m : Mem) (t : Pagetable) (sz : Nat) (m' : Mem) (t' : Pagetable) (sz' : Nat) : Prop :=
  memory.Moves m (space t (pageCount sz)) m' (space t' (pageCount sz'))

theorem Image.of_moves (h : Image m t sz a b) (hmaps : Maps t' (pageCount sz') a b)
    (huser : ∀ v < pageCount sz', pte t' v &&& PTE_U ≠ 0) (hm : ImageMoves m t sz m' t' sz') : Image m' t' sz' a b where
  owns := h.owns.of_moves hmaps hm
  user := huser
  room := by
    rw [hm.balance]
    exact h.room

theorem Image.size_le (h : Image m t sz a b) : sz ≤ TRAPFRAME := pageCount_small h.owns.maps.small

/-! ## uvmalloc -/

/-- What `uvmalloc` leaves, whether the size is to grow or not. -/
structure Extended (m : Mem) (t : Pagetable) (sz newsz : Nat) (a b : UInt64) (r : Nat × Pagetable) (m' : Mem) (sz' : Nat) : Prop where
  image : Image m' r.2 sz' a b
  moves : ImageMoves m t sz m' r.2 sz'
  size : r.1 = 0 ∧ sz' = sz ∨ r.1 = sz' ∧ sz' = max sz newsz

theorem userPerm_u (xperm : UInt64) : userPerm xperm &&& PTE_U ≠ 0 :=
  or_and_ne_zero_left _ (or_and_ne_zero_right _ (by decide))

theorem uvmalloc_image {newsz : Nat} {xperm : UInt64} (hx : xperm.toNat < 1024) (h : Image m t sz a b) :
    Ends (uvmalloc t sz newsz xperm) m fun r m' => ∃ sz', Extended m t sz newsz a b r m' sz' := by
  by_cases hlt : newsz < sz
  · rw [uvmalloc, if_pos hlt]
    exact .ret ⟨sz, h, .refl _ _, .inr ⟨rfl, (Nat.max_eq_left (Nat.le_of_lt hlt)).symm⟩⟩
  · have hle : sz ≤ newsz := Nat.le_of_not_lt hlt
    have hsound : Sound m (tables t) := h.owns.sound.mono (Multiset.le_add_right _ _)
    have hapart : Apart m (tables t) := h.owns.apart.mono (Multiset.le_add_right _ _)
    refine (uvmalloc_spec hx h.owns.maps hle h.room hsound hapart).mono fun r m' hr => ?_
    cases hr with
    | @grown t' m' maps old fresh zero added =>
      have hmoves : ImageMoves m t sz m' t' newsz := by
        refine (added.frame (frames t 0 (pageCount sz))).congr rfl ?_
        rw [space, ← frames_append t' (Nat.zero_le _) (pageCount_mono hle), frames_of_retained old]
        abel
      refine ⟨newsz, h.of_moves maps (fun v hv => ?_) hmoves, hmoves, .inr ⟨rfl, (Nat.max_eq_right hle).symm⟩⟩
      by_cases hold : v < pageCount sz
      · rw [old v hold]
        exact h.user v hold
      · rw [fresh v (Nat.le_of_not_lt hold) hv]
        exact or_and_ne_zero_left _ (or_and_ne_zero_right _ (userPerm_u xperm))
    | @failed t' m' maps old moves =>
      rw [frames_self, add_zero] at moves
      have hmoves : ImageMoves m t sz m' t' sz := by
        rw [ImageMoves, space, space, frames_of_retained old]
        exact moves.frame _
      refine ⟨sz, h.of_moves maps (fun v hv => ?_) hmoves, hmoves, .inl ⟨rfl, rfl⟩⟩
      rw [old v hv]
      exact h.user v hv

/-! ## loadseg -/

theorem Image.accessible (h : Image m t sz a b) {va : Nat} (hva : va < sz) :
    Accessible t va ∧ frame t (va / PGSIZE) ∈ space t (pageCount sz) := by
  have hpage : va / PGSIZE < pageCount sz := by
    simp only [pageCount, PGSIZE]
    omega
  have hmem : frame t (va / PGSIZE) ∈ space t (pageCount sz) := mem_space.2 (.inr (mem_frames.2 ⟨_, Nat.zero_le _, hpage, rfl⟩))
  have hget : t.get (index va) = pte t (va / PGSIZE) := by rw [index_eq, pte]
  have hlt : va < MAXVA := Nat.lt_trans (Nat.lt_of_lt_of_le hva h.size_le) (by decide)
  refine ⟨⟨hlt, ?_, ?_, ?_⟩, hmem⟩
  · rw [hget]
    exact (h.owns.maps.user _ hpage).1
  · rw [hget]
    exact h.user _ hpage
  · rw [hget]
    exact Nat.ne_of_gt (h.owns.sound.own hmem).pos

theorem walkaddr_image (h : Image m t sz a b) {va : Nat} (hva : va < sz) (m₁ : Mem) :
    walkaddr t va m₁ = .ok (frame t (va / PGSIZE), m₁) := by
  rw [walkaddr_eq, if_pos (h.accessible hva).1, index_eq]
  rfl

theorem length_readi_le (content : List UInt8) (off n : Nat) : (readi content off n).length ≤ n := by
  rw [readi]
  split_ifs with hout
  · exact Nat.zero_le n
  · exact List.length_take_le _ _

/-- Where as many bytes are read as were asked for, the file has them. -/
theorem readi_full {off n : Nat} (hn : 0 < n) (h : (readi content off n).length = n) : off + n ≤ content.length := by
  rw [readi] at h
  split_ifs at h with hout
  · exact absurd h.symm (Nat.ne_of_gt hn)
  · rw [List.length_take, List.length_drop] at h
    omega

/-- Files are far smaller than the addresses of `loadseg` reach. -/
theorem loadLoop_spec {va offset n fuel i : Nat} (h : Image m t sz a b) (hva : va + n ≤ sz) (hn : n < 2 ^ 32)
    (hoff : offset < 2 ^ 32) (hcontent : content.length < 2 ^ 31) (hi : i = 0 ∨ offset + i < 2 ^ 31 + PGSIZE)
    (hfuel : 2 ^ 31 + PGSIZE < i + fuel * PGSIZE) (m₁ : Mem) :
    Ends (loadLoop t va content offset n fuel i) m₁ fun r m' => (r = 0 ∨ r = -1) ∧
      memory.Moves m₁ (space t (pageCount sz)) m' (space t (pageCount sz)) := by
  induction fuel generalizing i m₁ with
  | zero =>
    simp only [PGSIZE] at hi hfuel
    omega
  | succ fuel ih =>
    rw [loadLoop]
    by_cases hlt : i < n
    swap
    · rw [if_neg hlt]
      exact .ret ⟨.inl rfl, .refl _ _⟩
    rw [if_pos hlt]
    have hsz := h.size_le
    have htop : TRAPFRAME < 2 ^ 38 := by decide
    have hword : word (va + i) = va + i := Nat.mod_eq_of_lt (by omega)
    have hmem := (@Image.accessible _ _ _ _ _ h (va + i) (by omega)).2
    refine .step ((congrArg (walkaddr t · m₁) hword).trans (walkaddr_image h (by omega) m₁)) ?_
    rw [if_neg (Nat.ne_of_gt (h.owns.sound.own hmem).pos)]
    generalize hk : (if n - i < PGSIZE then n - i else PGSIZE) = k
    have hkpos : 0 < k ∧ k ≤ PGSIZE ∧ (k = PGSIZE ∨ i + k = n) := by
      have hpos := pgsize_pos
      split_ifs at hk <;> omega
    have hlen := length_readi_le content (word32 (offset + i)) k
    refine .bind (memmove_spec (Nat.le_trans hlen hkpos.2.1) m₁ _) fun _ m₂ hm₂ => ?_
    have hmoves := hm₂.within (Multiset.singleton_le.2 hmem)
    by_cases hshort : (readi content (word32 (offset + i)) k).length ≠ k
    · rw [if_pos hshort]
      exact .ret ⟨.inr rfl, hmoves⟩
    · rw [if_neg hshort]
      have hfull := readi_full hkpos.1 (not_not.1 hshort)
      have hoffset : word32 (offset + i) = offset + i := by
        rw [word32]
        simp only [PGSIZE] at hi
        omega
      have hnext : word32 (i + PGSIZE) = i + PGSIZE := by
        rw [word32]
        simp only [PGSIZE] at hi ⊢
        omega
      rw [hnext]
      refine (ih (.inr (by omega)) (by rw [Nat.succ_mul] at hfuel; omega) m₂).mono fun r m' hr => ⟨hr.1, hmoves.trans hr.2⟩

theorem loadseg_spec {va offset n : Nat} (h : Image m t sz a b) (hva : va + n ≤ sz) (hn : n < 2 ^ 32)
    (hoff : offset < 2 ^ 32) (hcontent : content.length < 2 ^ 31) :
    Ends (loadseg t va content offset n) m fun r m' => (r = 0 ∨ r = -1) ∧ ImageMoves m t sz m' t sz :=
  loadLoop_spec h hva hn hoff hcontent (.inl rfl) (by decide) m

/-! ## The program headers -/

theorem le_lt (bytes : List UInt8) : le bytes < 256 ^ bytes.length := by
  induction bytes with
  | nil => exact Nat.one_pos
  | cons x xs ih =>
    have hx := x.toNat_lt
    rw [le, List.length_cons, pow_succ]
    omega

theorem field_lt (bytes : List UInt8) (off n : Nat) : field bytes off n < 256 ^ n := by
  have hlen : ((bytes.drop off).take n).length ≤ n := List.length_take_le _ _
  exact Nat.lt_of_lt_of_le (le_lt _) (Nat.pow_le_pow_right (by decide) hlen)

theorem flags2perm_lt (flags : Nat) : (flags2perm flags).toNat < 1024 := by
  rw [flags2perm]
  split_ifs <;> decide

/-- The end of a segment does not wrap. -/
theorem segment_end {vaddr memsz : Nat} (hmemsz : memsz < 2 ^ 64) (hvaddr : vaddr < 2 ^ 64)
    (h : ¬ word (vaddr + memsz) < vaddr) : word (vaddr + memsz) = vaddr + memsz := by
  simp only [word] at h ⊢
  omega

theorem loadHeaders_spec (hcontent : content.length < 2 ^ 31) (n : Nat) {off : Nat} (h : Image m t sz a b) :
    Ends (loadHeaders content n off t sz) m fun r m' => Image m' r.2.1 r.2.2 a b ∧ ImageMoves m t sz m' r.2.1 r.2.2 := by
  induction n generalizing off m t sz with
  | zero => exact .ret ⟨h, .refl _ _⟩
  | succ n ih =>
    rw [loadHeaders]
    generalize hbytes : readi content off proghdrSize = bytes
    have hstop : Ends (pure (false, t, sz) : Prog (Bool × Pagetable × Nat)) m fun r m' =>
        Image m' r.2.1 r.2.2 a b ∧ ImageMoves m t sz m' r.2.1 r.2.2 := .ret ⟨h, .refl _ _⟩
    split_ifs with hlen htype hfilesz hwrap halign
    · exact hstop
    · exact ih h
    · exact hstop
    · exact hstop
    · exact hstop
    have hend := segment_end (field_lt bytes 40 8) (field_lt bytes 16 8) hwrap
    refine .bind (uvmalloc_image (flags2perm_lt _) h) ?_
    rintro ⟨sz₁, t₁⟩ m₁ ⟨sz', himage, hmoves, hsize⟩
    match sz₁ with
    | 0 =>
      have hsz : sz' = sz := by omega
      subst hsz
      exact .ret ⟨himage, hmoves⟩
    | k + 1 =>
      obtain ⟨hk, hmax⟩ : k + 1 = sz' ∧ sz' = max sz (word ((proghdr bytes).vaddr + (proghdr bytes).memsz)) :=
        hsize.resolve_left fun hzero => nomatch hzero.1
      subst hk
      have hseg : (proghdr bytes).vaddr + word32 (proghdr bytes).filesz ≤ k + 1 := by
        have hcut : word32 (proghdr bytes).filesz ≤ (proghdr bytes).filesz := Nat.mod_le _ _
        have hmemsz : (proghdr bytes).filesz ≤ (proghdr bytes).memsz := Nat.le_of_not_lt hfilesz
        have hle : word ((proghdr bytes).vaddr + (proghdr bytes).memsz) ≤ k + 1 := by
          rw [hmax]
          exact Nat.le_max_right _ _
        have hsum : word ((proghdr bytes).vaddr + (proghdr bytes).memsz) = (proghdr bytes).vaddr + (proghdr bytes).memsz := hend
        omega
      refine .bind (loadseg_spec himage hseg (Nat.mod_lt _ (by decide)) (Nat.mod_lt _ (by decide)) hcontent) ?_
      rintro r m₂ ⟨hr, hload⟩
      have himage₂ : Image m₂ t₁ (k + 1) a b := himage.of_moves himage.owns.maps himage.user hload
      have hmoves₂ := hmoves.trans hload
      rcases hr with rfl | rfl
      · exact (ih himage₂).mono fun r m' hr => ⟨hr.1, hmoves₂.trans hr.2⟩
      · exact .ret ⟨himage₂, hmoves₂⟩

end Xv6.Vm
