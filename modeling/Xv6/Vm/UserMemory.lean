import Xv6.Vm.Growth

/-!
# User memory

The pages of a process and what they hold, and what growing and shrinking leave of both.
-/
namespace Xv6.Vm

open Xv6.Library.Total Xv6.Source.Vm

variable {m m' : Mem} {t t' : Pagetable} {sz newsz n : Nat} {a b : UInt64} {own own' : Multiset Nat}

/-- User memory of `sz` bytes: the table maps its pages and nothing else but the trampoline and the
trapframe, and all pages are its own. -/
structure Space (m : Mem) (t : Pagetable) (sz : Nat) (a b : UInt64) : Prop where
  maps : Maps t (pageCount sz) a b
  sound : Sound m (space t (pageCount sz))
  apart : Apart m (space t (pageCount sz))

/-- Pages that are mapped as before and hold what they held. -/
def Retained (m : Mem) (t : Pagetable) (m' : Mem) (t' : Pagetable) (n : Nat) : Prop :=
  ∀ v < n, pte t' v = pte t v ∧ ∀ j < PGSIZE, m'.byte (frame t v + j) = m.byte (frame t v + j)

/-- The memory has no more pages than a process can map. -/
theorem room_of_phystop (hsound : Sound m own) (hapart : Apart m own) (hram : m.ram.stop = PHYSTOP) :
    (memory.free m + own).card ≤ userPages := by
  have hsub : (memory.free m + own).toFinset ⊆ (Finset.range (PHYSTOP / PGSIZE)).image (· * PGSIZE) := by
    intro pa hpa
    have hpage := hsound pa (Multiset.mem_toFinset.1 hpa)
    have hlt := hpage.lt_stop
    rw [hram] at hlt
    refine Finset.mem_image.2 ⟨pa / PGSIZE, Finset.mem_range.2 ?_, Nat.div_mul_cancel (Nat.dvd_of_mod_eq_zero hpage.aligned)⟩
    unfold PHYSTOP KERNBASE PGSIZE at *
    omega
  calc (memory.free m + own).card = (memory.free m + own).toFinset.card := (Multiset.toFinset_card_of_nodup hapart).symm
    _ ≤ ((Finset.range (PHYSTOP / PGSIZE)).image (· * PGSIZE)).card := Finset.card_le_card hsub
    _ ≤ (Finset.range (PHYSTOP / PGSIZE)).card := Finset.card_image_le
    _ ≤ userPages := by
      rw [Finset.card_range]
      decide

/-- The user pages keep their bytes while other pages are used. -/
theorem Space.retained (h : Space m t sz a b) (hown : own + frames t 0 n ≤ space t (pageCount sz))
    (hm : memory.Moves m own m' own') (hpte : ∀ v < n, pte t' v = pte t v) : Retained m t m' t' n := fun v hv =>
  ⟨hpte v hv, fun _ hj => frame_kept hm (h.sound.mono hown) (h.apart.mono hown) hv hj⟩

theorem Space.of_moves (h : Space m t sz a b) (hmaps : Maps t' (pageCount newsz) a b)
    (hm : memory.Moves m (space t (pageCount sz)) m' (space t' (pageCount newsz))) : Space m' t' newsz a b :=
  ⟨hmaps, h.sound.moves hm, h.apart.moves hm⟩

theorem frames_of_retained (h : ∀ v < n, pte t' v = pte t v) : frames t' 0 n = frames t 0 n :=
  frames_congr fun v _ hv => by rw [frame, frame, h v hv]

/-! ## Growing and shrinking -/

/-- A space that has grown by pages of zeroes. -/
theorem Space.grown (h : Space m t sz a b) (hle : sz ≤ newsz) (hmaps : Maps t' (pageCount newsz) a b)
    (hold : ∀ v < pageCount sz, pte t' v = pte t v)
    (hadded : memory.Moves m (tables t) m' (tables t' + frames t' (pageCount sz) (pageCount newsz))) :
    Space m' t' newsz a b ∧ Retained m t m' t' (pageCount sz) := by
  refine ⟨h.of_moves hmaps ?_, h.retained (le_refl _) hadded hold⟩
  refine (hadded.frame (frames t 0 (pageCount sz))).congr rfl ?_
  rw [space, ← frames_append t' (Nat.zero_le _) (pageCount_mono hle), frames_of_retained hold]
  abel

/-- A space to which pages could not be added. -/
theorem Space.same (h : Space m t sz a b) (hmaps : Maps t' (pageCount sz) a b) (hold : ∀ v < pageCount sz, pte t' v = pte t v)
    (hm : memory.Moves m (tables t) m' (tables t')) :
    Space m' t' sz a b ∧ (∀ v < pages, pte t' v = pte t v) ∧ Retained m t m' t' (pageCount sz) := by
  refine ⟨h.of_moves hmaps ?_, fun v hv => ?_, h.retained (le_refl _) hm hold⟩
  · rw [space, space, frames_of_retained hold]
    exact hm.frame _
  · by_cases hlt : v < pageCount sz
    · exact hold v hlt
    · rw [hmaps.rest v (Nat.le_of_not_lt hlt) hv, h.maps.rest v (Nat.le_of_not_lt hlt) hv]

theorem Space.shrunk (h : Space m t sz a b) (hle : newsz ≤ sz)
    (hs : Shrinks t (pageCount newsz) (pageCount sz) a b m t' m') :
    Space m' t' newsz a b ∧ Retained m t m' t' (pageCount newsz) := by
  have happ := frames_append t (Nat.zero_le _) (pageCount_mono hle)
  have hown : frames t (pageCount newsz) (pageCount sz) + frames t 0 (pageCount newsz) ≤ space t (pageCount sz) := by
    rw [space, ← happ, add_comm (frames t 0 _)]
    exact Multiset.le_add_left _ _
  refine ⟨h.of_moves hs.maps ?_, h.retained hown hs.moves hs.old⟩
  refine (hs.moves.frame_left (tables t + frames t 0 (pageCount newsz))).congr ?_ ?_
  · rw [space, ← happ, add_assoc]
  · rw [space, frames_of_retained hs.old, hs.tables, add_zero]

/-! ## The first space -/

/-- Memory with `n` free pages. -/
def boot (n : Nat) : Mem where
  ram := ⟨KERNBASE + 0x22000, PHYSTOP, KERNBASE + 0x7000, by decide, by decide⟩
  freelist := (List.range n).map fun k => KERNBASE + 0x22000 + k * PGSIZE
  byte := fun _ => 0
  fails := []

/-- The last page of memory, for the trapframe of the first process. -/
def lastPage : Nat := PHYSTOP - PGSIZE

theorem boot_lt {n k : Nat} (hn : n ≤ 100) (hk : k < n) : KERNBASE + 0x22000 + k * PGSIZE < lastPage := by
  unfold lastPage PHYSTOP PGSIZE
  omega

theorem sound_boot {n : Nat} (hn : n ≤ 100) : Sound (boot n) {lastPage} := by
  intro pa hpa
  rcases Multiset.mem_add.1 hpa with hfree | hlast
  · obtain ⟨k, hk, rfl⟩ := List.mem_map.1 (Multiset.mem_coe.1 hfree)
    have hlt := boot_lt hn (List.mem_range.1 hk)
    exact ⟨by rw [Nat.add_mul_mod_self_right]; rfl, Nat.le_add_right _ _, Nat.lt_of_lt_of_le hlt (Nat.sub_le _ _)⟩
  · rw [Multiset.mem_singleton.1 hlast]
    exact ⟨by decide, by show KERNBASE + 0x22000 ≤ lastPage; decide, by show lastPage < PHYSTOP; decide⟩

theorem apart_boot {n : Nat} (hn : n ≤ 100) : Apart (boot n) {lastPage} := by
  have hinj : Function.Injective fun k => KERNBASE + 0x22000 + k * PGSIZE := fun i j hij =>
    Nat.eq_of_mul_eq_mul_right pgsize_pos (Nat.add_left_cancel hij)
  refine Multiset.nodup_add.2 ⟨Multiset.coe_nodup.2 (List.nodup_range.map hinj), Multiset.nodup_singleton _, ?_⟩
  refine Multiset.disjoint_singleton.2 fun hmem => ?_
  obtain ⟨k, hk, heq⟩ := List.mem_map.1 (Multiset.mem_coe.1 hmem)
  exact Nat.ne_of_lt (boot_lt hn (List.mem_range.1 hk)) heq

/-- The space of a new process, of `sz` bytes. -/
def firstSpace (sz : Int32) : Prog (Option (Int × Nat × Pagetable)) := do
  match ← procPagetable lastPage with
  | none => pure none
  | some t =>
    let r ← growproc t 0 sz
    pure (some r)

/-- The first process before it has memory. -/
structure First (n : Nat) (t : Pagetable) (sz : Nat) (m : Mem) : Prop where
  maps : Maps t (pageCount sz) (trampolinePte (boot n).ram) (trapframePte lastPage)
  moves : memory.Moves (boot n) 0 m (space t (pageCount sz))

theorem First.space {n : Nat} (h : First n t sz m) (hn : n ≤ 100) : Space m t sz (trampolinePte (boot n).ram) (trapframePte lastPage) where
  maps := h.maps
  sound := ((sound_boot hn).mono (Multiset.zero_le _)).moves h.moves
  apart := ((apart_boot hn).mono (Multiset.zero_le _)).moves h.moves

theorem first_empty {n : Nat} (hn : n ≤ 100) (hsome : ((procPagetable lastPage (boot n)).toOption.bind Prod.fst).isSome = true) :
    ∃ t m, procPagetable lastPage (boot n) = .ok (some t, m) ∧ First n t 0 m := by
  obtain ⟨r, m, hrun, hmoves, hmaps⟩ := procPagetable_spec lastPage ((sound_boot hn).mono (Multiset.zero_le _))
  rw [hrun] at hsome
  obtain ⟨t, rfl⟩ := Option.isSome_iff_exists.1 hsome
  have hspace : Vm.space t (pageCount 0) = tables t := by rw [Vm.space, show pageCount 0 = 0 from rfl, frames_self, add_zero]
  exact ⟨t, m, hrun, hmaps t rfl, hspace ▸ hmoves⟩

/-- The first process with a page. -/
theorem first_page {n : Nat} (hn : n ≤ 100)
    (hok : ((firstSpace 4096 (boot n)).toOption.bind fun r => r.1.map fun q => (q.1, q.2.1)) = some (0, 4096)) :
    ∃ t m, firstSpace 4096 (boot n) = .ok (some (0, 4096, t), m) ∧ First n t 4096 m := by
  have hsome : ((procPagetable lastPage (boot n)).toOption.bind Prod.fst).isSome = true := by
    obtain ⟨r, m, hrun, -, -⟩ := procPagetable_spec (m := boot n) lastPage ((sound_boot hn).mono (Multiset.zero_le _))
    rw [firstSpace, bind_ok hrun] at hok
    rw [hrun]
    cases r with
    | none => cases hok
    | some t => rfl
  obtain ⟨t, m, hrun, hfirst⟩ := first_empty hn hsome
  have hspace := hfirst.space hn
  have hram : m.ram.stop = PHYSTOP := by
    rw [show m.ram = (boot n).ram from hfirst.moves.fixed]
    rfl
  have htables : Vm.space t (pageCount 0) = tables t := by rw [Vm.space, show pageCount 0 = 0 from rfl, frames_self, add_zero]
  obtain ⟨r, m', halloc, hallocated⟩ : Ends (uvmalloc t 0 4096 PTE_W) m _ :=
    uvmalloc_spec (by decide) hspace.maps (by decide) (room_of_phystop hspace.sound hspace.apart hram)
      (htables ▸ hspace.sound) (htables ▸ hspace.apart)
  cases hallocated with
  | grown maps old fresh zero added =>
    rename_i t'
    have hgrow : growproc t 0 4096 m = .ok ((0, 4096, t'), m') := by
      rw [growproc, if_pos (by decide), show addInt 0 4096 = 4096 by decide]
      exact bind_ok halloc
    refine ⟨t', m', (bind_ok hrun).trans (bind_ok hgrow), maps, ?_⟩
    exact (hfirst.moves.congr rfl htables).trans added
  | failed maps old moves =>
    rename_i t'
    have hgrow : growproc t 0 4096 m = .ok ((-1, 0, t'), m') := by
      rw [growproc, if_pos (by decide), show addInt 0 4096 = 4096 by decide]
      exact bind_ok halloc
    have hend : firstSpace 4096 (boot n) = .ok (some (-1, 0, t'), m') := (bind_ok hrun).trans (bind_ok hgrow)
    rw [hend] at hok
    cases hok

end Xv6.Vm
