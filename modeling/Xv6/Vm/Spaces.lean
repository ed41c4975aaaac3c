import Xv6.Vm.Freewalk

/-!
# Address spaces of processes

A process's table maps the pages from 0 up to the end of its memory, the trampoline and the
trapframe, and nothing else. `uvmalloc` and `uvmdealloc` move the end, `uvmcopy` copies a space
and gives back what it took if memory runs out, `proc_pagetable` and `proc_freepagetable` make
an empty space and free one.
-/
namespace Xv6.Vm

open Xv6.Library.Total Xv6.Source.Vm

variable {t t' : Pagetable} {m m' : Mem} {n : Nat} {a b : UInt64}

/-- The pages below the trapframe. -/
def userPages : Nat := TRAPFRAME / PGSIZE

theorem userPages_eq : userPages = 67108862 := by decide

/-- How many pages memory of the given size takes. -/
def pageCount (sz : Nat) : Nat := (sz + PGSIZE - 1) / PGSIZE

/-- PTEs of the kernel's own pages: `a` for the trampoline, `b` for the trapframe. -/
def kernelPte (a b : UInt64) (v : Nat) : UInt64 := if v = userPages + 1 then a else if v = userPages then b else 0

/-- The table maps `n` pages of the user, and the trampoline and the trapframe by the given PTEs. -/
structure Maps (t : Pagetable) (n : Nat) (a b : UInt64) : Prop where
  small : n ≤ userPages
  user : ∀ v < n, Leaf (pte t v)
  rest : ∀ v, n ≤ v → v < pages → pte t v = kernelPte a b v

/-- The pages that a space owns. -/
def space (t : Pagetable) (n : Nat) : Multiset Nat := tables t + frames t 0 n

theorem mem_space {pa : Nat} : pa ∈ space t n ↔ pa ∈ tables t ∨ pa ∈ frames t 0 n := Multiset.mem_add

theorem lt_pages {v : Nat} (h : v ≤ userPages + 1) : v < pages := by
  rw [userPages_eq] at h
  simp only [pages]
  omega

theorem lt_vaPages {v : Nat} (h : v ≤ userPages + 1) : v < vaPages := by
  rw [userPages_eq] at h
  simp only [vaPages]
  omega

theorem kernelPte_user {v : Nat} (h : v < userPages) : kernelPte a b v = 0 := by
  rw [kernelPte, if_neg (by omega), if_neg (by omega)]

theorem Maps.unmapped (h : Maps t n a b) {v : Nat} (hn : n ≤ v) (hv : v < userPages) : pte t v = 0 := by
  rw [h.rest v hn (lt_pages (by omega)), kernelPte_user hv]

theorem Maps.trampoline (h : Maps t n a b) : pte t (userPages + 1) = a := by
  have hsmall := h.small
  rw [h.rest _ (by omega) (lt_pages (Nat.le_refl _)), kernelPte, if_pos rfl]

theorem Maps.trapframe (h : Maps t n a b) : pte t userPages = b := by
  rw [h.rest _ h.small (lt_pages (by omega)), kernelPte, if_neg (by omega), if_pos rfl]

/-! ## Unmapping -/

theorem Maps.shrink {k : Nat} {doFree : Bool} (h : Maps t n a b) (hu : Unmaps t doFree k (n - k) m t' m') (hk : k ≤ n) :
    Maps t' k a b where
  small := Nat.le_trans hk h.small
  user v hv := by
    have hsmall := h.small
    rw [hu.pte v (lt_pages (by omega)), if_neg (by omega)]
    exact h.user v (by omega)
  rest v hv hv' := by
    rw [hu.pte v hv']
    have hsmall := h.small
    by_cases hlt : v < n
    · rw [if_pos (by omega), kernelPte_user (by omega)]
    · rw [if_neg (by omega)]
      exact h.rest v (by omega) hv'

theorem Maps.unmap_trampoline (h : Maps t n a b) (hu : Unmaps t false (userPages + 1) 1 m t' m') : Maps t' n 0 b where
  small := h.small
  user v hv := by
    have hsmall := h.small
    rw [hu.pte v (lt_pages (by omega)), if_neg (by omega)]
    exact h.user v hv
  rest v hv hv' := by
    rw [hu.pte v hv', h.rest v hv hv', kernelPte, kernelPte]
    split_ifs <;> first | rfl | omega

theorem Maps.unmap_trapframe (h : Maps t n a b) (hu : Unmaps t false userPages 1 m t' m') : Maps t' n a 0 where
  small := h.small
  user v hv := by
    have hsmall := h.small
    rw [hu.pte v (lt_pages (by omega)), if_neg (by omega)]
    exact h.user v hv
  rest v hv hv' := by
    rw [hu.pte v hv', h.rest v hv hv', kernelPte, kernelPte]
    split_ifs <;> first | rfl | omega

theorem Unmaps.frames {v k lo hi : Nat} {doFree : Bool} (hu : Unmaps t doFree v k m t' m') (hhi : hi ≤ v)
    (hsmall : hi ≤ pages) : frames t' lo hi = frames t lo hi := by
  refine frames_congr fun w _ hw => ?_
  rw [frame, frame, hu.pte w (by omega), if_neg (by omega)]

theorem roundup_eq {sz : Nat} (h : sz ≤ TRAPFRAME) : PGROUNDUP sz = pageCount sz * PGSIZE := by
  have hword : word (sz + PGSIZE - 1) = sz + PGSIZE - 1 := by
    refine Nat.mod_eq_of_lt ?_
    simp only [TRAPFRAME, TRAMPOLINE, MAXVA, PGSIZE] at h ⊢
    omega
  rw [PGROUNDUP, hword, pageCount]

theorem pageCount_le {sz k : Nat} : pageCount sz ≤ k ↔ sz ≤ k * PGSIZE := by
  simp only [pageCount, PGSIZE]
  omega

theorem pageCount_mono {sz sz' : Nat} (h : sz ≤ sz') : pageCount sz ≤ pageCount sz' :=
  Nat.div_le_div_right (by omega)

theorem pageCount_small {sz : Nat} (h : pageCount sz ≤ userPages) : sz ≤ TRAPFRAME := pageCount_le.1 h

/-- What `uvmunmap` needs of the pages at the end of a space. -/
theorem Maps.uvmunmap_end {k : Nat} (h : Maps t n a b) (hk : k ≤ n)
    (hok : ∀ pa ∈ frames t k n, IsPage m.ram pa) :
    Ends (uvmunmap t (k * PGSIZE) (n - k) true) m fun t' m' => Unmaps t true k (n - k) m t' m' := by
  have hsmall := h.small
  have hva := lt_vaPages (Nat.le_refl (userPages + 1))
  refine uvmunmap_spec true (by omega) (fun w _ hw => (h.user w (by omega)).mapped) fun _ w hw hw' => ?_
  exact hok _ (mem_frames.2 ⟨w, hw, by omega, rfl⟩)

/-- A space whose end has come down to `k` pages. -/
structure Shrinks (t : Pagetable) (k n : Nat) (a b : UInt64) (m : Mem) (t' : Pagetable) (m' : Mem) : Prop where
  maps : Maps t' k a b
  tables : tables t' = tables t
  old : ∀ v < k, pte t' v = pte t v
  moves : memory.Moves m (frames t k n) m' 0

theorem Maps.shrinks {k : Nat} (h : Maps t n a b) (hk : k ≤ n) (hu : Unmaps t true k (n - k) m t' m') :
    Shrinks t k n a b m t' m' where
  maps := h.shrink hu hk
  tables := hu.tables
  old v hv := by
    have hsmall := h.small
    rw [hu.pte v (lt_pages (by omega)), if_neg (by omega)]
  moves := by
    have hmoves := hu.moves
    rwa [freed, if_pos rfl, Nat.add_sub_cancel' hk] at hmoves

theorem Maps.uvmunmap_all (h : Maps t n a b) (hok : ∀ pa ∈ frames t 0 n, IsPage m.ram pa) :
    Ends (uvmunmap t 0 n true) m fun t' m' => Shrinks t 0 n a b m t' m' := by
  have hend := h.uvmunmap_end (Nat.zero_le n) hok
  rw [Nat.zero_mul] at hend
  exact hend.mono fun t' m' hu => h.shrinks (Nat.zero_le n) hu

theorem uvmdealloc_spec {oldsz newsz : Nat} (h : Maps t (pageCount oldsz) a b)
    (hok : ∀ pa ∈ frames t (pageCount (min oldsz newsz)) (pageCount oldsz), IsPage m.ram pa) :
    Ends (uvmdealloc t oldsz newsz) m fun r m' => r.1 = min oldsz newsz ∧
      Shrinks t (pageCount (min oldsz newsz)) (pageCount oldsz) a b m r.2 m' := by
  have hsame : Shrinks t (pageCount oldsz) (pageCount oldsz) a b m t m :=
    ⟨h, rfl, fun _ _ => rfl, by rw [frames_self]; exact .refl m 0⟩
  by_cases hle : oldsz ≤ newsz
  · rw [uvmdealloc, if_pos hle]
    rw [Nat.min_eq_left hle]
    exact .ret ⟨rfl, hsame⟩
  have hmin : min oldsz newsz = newsz := Nat.min_eq_right (by omega)
  have hold := pageCount_small h.small
  have hcount : pageCount newsz ≤ pageCount oldsz := pageCount_mono (by omega)
  rw [hmin] at hok ⊢
  rw [uvmdealloc, if_neg hle, roundup_eq hold, roundup_eq (show newsz ≤ TRAPFRAME by omega)]
  by_cases hlt : pageCount newsz * PGSIZE < pageCount oldsz * PGSIZE
  · have hpages : (pageCount oldsz * PGSIZE - pageCount newsz * PGSIZE) / PGSIZE = pageCount oldsz - pageCount newsz := by
      rw [← Nat.sub_mul, Nat.mul_div_cancel _ pgsize_pos]
    rw [if_pos hlt, hpages]
    exact .bind (h.uvmunmap_end hcount hok) fun t' m' hu => .ret ⟨rfl, h.shrinks hcount hu⟩
  · rw [if_neg hlt]
    have heq : pageCount newsz = pageCount oldsz := by
      simp only [PGSIZE] at hlt
      omega
    rw [heq]
    exact .ret ⟨rfl, hsame⟩

/-! ## Freeing a space -/

theorem uvmfree_spec {sz : Nat} (h : Maps t (pageCount sz) 0 0) (hok : ∀ pa ∈ space t (pageCount sz), IsPage m.ram pa) :
    Ends (uvmfree t sz) m fun _ m' => memory.Moves m (space t (pageCount sz)) m' 0 := by
  have hzero : ∀ {t : Pagetable}, Maps t 0 0 0 → ∀ i, t.get i = 0 := by
    refine fun h => get_zero_of_pte fun v hv => ?_
    rw [h.rest v (Nat.zero_le v) hv, kernelPte, ite_self, ite_self]
  by_cases hpos : 0 < sz
  · rw [uvmfree, if_pos hpos, roundup_eq (pageCount_small h.small), Nat.mul_div_cancel _ pgsize_pos]
    refine .bind (h.uvmunmap_all fun pa hpa => hok pa (mem_space.2 (.inr hpa))) fun t' m₁ hs => ?_
    have hram : m₁.ram = m.ram := hs.moves.fixed
    have hfree := freewalk_frees (hzero hs.maps) m₁ fun pa hpa => by
      rw [hs.tables] at hpa
      rw [hram]
      exact hok pa (mem_space.2 (.inl hpa))
    refine hfree.mono fun _ m₂ hmoves => ?_
    rw [hs.tables] at hmoves
    rw [space]
    refine (hs.moves.frame_left (tables t)).trans ?_
    rw [add_zero]
    exact hmoves
  · have hsz : sz = 0 := by omega
    subst hsz
    rw [uvmfree, if_neg hpos]
    refine (freewalk_frees (hzero h) m fun pa hpa => hok pa (mem_space.2 (.inl hpa))).mono fun _ m' hmoves => ?_
    have hspace : space t (pageCount 0) = tables t := by
      rw [space, show pageCount 0 = 0 from rfl, frames_self, add_zero]
    rw [hspace]
    exact hmoves

theorem space_unmap {v k : Nat} (hu : Unmaps t false v k m t' m') (hn : n ≤ v) (hsmall : n ≤ pages) :
    space t' n = space t n := by
  rw [space, space, hu.tables, hu.frames hn hsmall]

theorem procFreepagetable_spec {sz : Nat} (h : Maps t (pageCount sz) a b) (ha : Leaf a) (hb : Leaf b)
    (hok : ∀ pa ∈ space t (pageCount sz), IsPage m.ram pa) :
    Ends (procFreepagetable t sz) m fun _ m' => memory.Moves m (space t (pageCount sz)) m' 0 := by
  have hsmall := h.small
  have hpages := lt_pages (Nat.le_refl (userPages + 1))
  have hva := lt_vaPages (Nat.le_refl (userPages + 1))
  have htramp : Ends (uvmunmap t TRAMPOLINE 1 false) m fun t' m' => Unmaps t false (userPages + 1) 1 m t' m' := by
    rw [show TRAMPOLINE = (userPages + 1) * PGSIZE by decide]
    refine uvmunmap_spec false (by omega) (fun w hw hw' => ?_) (fun hfree => nomatch hfree)
    rw [show w = userPages + 1 by omega, h.trampoline]
    exact ha.mapped
  rw [procFreepagetable]
  refine .bind htramp fun t₁ m₁ hu => ?_
  have h₁ := h.unmap_trampoline hu
  have htf : Ends (uvmunmap t₁ TRAPFRAME 1 false) m₁ fun t' m' => Unmaps t₁ false userPages 1 m₁ t' m' := by
    rw [show TRAPFRAME = userPages * PGSIZE by decide]
    refine uvmunmap_spec false (by omega) (fun w hw hw' => ?_) (fun hfree => nomatch hfree)
    rw [show w = userPages by omega, h₁.trapframe]
    exact hb.mapped
  refine .bind htf fun t₂ m₂ hu' => ?_
  have hspace : space t₂ (pageCount sz) = space t (pageCount sz) :=
    (space_unmap hu' hsmall (by omega)).trans (space_unmap hu (by omega) (by omega))
  have hmoves : memory.Moves m 0 m₂ 0 := hu.moves.trans hu'.moves
  have hram : m₂.ram = m.ram := hmoves.fixed
  refine (uvmfree_spec (h₁.unmap_trapframe hu') fun pa hpa => ?_).mono fun _ m₃ h₃ => ?_
  · rw [hram]
    exact hok pa (hspace ▸ hpa)
  · rw [hspace] at h₃
    exact ((hmoves.frame _).congr (zero_add _) (zero_add _)).trans h₃

end Xv6.Vm
