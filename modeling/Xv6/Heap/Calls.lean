import Mathlib.Data.List.Perm.Lattice
import Xv6.Heap.FreeList

/-!
# malloc and free on a whole heap

Every unit that `sbrk` has given out is part of one free block or of one allocation. `free` moves
an allocation to the free list, `morecore` adds to the list what `sbrk` returns, and `malloc` cuts
an allocation from the end of a free block.
-/
namespace Xv6.Heap

open Xv6.Library.Chain Xv6.Source.Umalloc

/-- The free blocks and the allocations share out what `sbrk` has supplied. -/
structure Shares (base : Nat) (h : Heap) (fs live : List Block) : Prop where
  list : FreeList base h fs
  live_size : ∀ a ∈ live, h.size a.addr = a.size
  live_pos : ∀ a ∈ live, 0 < a.size
  live_above : ∀ a ∈ live, base + HEADER ≤ a.addr
  live_apart : live.Pairwise Apart
  apart : ∀ a ∈ live, ∀ c ∈ fs, Apart a c
  below : ∀ c ∈ fs ++ live, c.stop ≤ h.brk
  above : base + HEADER ≤ h.brk
  total : units fs + units live = h.supplied

variable {base : Nat} {h : Heap} {fs live : List Block}

theorem Apart.symm {a b : Block} (h : Apart a b) : Apart b a := Or.symm h

theorem units_perm {l r : List Block} (h : l.Perm r) : units l = units r := (h.map _).sum_eq

/-! ## free -/

theorem Shares.free_spec (hs : Shares base h fs live) (hroom : h.supplied < 2 ^ 32) {a : Block} (ha : a ∈ live)
    {rounds : Nat} (hrounds : fs.length < rounds) :
    ∃ h' fs', free rounds h (a.addr + HEADER) = some h' ∧ Shares base h' fs' (live.erase a) ∧ h'.supplied = h.supplied := by
  have hperm := List.perm_cons_erase ha
  have hpairs : (a :: live.erase a).Pairwise Apart := hs.live_apart.perm hperm Apart.symm
  have hunits : units live = a.size + units (live.erase a) := (units_perm hperm).trans (units_cons _ _)
  have htotal := hs.total
  obtain ⟨h', fs', hfree, hfreed⟩ := hs.list.free_spec (hs.live_size a ha) (hs.live_pos a ha) (hs.live_above a ha)
    (hs.apart a ha) (by omega) hrounds
  have hrest : ∀ b ∈ live.erase a, b ∈ live ∧ Apart b a := fun b hb =>
    ⟨List.mem_of_mem_erase hb, ((List.pairwise_cons.1 hpairs).1 b hb).symm⟩
  refine ⟨h', fs', hfree, ⟨hfreed.list, fun b hb => ?_, fun b hb => hs.live_pos b (hrest b hb).1,
    fun b hb => hs.live_above b (hrest b hb).1, (List.pairwise_cons.1 hpairs).2, fun b hb => ?_, ?_, ?_, ?_⟩,
    hfreed.supplied⟩
  · obtain ⟨hlive, hba⟩ := hrest b hb
    have habove := hs.live_above b hlive
    have := header_pos
    rw [hfreed.size b (by omega) (hs.live_pos b hlive) hba (hs.apart b hlive), hs.live_size b hlive]
  · obtain ⟨hlive, hba⟩ := hrest b hb
    exact hfreed.apart b (hs.live_pos b hlive) hba (hs.apart b hlive)
  · rw [hfreed.brk]
    intro c hc
    rcases List.mem_append.1 hc with hc | hc
    · exact hfreed.below h.brk (hs.below a (List.mem_append_right fs ha))
        (fun c hc => hs.below c (List.mem_append_left live hc)) c hc
    · exact hs.below c (List.mem_append_right fs (hrest c hc).1)
  · rw [hfreed.brk]
    exact hs.above
  · rw [hfreed.units, hfreed.supplied]
    omega

/-! ## morecore -/

/-- What `morecore` asks `sbrk` for. -/
def grain (nu : Nat) : Nat := if nu < 4096 then 4096 else nu

theorem le_grain (nu : Nat) : nu ≤ grain nu ∧ 0 < grain nu := by
  rw [grain]
  split <;> omega

/-- A header behind all of the memory so far. -/
theorem Shares.size_fresh (hs : Shares base h fs live) (hp : Nat) (hhp : h.brk ≤ hp) (nu : Nat) :
    (∀ x ∈ base :: addrs fs, Function.update h.size hp nu x = h.size x) ∧
      ∀ a ∈ live, Function.update h.size hp nu a.addr = h.size a.addr := by
  have hpos := header_pos
  have habove := hs.above
  have hlt : ∀ c ∈ fs ++ live, 0 < c.size → c.addr ≠ hp := by
    intro c hc hsize
    have := hs.below c hc
    have := Block.lt_stop hsize
    omega
  refine ⟨fun x hx => Function.update_of_ne ?_ _ _, fun a ha => Function.update_of_ne ?_ _ _⟩
  · rcases List.mem_cons.1 hx with rfl | hx
    · omega
    · obtain ⟨c, hc, rfl⟩ := List.mem_map.1 hx
      exact hlt c (List.mem_append_left live hc) (hs.list.pos c hc)
  · exact hlt a (List.mem_append_right fs ha) (hs.live_pos a ha)

theorem Shares.morecore_spec (hs : Shares base h fs live) {nu : Nat} {answer : Sbrk}
    (hroom : ∀ gap, answer h.calls = some gap → h.supplied + grain nu < 2 ^ 32) (rounds : Nat) (hrounds : fs.length < rounds) :
    ∃ ok h' fs', morecore answer rounds h nu = some (ok, h') ∧ Shares base h' fs' live ∧ fs'.length ≤ fs.length + 1 ∧
      (ok = true → ∃ c ∈ fs', nu ≤ c.size) ∧ h'.supplied ≤ h.supplied + grain nu := by
  cases hanswer : answer h.calls with
  | none =>
    refine ⟨false, { h with calls := h.calls + 1 }, fs, ?_, ?_, Nat.le_succ _, nofun, Nat.le_add_right _ _⟩
    · simp only [morecore, sbrk, hanswer]
    · exact { hs with list := hs.list.congr rfl rfl fun _ _ => rfl }
  | some gap =>
    obtain ⟨hle, hpos⟩ := le_grain nu
    have hfresh : h.brk ≤ h.brk + gap := Nat.le_add_right _ _
    have hbase := hs.above
    have htotal := hs.total
    have hfits := hroom gap hanswer
    generalize hb : (⟨h.brk + gap, grain nu⟩ : Block) = b
    have haddr : b.addr = h.brk + gap := by rw [← hb]
    have hbsize : b.size = grain nu := by rw [← hb]
    have hbstop : b.stop = h.brk + gap + grain nu * HEADER := by rw [← hb, Block.stop]
    let h₁ : Heap := { h with
      size := Function.update h.size b.addr b.size
      brk := h.brk + gap + grain nu * HEADER
      calls := h.calls + 1
      supplied := h.supplied + grain nu }
    obtain ⟨hsizes, hlive⟩ := hs.size_fresh b.addr (by omega) b.size
    have hlist : FreeList base h₁ fs := hs.list.congr rfl rfl hsizes
    have hapart : ∀ c ∈ fs ++ live, Apart b c := by
      intro c hc
      have := hs.below c hc
      exact .inr (by omega)
    obtain ⟨h', fs', hfree, hfreed⟩ := hlist.free_spec (b := b) (Function.update_self ..) (by omega) (by omega)
      (fun c hc => hapart c (List.mem_append_left live hc)) (by omega) hrounds
    refine ⟨true, h', fs', ?_, ⟨hfreed.list, fun a ha => ?_, hs.live_pos, hs.live_above, hs.live_apart, fun a ha => ?_, ?_, ?_, ?_⟩,
      hfreed.length, fun _ => ?_, ?_⟩
    · subst hb
      simp only [morecore, sbrk, hanswer]
      exact congrArg (Option.map fun h => (true, h)) hfree
    · have := hs.live_above a ha
      have := header_pos
      rw [hfreed.size a (by omega) (hs.live_pos a ha) (hapart a (List.mem_append_right fs ha)).symm (hs.apart a ha)]
      exact (hlive a ha).trans (hs.live_size a ha)
    · exact hfreed.apart a (hs.live_pos a ha) (hapart a (List.mem_append_right fs ha)).symm (hs.apart a ha)
    · rw [hfreed.brk]
      have hgrown : ∀ c ∈ fs ++ live, c.stop ≤ h₁.brk := fun c hc =>
        Nat.le_trans (hs.below c hc) (by show h.brk ≤ h.brk + gap + grain nu * HEADER; omega)
      intro c hc
      rcases List.mem_append.1 hc with hc | hc
      · exact hfreed.below h₁.brk (Nat.le_of_eq hbstop) (fun c hc => hgrown c (List.mem_append_left live hc)) c hc
      · exact hgrown c (List.mem_append_right fs hc)
    · rw [hfreed.brk]
      show base + HEADER ≤ h.brk + gap + grain nu * HEADER
      omega
    · rw [hfreed.units, hfreed.supplied]
      show units fs + b.size + units live = h.supplied + grain nu
      omega
    · obtain ⟨c, hc, hbc⟩ := hfreed.mem
      exact ⟨c, hc, by omega⟩
    · rw [hfreed.supplied]

/-! ## malloc -/

/-- An allocation of `nunits` units has been cut from the list. -/
structure Taken (base : Nat) (h : Heap) (fs : List Block) (nunits : Nat) (x : Nat × Heap) (a : Block) (fs' : List Block) :
    Prop where
  ptr : x.1 = a.addr + HEADER
  size : a.size = nunits
  list : FreeList base x.2 fs'
  header : x.2.size a.addr = nunits
  above : base + HEADER ≤ a.addr
  units : units fs' + nunits = units fs
  /-- It has been part of a free block, as the blocks in the list have. -/
  apart : ∀ b, 0 < b.size → (∀ c ∈ fs, Apart b c) → Apart b a ∧ (∀ c ∈ fs', Apart b c) ∧ x.2.size b.addr = h.size b.addr
  apart_list : ∀ c ∈ fs', Apart a c
  below : ∀ top, (∀ c ∈ fs, c.stop ≤ top) → a.stop ≤ top ∧ ∀ c ∈ fs', c.stop ≤ top
  brk : x.2.brk = h.brk
  supplied : x.2.supplied = h.supplied

section take

variable {l r : List Block} {c : Block} {u : List Nat} {p : Nat}

/-- The cells before and behind a block of the list. -/
theorem FreeList.cells (hf : FreeList base h (l ++ c :: r)) :
    (∀ x ∈ base :: addrs l, x < c.addr) ∧ ∀ x ∈ addrs r, c.stop < x := by
  have hsorted := hf.sorted
  rw [addrs_append, ← List.cons_append] at hsorted
  refine ⟨fun x hx => (List.pairwise_append.1 hsorted).2.2 x hx c.addr List.mem_cons_self, fun x hx => ?_⟩
  obtain ⟨d, hd, rfl⟩ := List.mem_map.1 hx
  exact (List.pairwise_cons.1 (List.pairwise_append.1 hf.gapped).2.1).1 d hd

theorem FreeList.links (hf : FreeList base h (l ++ c :: r)) (hp : base :: addrs l = u ++ [p]) :
    Linked h.ptr (u ++ [p]) ∧ h.ptr p = c.addr ∧ h.ptr c.addr = (addrs r).headD base ∧
      Linked h.ptr (addrs r ++ [base]) := by
  obtain ⟨hu, hpc, hrest⟩ := hf.split hp
  exact ⟨hu, hpc, linked_cons_iff.1 hrest⟩

theorem FreeList.take_whole (hf : FreeList base h (l ++ c :: r)) (hp : base :: addrs l = u ++ [p]) :
    Taken base h (l ++ c :: r) c.size (c.addr + HEADER, { h with
      ptr := Function.update h.ptr p (h.ptr c.addr)
      freep := p }) c (l ++ r) := by
  obtain ⟨hu, -, hnext, hr⟩ := hf.links hp
  obtain ⟨hlow, hhigh⟩ := hf.cells
  have hc : c ∈ l ++ c :: r := by simp
  have hstop := Block.lt_stop (hf.pos c hc)
  have hsub : (l ++ r).Sublist (l ++ c :: r) := (List.sublist_cons_self c r).append_left l
  have hpu : p ∉ u := by
    intro hin
    have hsorted := hf.sorted
    rw [addrs_append, ← List.cons_append, hp] at hsorted
    exact Nat.lt_irrefl p ((List.pairwise_append.1 (List.pairwise_append.1 hsorted).1).2.2 p hin p (by simp))
  have hpc : p < c.addr := hlow p (by rw [hp]; simp)
  have hpr : p ∉ addrs r := by
    intro hin
    have := hhigh p hin
    omega
  have hcells : base :: addrs (l ++ r) = u ++ p :: addrs r := by
    rw [addrs_append, ← List.cons_append, hp, List.append_assoc]
    rfl
  have hlist : FreeList base { h with
      ptr := Function.update h.ptr p (h.ptr c.addr)
      freep := p } (l ++ r) := by
    refine ⟨?_, ?_, hf.base_size, fun d hd => hf.size d (hsub.subset hd), fun d hd => hf.pos d (hsub.subset hd),
      fun d hd => hf.above d (hsub.subset hd), hf.gapped.sublist hsub⟩
    · rw [Library.Chain.Cycle, ← List.cons_append, hcells, List.append_assoc, hnext]
      exact hu.relink hr hpu hpr
    · rw [hcells]
      simp
  refine ⟨rfl, rfl, hlist, hf.size c hc, hf.above c hc, ?_, fun b _ hb => ⟨hb c hc, fun d hd => hb d (hsub.subset hd), rfl⟩,
    fun d hd => ?_, fun top htop => ⟨htop c hc, fun d hd => htop d (hsub.subset hd)⟩, rfl, rfl⟩
  · rw [units_append, units_append, units_cons]
    omega
  · obtain ⟨-, hgc, hgl⟩ := List.pairwise_append.1 hf.gapped
    rcases List.mem_append.1 hd with hd | hd
    · exact .inr (Nat.le_of_lt (hgl d hd c List.mem_cons_self))
    · exact .inl (Nat.le_of_lt ((List.pairwise_cons.1 hgc).1 d hd))

theorem FreeList.take_part (hf : FreeList base h (l ++ c :: r)) (hp : base :: addrs l = u ++ [p]) {nunits : Nat}
    (hpos : 0 < nunits) (hlt : nunits < c.size) :
    Taken base h (l ++ c :: r) nunits (c.addr + (c.size - nunits) * HEADER + HEADER, { h with
      size := Function.update (Function.update h.size c.addr (c.size - nunits)) (c.addr + (c.size - nunits) * HEADER) nunits
      freep := p }) ⟨c.addr + (c.size - nunits) * HEADER, nunits⟩ (l ++ ⟨c.addr, c.size - nunits⟩ :: r) := by
  obtain ⟨hlow, hhigh⟩ := hf.cells
  have hc : c ∈ l ++ c :: r := by simp
  have hsize : c.size = (c.size - nunits) + nunits := by omega
  have hstop : c.stop = c.addr + (c.size - nunits) * HEADER + nunits * HEADER := by
    rw [Block.stop, Nat.add_assoc, ← Nat.add_mul, ← hsize]
  have hrest : 0 < (c.size - nunits) * HEADER := Nat.mul_pos (by omega) header_pos
  have hunits : 0 < nunits * HEADER := Nat.mul_pos hpos header_pos
  generalize hq : c.addr + (c.size - nunits) * HEADER = q at hstop
  have hqstop : (⟨q, nunits⟩ : Block).stop = c.stop := hstop.symm
  have hcstop : (⟨c.addr, c.size - nunits⟩ : Block).stop = q := hq
  obtain ⟨-, hgc, hgl⟩ := List.pairwise_append.1 hf.gapped
  have hgc := (List.pairwise_cons.1 hgc).1
  have hframe : ∀ x, x ≠ c.addr → x ≠ q →
      Function.update (Function.update h.size c.addr (c.size - nunits)) q nunits x = h.size x := by
    intro x hxc hxq
    rw [Function.update_of_ne hxq, Function.update_of_ne hxc]
  have hlist : FreeList base { h with
      size := Function.update (Function.update h.size c.addr (c.size - nunits)) q nunits
      freep := p } (l ++ ⟨c.addr, c.size - nunits⟩ :: r) := by
    refine FreeList.of_parts hf (List.suffix_cons c r) (by show 0 < c.size - nunits; omega) (hf.above c hc)
      (fun d hd => hgl d hd c List.mem_cons_self) (fun d hd => ?_) ?_ (fun x hx => ?_) ?_ ?_
    · have := hgc d hd
      rw [hcstop]
      omega
    · show Function.update (Function.update h.size c.addr (c.size - nunits)) q nunits c.addr = c.size - nunits
      rw [Function.update_of_ne (by omega), Function.update_self]
    · rw [addrs_append, ← List.cons_append] at hx
      rcases List.mem_append.1 hx with hin | hin
      · have := hlow x hin
        exact hframe x (by omega) (by omega)
      · have := hhigh x hin
        exact hframe x (by omega) (by omega)
    · have hcycle := hf.cycle
      rw [addrs_append] at hcycle ⊢
      exact hcycle
    · have hmem : p ∈ base :: addrs l := by
        rw [hp]
        simp
      rw [addrs_append, ← List.cons_append]
      exact List.mem_append_left _ hmem
  have hmem : ∀ {P : Block → Prop}, (∀ d ∈ l ++ c :: r, P d) → P ⟨c.addr, c.size - nunits⟩ →
      ∀ d ∈ l ++ ⟨c.addr, c.size - nunits⟩ :: r, P d := by
    intro P hall hone d hd
    rcases List.mem_append.1 hd with hd | hd
    · exact hall d (List.mem_append_left _ hd)
    · rcases List.mem_cons.1 hd with rfl | hd
      · exact hone
      · exact hall d (by simp [hd])
  have habove := hf.above c hc
  refine ⟨rfl, rfl, hlist, Function.update_self .., by show base + HEADER ≤ q; omega, ?_, fun b hb hall => ?_,
    fun d hd => ?_, fun top htop => ?_, rfl, rfl⟩
  · rw [units_append, units_append, units_cons, units_cons]
    show units l + (c.size - nunits + units r) + nunits = units l + (c.size + units r)
    omega
  · have hbc := hall c hc
    have := Block.lt_stop hb
    rw [Apart] at hbc
    refine ⟨?_, hmem hall ?_, hframe b.addr (by omega) (by omega)⟩
    · rw [Apart, hqstop]
      show b.stop ≤ q ∨ c.stop ≤ b.addr
      omega
    · rw [Apart, hcstop]
      show b.stop ≤ c.addr ∨ q ≤ b.addr
      omega
  · rw [Apart, hqstop]
    show c.stop ≤ d.addr ∨ d.stop ≤ q
    rcases List.mem_append.1 hd with hd | hd
    · have := hgl d hd c List.mem_cons_self
      omega
    · rcases List.mem_cons.1 hd with rfl | hd
      · rw [hcstop]
        exact .inr (Nat.le_refl q)
      · have := hgc d hd
        omega
  · have := htop c hc
    refine ⟨by rw [hqstop]; exact this, hmem htop ?_⟩
    rw [hcstop]
    omega

/-- `take` cuts the allocation from a block that is large enough. -/
theorem FreeList.take_spec (hf : FreeList base h (l ++ c :: r)) (hp : base :: addrs l = u ++ [p]) {nunits : Nat}
    (hpos : 0 < nunits) (hle : nunits ≤ c.size) :
    ∃ a fs', Taken base h (l ++ c :: r) nunits (take nunits p c.addr h) a fs' := by
  have hsize := hf.size c (by simp)
  rw [take, hsize]
  by_cases heq : c.size = nunits
  · subst heq
    rw [if_pos rfl]
    exact ⟨c, _, hf.take_whole hp⟩
  · rw [if_neg heq]
    exact ⟨_, _, hf.take_part hp hpos (by omega)⟩

theorem Shares.take_spec {fs : List Block} (hs : Shares base h fs live) (hfs : fs = l ++ c :: r)
    (hp : base :: addrs l = u ++ [p]) {nunits : Nat} (hpos : 0 < nunits) (hle : nunits ≤ c.size) :
    ∃ a fs', (take nunits p c.addr h).1 = a.addr + HEADER ∧ a.size = nunits ∧
      Shares base (take nunits p c.addr h).2 fs' (a :: live) ∧ (take nunits p c.addr h).2.supplied = h.supplied := by
  subst hfs
  obtain ⟨a, fs', ht⟩ := hs.list.take_spec hp hpos hle
  have hlive : ∀ b ∈ live, Apart b a ∧ (∀ c ∈ fs', Apart b c) ∧ (take nunits p c.addr h).2.size b.addr = h.size b.addr :=
    fun b hb => ht.apart b (hs.live_pos b hb) (hs.apart b hb)
  have hcons : ∀ {P : Block → Prop}, P a → (∀ b ∈ live, P b) → ∀ b ∈ a :: live, P b := by
    intro P hone hall b hb
    rcases List.mem_cons.1 hb with rfl | hb
    · exact hone
    · exact hall b hb
  have htop := ht.below h.brk fun d hd => hs.below d (List.mem_append_left live hd)
  refine ⟨a, fs', ht.ptr, ht.size, ⟨ht.list, hcons (ht.header.trans ht.size.symm) fun b hb => ?_,
    hcons (by rw [ht.size]; exact hpos) hs.live_pos, hcons ht.above hs.live_above,
    List.pairwise_cons.2 ⟨fun b hb => (hlive b hb).1.symm, hs.live_apart⟩,
    hcons ht.apart_list fun b hb => (hlive b hb).2.1, ?_, ?_, ?_⟩, ht.supplied⟩
  · rw [(hlive b hb).2.2, hs.live_size b hb]
  · rw [ht.brk]
    intro d hd
    rcases List.mem_append.1 hd with hd | hd
    · exact htop.2 d hd
    · exact hcons htop.1 (fun b hb => hs.below b (List.mem_append_right _ hb)) d hd
  · rw [ht.brk]
    exact hs.above
  · have htotal := hs.total
    have hunits := ht.units
    rw [units_cons, ht.size, ht.supplied]
    omega

end take

section scan

variable (answer : Sbrk) (nunits rounds : Nat)

/-- The loop of `malloc` along a part of the list: it takes from the first block that is large
enough, or it comes to the last cell. -/
theorem scan_walk {v : List Nat} {prevp z : Nat} (hchain : Linked h.ptr (prevp :: (v ++ [z])))
    (hfreep : h.freep ∉ v) (hrounds : v.length < rounds) :
    (∃ q p, q ∈ prevp :: v ∧ p ∈ v ++ [z] ∧ h.ptr q = p ∧ nunits ≤ h.size p ∧
      scan answer nunits rounds h prevp (h.ptr prevp) = some (take nunits q p h)) ∨
    (∀ p ∈ v ++ [z], h.size p < nunits) ∧ ∃ q,
      scan answer nunits rounds h prevp (h.ptr prevp) = scan answer nunits (rounds - v.length) h q z := by
  induction v generalizing prevp rounds with
  | nil =>
    obtain ⟨n, rfl⟩ : ∃ k, rounds = k + 1 := ⟨rounds - 1, by omega⟩
    have hz : h.ptr prevp = z := (List.isChain_cons_cons.1 hchain).1
    rw [hz]
    by_cases hsize : nunits ≤ h.size z
    · exact .inl ⟨prevp, z, by simp, by simp, hz, hsize, if_pos hsize⟩
    · refine .inr ⟨fun p hp => ?_, prevp, rfl⟩
      rw [List.mem_singleton.1 hp]
      omega
  | cons b v ih =>
    obtain ⟨n, rfl⟩ : ∃ k, rounds = k + 1 := ⟨rounds - 1, by omega⟩
    rw [List.length_cons] at hrounds
    obtain ⟨hb, hrest⟩ := List.isChain_cons_cons.1 hchain
    rw [hb]
    by_cases hsize : nunits ≤ h.size b
    · exact .inl ⟨prevp, b, by simp, by simp, hb, hsize, if_pos hsize⟩
    · have hne : ¬ b = h.freep := fun heq => hfreep (by simp [heq])
      have hstep : scan answer nunits (n + 1) h prevp b = scan answer nunits n h b (h.ptr b) := by
        rw [scan, if_neg hsize, if_neg hne]
      rw [hstep]
      rcases ih n hrest (fun hin => hfreep (List.mem_cons_of_mem b hin)) (by omega) with
        ⟨q, p, hq, hp, hqp, hle, hscan⟩ | ⟨hsmall, q, hscan⟩
      · exact .inl ⟨q, p, List.mem_cons_of_mem prevp hq, List.mem_cons_of_mem b hp, hqp, hle, hscan⟩
      · refine .inr ⟨fun p hp => ?_, q, ?_⟩
        · rcases List.mem_cons.1 hp with rfl | hp
          · omega
          · exact hsmall p hp
        · rw [hscan, List.length_cons, Nat.add_sub_add_right]

/-- Once around the list, from `freep` on. -/
theorem Shares.scan_round (hs : Shares base h fs live) (hpos : 0 < nunits) (hrounds : fs.length < rounds) :
    (∃ x, scan answer nunits rounds h h.freep (h.ptr h.freep) = some x ∧ (∃ c ∈ fs, nunits ≤ c.size) ∧
      x.2.supplied = h.supplied ∧ ∃ a fs', x.1 = a.addr + HEADER ∧ a.size = nunits ∧ Shares base x.2 fs' (a :: live)) ∨
    (∀ c ∈ fs, c.size < nunits) ∧ ∃ q, scan answer nunits rounds h h.freep (h.ptr h.freep) =
      scan answer nunits (rounds - fs.length) h q h.freep := by
  have hf := hs.list
  have hnodup : (base :: addrs fs).Nodup := hf.sorted.imp fun hlt => Nat.ne_of_lt hlt
  obtain ⟨w, hcycle, hperm⟩ := hf.cycle.start hf.freep
  have hlen : w.length = fs.length := by
    have := hperm.length_eq
    rw [List.length_cons, List.length_cons, addrs, List.length_map] at this
    omega
  have hout : h.freep ∉ w := (List.nodup_cons.1 (hperm.nodup_iff.2 hnodup)).1
  have hcell : ∀ x, x ∈ w ++ [h.freep] ↔ x ∈ base :: addrs fs := fun x => by
    rw [← hperm.mem_iff]
    simp [or_comm]
  rcases scan_walk answer nunits rounds hcycle hout (by omega) with ⟨q, p, hq, hp, hqp, hle, hscan⟩ | ⟨hsmall, q, hscan⟩
  · left
    have hne : p ≠ base := by
      rintro rfl
      rw [hf.base_size] at hle
      omega
    obtain ⟨c, hc, rfl⟩ := List.mem_map.1 ((List.mem_cons.1 ((hcell p).1 hp)).resolve_left hne)
    rw [hf.size c hc] at hle
    obtain ⟨l, r, rfl⟩ := List.append_of_mem hc
    obtain ⟨u, p₀, hp₀⟩ : ∃ u p₀, base :: addrs l = u ++ [p₀] := by
      rcases List.eq_nil_or_concat' (base :: addrs l) with hnil | ⟨u, p₀, heq⟩
      · cases hnil
      · exact ⟨u, p₀, heq⟩
    have hpred : q = p₀ := by
      refine hf.cycle.next_inj hnodup (hperm.mem_iff.1 hq) ?_ (hqp.trans (hf.links hp₀).2.1.symm)
      rw [addrs_append, ← List.cons_append, hp₀]
      simp
    subst hpred
    obtain ⟨a, fs', hptr, hsize, hres, hsupplied⟩ := hs.take_spec rfl hp₀ hpos hle
    exact ⟨_, hscan, ⟨c, hc, hle⟩, hsupplied, a, fs', hptr, hsize, hres⟩
  · refine .inr ⟨fun c hc => ?_, q, hlen ▸ hscan⟩
    have := hsmall c.addr ((hcell _).2 (List.mem_cons_of_mem base (List.mem_map_of_mem hc)))
    rwa [hf.size c hc] at this

/-- Where no block is large enough, the loop comes to `morecore`. -/
theorem Shares.scan_morecore (hs : Shares base h fs live) (hsmall : ∀ c ∈ fs, c.size < nunits) (hpos : 0 < nunits) (n q : Nat) :
    scan answer nunits (n + 1) h q h.freep = match morecore answer n h nunits with
      | none => none
      | some (false, h) => some (0, h)
      | some (true, h) => scan answer nunits n h h.freep (h.ptr h.freep) := by
  have hfull : ¬ nunits ≤ h.size h.freep := by
    rcases List.mem_cons.1 hs.list.freep with heq | hin
    · rw [heq, hs.list.base_size]
      omega
    · obtain ⟨c, hc, heq⟩ := List.mem_map.1 hin
      have := hsmall c hc
      rw [← heq, hs.list.size c hc]
      omega
  rw [scan, if_neg hfull]
  exact if_pos rfl

/-- Unless all blocks are too small and `sbrk` supplies too much, the loop of `malloc` comes to its
end, with an allocation or with a heap that is as sound as before. -/
theorem Shares.scan_spec (hs : Shares base h fs live) (hpos : 0 < nunits)
    (hroom : (∀ c ∈ fs, c.size < nunits) → ∀ gap, answer h.calls = some gap → h.supplied + grain nunits < 2 ^ 32)
    (hrounds : 2 * fs.length + 3 < rounds) :
    ∃ x, scan answer nunits rounds h h.freep (h.ptr h.freep) = some x ∧
      ((x.1 = 0 ∧ ∃ fs', Shares base x.2 fs' live) ∨
        ∃ a fs', x.1 = a.addr + HEADER ∧ a.size = nunits ∧ Shares base x.2 fs' (a :: live)) := by
  rcases hs.scan_round answer nunits rounds hpos (by omega) with ⟨x, hscan, -, -, halloc⟩ | ⟨hsmall, q, hscan⟩
  · exact ⟨x, hscan, .inr halloc⟩
  obtain ⟨n, hn⟩ : ∃ n, rounds - fs.length = n + 1 := ⟨rounds - fs.length - 1, by omega⟩
  obtain ⟨ok, h', fs', hmore, hs', hlen, hlarge, -⟩ := hs.morecore_spec (hroom hsmall) n (by omega)
  rw [hscan, hn, hs.scan_morecore answer nunits hsmall hpos, hmore]
  cases ok with
  | false => exact ⟨_, rfl, .inl ⟨rfl, fs', hs'⟩⟩
  | true =>
    obtain ⟨c, hc, hcsize⟩ := hlarge rfl
    rcases hs'.scan_round answer nunits n hpos (by omega) with ⟨x, hscan', -, -, halloc⟩ | ⟨hsmall', -⟩
    · exact ⟨x, hscan', .inr halloc⟩
    · have := hsmall' c hc
      omega

end scan

end Xv6.Heap
