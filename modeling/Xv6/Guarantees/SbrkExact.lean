import Xv6.Vm.UserMemory

/-!
# sbrk changes the size by n or not at all

`growproc` does so for every size and every `n`, as long as the new size is not negative. Below zero
the sum wraps, `uvmdealloc` takes it for a larger size and keeps the old one, and the call succeeds.
-/
namespace Xv6.Guarantees.SbrkExact

open Xv6.Library.Total Xv6.Source.Vm Xv6.Vm

variable {m : Mem} {t : Pagetable} {sz : Nat} {a b : UInt64} {n : Int32}

/-- The size has changed by `n`, or nothing has. -/
inductive Exact (m : Mem) (t : Pagetable) (sz : Nat) (a b : UInt64) (n : Int32) : Int × Nat × Pagetable → Mem → Prop where
  | changed {sz' : Nat} {t' : Pagetable} {m' : Mem} (size : (sz' : Int) = sz + n.toInt) (space : Space m' t' sz' a b)
    (zero : ∀ v, pageCount sz ≤ v → v < pageCount sz' → ∀ j < PGSIZE, m'.byte (frame t' v + j) = 0)
    (retained : Retained m t m' t' (min (pageCount sz) (pageCount sz'))) : Exact m t sz a b n (0, sz', t') m'
  | failed {t' : Pagetable} {m' : Mem} (space : Space m' t' sz a b) (same : ∀ v < pages, pte t' v = pte t v)
    (retained : Retained m t m' t' (pageCount sz)) : Exact m t sz a b n (-1, sz, t') m'

theorem size_le (h : Space m t sz a b) : sz ≤ TRAPFRAME := pageCount_small h.maps.small

/-- The sum that `growproc` computes. -/
theorem addInt_eq (hsz : sz ≤ TRAPFRAME) (n : Int32) :
    (addInt sz n : Int) = if 0 ≤ (sz : Int) + n.toInt then sz + n.toInt else 2 ^ 64 + (sz + n.toInt) := by
  have hlow := n.le_toInt
  have hhigh := n.toInt_lt
  have htop : TRAPFRAME < 2 ^ 38 := by decide
  unfold addInt
  split_ifs <;> omega

theorem growproc_grow (h : Space m t sz a b) (hram : m.ram.stop = PHYSTOP) (hn : 0 < n) :
    Ends (growproc t sz n) m (Exact m t sz a b n) := by
  have hpos : 0 < n.toInt := Int32.lt_iff_toInt_lt.1 hn
  have hsum : (addInt sz n : Int) = sz + n.toInt := by
    rw [addInt_eq (size_le h), if_pos (by omega)]
  have hle : sz ≤ addInt sz n := by omega
  have htables : Sound m (tables t) := h.sound.mono (Multiset.le_add_right _ _)
  rw [growproc, if_pos hn]
  refine .bind (uvmalloc_spec (by decide) h.maps hle (room_of_phystop h.sound h.apart hram) htables
    (h.apart.mono (Multiset.le_add_right _ _))) fun r m' hr => ?_
  cases hr with
  | grown maps old fresh zero added =>
    obtain ⟨hspace, hret⟩ := h.grown hle maps old added
    obtain ⟨k, hk⟩ : ∃ k, addInt sz n = k + 1 := ⟨addInt sz n - 1, by omega⟩
    rw [hk] at zero hspace ⊢
    refine .ret (.changed (by omega) hspace (fun v hv hv' j hj => ?_) ?_)
    · exact zero v hv hv' _ ⟨Nat.le_add_right _ _, by omega⟩
    · rwa [Nat.min_eq_left (pageCount_mono (hk ▸ hle))]
  | failed maps old moves =>
    rw [frames_self, add_zero] at moves
    obtain ⟨hspace, hsame, hret⟩ := h.same maps old moves
    exact .ret (.failed hspace hsame hret)

theorem growproc_shrink (h : Space m t sz a b) (hn : n < 0) (hsz : 0 ≤ (sz : Int) + n.toInt) :
    Ends (growproc t sz n) m (Exact m t sz a b n) := by
  have hneg : n.toInt < 0 := Int32.lt_iff_toInt_lt.1 hn
  have hpos : ¬ 0 < n := fun hp => absurd (Int32.lt_iff_toInt_lt.1 hp) (by rw [Int32.toInt_zero]; omega)
  have hsum : (addInt sz n : Int) = sz + n.toInt := by rw [addInt_eq (size_le h), if_pos hsz]
  have hmin : min sz (addInt sz n) = addInt sz n := Nat.min_eq_right (by omega)
  rw [growproc, if_neg hpos, if_pos hn]
  refine .bind (uvmdealloc_spec h.maps fun pa hpa => ?_) ?_
  · obtain ⟨v, -, hv, rfl⟩ := mem_frames.1 hpa
    exact h.sound.own (mem_space.2 (.inr (mem_frames.2 ⟨v, Nat.zero_le v, hv, rfl⟩)))
  · rw [hmin]
    rintro ⟨sz', t'⟩ m' ⟨hsz', hs⟩
    dsimp only at hsz' hs
    subst hsz'
    obtain ⟨hspace, hret⟩ := h.shrunk (by omega) hs
    have hcount : pageCount (addInt sz n) ≤ pageCount sz := pageCount_mono (by omega)
    refine .ret (.changed hsum hspace (fun v hv hv' => absurd hv (by omega)) ?_)
    rwa [Nat.min_eq_right hcount]

/-- Below zero the size stays, and the call succeeds. -/
theorem growproc_wraps (hsz : sz ≤ TRAPFRAME) (hneg : (sz : Int) + n.toInt < 0) (m : Mem) :
    growproc t sz n m = .ok ((0, sz, t), m) := by
  have hlow := n.le_toInt
  have hn : n.toInt < 0 := by omega
  have hpos : ¬ 0 < n := fun hp => absurd (Int32.lt_iff_toInt_lt.1 hp) (by rw [Int32.toInt_zero]; omega)
  have hsum := addInt_eq hsz n
  rw [if_neg (by omega)] at hsum
  have hge : sz ≤ addInt sz n := by omega
  rw [growproc, if_neg hpos, if_pos (Int32.lt_iff_toInt_lt.2 hn), uvmdealloc, if_pos hge]
  rfl

theorem Exact.nonneg {r : Int × Nat × Pagetable} {m' : Mem} (h : Exact m t sz a b n r m') (hr : r.1 = 0) :
    0 ≤ (sz : Int) + n.toInt := by
  cases h with
  | changed size => omega
  | failed => exact absurd hr (show ¬ (-1 : Int) = 0 by decide)

/-- sbrk is exact if and only if the new size is not negative. -/
theorem growproc_exact_iff (h : Space m t sz a b) (hram : m.ram.stop = PHYSTOP) (n : Int32) :
    ∃ r m', growproc t sz n m = .ok (r, m') ∧ (Exact m t sz a b n r m' ↔ 0 ≤ (sz : Int) + n.toInt) := by
  by_cases hneg : (sz : Int) + n.toInt < 0
  · refine ⟨_, m, growproc_wraps (size_le h) hneg m, fun hexact => hexact.nonneg rfl, fun hle => absurd hle (by omega)⟩
  · have hle : 0 ≤ (sz : Int) + n.toInt := by omega
    suffices hends : Ends (growproc t sz n) m (Exact m t sz a b n) by
      obtain ⟨r, m', hrun, hexact⟩ := hends
      exact ⟨r, m', hrun, fun _ => hle, fun _ => hexact⟩
    by_cases hpos : 0 < n
    · exact growproc_grow h hram hpos
    · by_cases hlt : n < 0
      · exact growproc_shrink h hlt hle
      · have hzero : n.toInt = 0 := by
          rw [Int32.lt_iff_toInt_lt, Int32.toInt_zero] at hpos hlt
          omega
        refine .of_eq (show growproc t sz n m = .ok ((0, sz, t), m) by rw [growproc, if_neg hpos, if_neg hlt]; rfl) ?_
        refine .changed (by omega) h (fun v hv hv' => absurd hv (by omega)) fun v _ => ⟨rfl, fun _ _ => rfl⟩

theorem growproc_exact_iff_page : ∃ m t a b, Space m t 0 a b ∧ m.ram.stop = PHYSTOP ∧
    ∃ r m', growproc t 0 4096 m = .ok (r, m') ∧ (Exact m t 0 a b 4096 r m' ↔ 0 ≤ ((0 : Nat) : Int) + (4096 : Int32).toInt) := by
  obtain ⟨t, m, -, hfirst⟩ := first_empty (show 8 ≤ 100 by decide) (by decide +kernel)
  have hstop : m.ram.stop = PHYSTOP := by
    rw [show m.ram = (boot 8).ram from hfirst.moves.fixed]
    rfl
  have hspace := hfirst.space (by decide)
  exact ⟨m, t, _, _, hspace, hstop, growproc_exact_iff hspace hstop 4096⟩

/-- A process of one page that asks for 5000 bytes less keeps its page and is told that it worked. -/
theorem growproc_below_zero : ∃ t m, firstSpace 4096 (boot 8) = .ok (some (0, 4096, t), m) ∧
    growproc t 4096 (-5000) m = .ok ((0, 4096, t), m) ∧ ∀ a b, ¬ Exact m t 4096 a b (-5000) (0, 4096, t) m := by
  have hfirst : ((firstSpace 4096 (boot 8)).toOption.bind fun r => r.1.map fun q => (q.1, q.2.1)) = some (0, 4096) := by
    decide +kernel
  obtain ⟨⟨r, m⟩, hrun, hr⟩ := Option.bind_eq_some_iff.1 hfirst
  obtain ⟨⟨_, _, t⟩, rfl, hsize⟩ := Option.map_eq_some_iff.1 hr
  cases hsize
  refine ⟨t, m, ?_, growproc_wraps (by decide) (by decide) _, fun a b hexact => ?_⟩
  · cases hends : firstSpace 4096 (boot 8) with
    | error => rw [hends] at hrun; cases hrun
    | ok out => rw [hends] at hrun; cases hrun; rfl
  · exact absurd (hexact.nonneg rfl) (by decide)

end Xv6.Guarantees.SbrkExact
