import Xv6.Vm.Spaces

/-!
# Growing and copying address spaces

`uvmalloc` and `uvmcopy` add pages one by one. Where memory runs out they unmap and free what
they have added, so that of their work only pages of the table itself are left.
-/
namespace Xv6.Vm

open Xv6.Library.Total Xv6.Source.Vm

variable {t t' : Pagetable} {m m' : Mem} {n k : Nat} {a b : UInt64}

/-! ## One more page -/

/-- A page has been added at the end. -/
theorem Maps.grow {p : UInt64} (h : Maps t n a b) (hn : n < userPages) (hp : Leaf p)
    (hget : t'.get = Function.update t.get (entryOf n) p) : Maps t' (n + 1) a b where
  small := hn
  user v hv := by
    rw [pte_of_update hget (lt_pages (by omega)) (lt_pages (by omega))]
    split_ifs with heq
    · exact hp
    · exact h.user v (by omega)
  rest v hv hv' := by
    rw [pte_of_update hget (lt_pages (by omega)) hv', if_neg (by omega)]
    exact h.rest v (by omega) hv'

theorem pte_grow {p : UInt64} (hn : n < userPages) (hget : t'.get = Function.update t.get (entryOf n) p) {v : Nat}
    (hv : v < n) : pte t' v = pte t v := by
  rw [pte_of_update hget (lt_pages (by omega)) (lt_pages (by omega)), if_neg (by omega)]

theorem pte_grown {p : UInt64} (hn : n < userPages) (hget : t'.get = Function.update t.get (entryOf n) p) :
    pte t' n = p := by
  rw [pte_of_update hget (lt_pages (by omega)) (lt_pages (by omega)), if_pos rfl]

theorem frames_grow {p : UInt64} {pa : Nat} (hn : n < userPages) (hk : k ≤ n)
    (hget : t'.get = Function.update t.get (entryOf n) p) (hpa : PTE2PA p = pa) :
    frames t' k (n + 1) = frames t k n + {pa} := by
  have hold : frames t' k n = frames t k n :=
    frames_congr fun v _ hv => by rw [frame, frame, pte_grow hn hget hv]
  rw [frames_last t' hk, frame, pte_grown hn hget, hpa, hold]

theorem Maps.congr (h : Maps t n a b) (hget : t'.get = t.get) : Maps t' n a b where
  small := h.small
  user v hv := by
    rw [pte, hget]
    exact h.user v hv
  rest v hv hv' := by
    rw [pte, hget]
    exact h.rest v hv hv'

theorem frames_get (hget : t'.get = t.get) (lo hi : Nat) : frames t' lo hi = frames t lo hi :=
  frames_congr fun v _ _ => by rw [frame, frame, pte, pte, hget]

/-- A page that has been taken is mapped at the end of a space, or is still in hand. -/
theorem mappages_taken {base pa : Nat} {perm : UInt64} {m₂ : Mem} (h : Maps t k a b) (hbase : base ≤ k)
    (hk : k < userPages) (hok : Sound m (tables t + frames t base k)) (hperm : perm.toNat < 1024)
    (hr : perm &&& PTE_R ≠ 0) (htaken : memory.Moves m 0 m₂ {pa}) :
    Ends (mappages t (k * PGSIZE) PGSIZE pa perm) m₂ fun r m₃ =>
      (r.1 = 0 ∧ Maps r.2 (k + 1) a b ∧
        r.2.get = Function.update t.get (entryOf k) (PA2PTE pa ||| perm ||| PTE_V) ∧
        memory.Moves m₂ (tables t) m₃ (tables r.2) ∧
        memory.Moves m (tables t + frames t base k) m₃ (tables r.2 + frames r.2 base (k + 1))) ∨
      (r.1 = -1 ∧ r.2.get = t.get ∧ IsPage m₃.ram pa ∧
        memory.Moves m (tables t + frames t base k) m₃ (tables r.2 + frames r.2 base k + {pa})) := by
  have hpage := hok.taken htaken
  have hpa := pte2pa_pa2pte hpage.aligned hpage.lt hperm
  refine (mappages_spec (lt_vaPages (by omega)) (h.unmapped (Nat.le_refl k) hk) pa perm m₂).mono ?_
  rintro ⟨r, t₁⟩ m₃ ⟨hmoves, hres⟩
  dsimp only at hmoves hres ⊢
  have hmapped : memory.Moves m (tables t + frames t base k) m₃ (tables t₁ + (frames t base k + {pa})) :=
    ((htaken.frame _).congr (zero_add _) (by abel)).trans (hmoves.frame (frames t base k + {pa}))
  have hram : m₃.ram = m.ram := hmapped.fixed
  rcases hres with ⟨rfl, hget⟩ | ⟨rfl, hget⟩
  · refine .inl ⟨rfl, h.grow hk (leaf_entry pa hr) hget, hget, hmoves, ?_⟩
    rw [frames_grow hk hbase hget hpa]
    exact hmapped
  · refine .inr ⟨rfl, hget, hram ▸ hpage, ?_⟩
    rw [frames_get hget, add_assoc]
    exact hmapped

/-! ## `uvmalloc` -/

/-- Flags of a page that `uvmalloc` maps. -/
def userPerm (xperm : UInt64) : UInt64 := PTE_R ||| PTE_U ||| xperm

theorem userPerm_lt {xperm : UInt64} (h : xperm.toNat < 1024) : (userPerm xperm).toNat < 1024 := by
  rw [userPerm, UInt64.toNat_or]
  exact Nat.or_lt_two_pow (n := 10) (by decide) h

theorem userPerm_r (xperm : UInt64) : userPerm xperm &&& PTE_R ≠ 0 := or_and_ne_zero_left _ (by decide)

/-- What `uvmalloc` returns: the space has grown from `k` pages to those for `newsz` by pages of
zeroes, or is as it was with `base` pages. -/
inductive Allocated (xperm : UInt64) (base k : Nat) (a b : UInt64) (newsz : Nat) (t : Pagetable) (m : Mem) :
    Nat × Pagetable → Mem → Prop where
  | grown {t' : Pagetable} {m' : Mem} (maps : Maps t' (pageCount newsz) a b) (old : ∀ v < k, pte t' v = pte t v)
    (fresh : ∀ v, k ≤ v → v < pageCount newsz → pte t' v = PA2PTE (frame t' v) ||| userPerm xperm ||| PTE_V)
    (zero : ∀ v, k ≤ v → v < pageCount newsz → ∀ x, InPage (frame t' v) x → m'.byte x = 0)
    (added : memory.Moves m (tables t) m' (tables t' + frames t' k (pageCount newsz))) :
    Allocated xperm base k a b newsz t m (newsz, t') m'
  | failed {t' : Pagetable} {m' : Mem} (maps : Maps t' base a b) (old : ∀ v < base, pte t' v = pte t v)
    (moves : memory.Moves m (tables t + frames t base k) m' (tables t')) :
    Allocated xperm base k a b newsz t m (0, t') m'

theorem pageCount_mul (k : Nat) : pageCount (k * PGSIZE) = k := by
  simp only [pageCount, PGSIZE]
  omega

/-- `uvmalloc` gives up: it frees the pages that it has added. -/
theorem allocLoop_undo {base newsz : Nat} {xperm : UInt64} {t₁ : Pagetable} {m₁ : Mem} (h : Maps t k a b)
    (hbase : base ≤ k) (hok : Sound m (tables t + frames t base k)) (hget : t₁.get = t.get)
    (hmoves : memory.Moves m (tables t + frames t base k) m₁ (tables t₁ + frames t₁ base k)) :
    Ends (do let (_, t) ← uvmdealloc t₁ (k * PGSIZE) (base * PGSIZE); pure (0, t)) m₁
      (Allocated xperm base k a b newsz t m) := by
  have hmin : min (k * PGSIZE) (base * PGSIZE) = base * PGSIZE := Nat.min_eq_right (Nat.mul_le_mul_right _ hbase)
  have hmaps : Maps t₁ (pageCount (k * PGSIZE)) a b := by
    rw [pageCount_mul]
    exact h.congr hget
  refine .bind (uvmdealloc_spec hmaps fun pa hpa => ?_) ?_
  · rw [hmin, pageCount_mul, pageCount_mul] at hpa
    exact (hok.moves hmoves).own (Multiset.mem_add.2 (.inr hpa))
  · rw [hmin, pageCount_mul, pageCount_mul]
    rintro ⟨sz, t₂⟩ m₂ ⟨-, hs⟩
    have hback := hmoves.trans ((hs.moves.frame_left (tables t₁)).congr rfl (add_zero _))
    refine .ret (.failed hs.maps (fun v hv => ?_) ?_)
    · rw [hs.old v hv, pte, pte, hget]
    · rw [hs.tables]
      exact hback

/-- A page that has been taken, filled and mapped: what it holds, and what is owned. -/
structure Added (k : Nat) (p : UInt64) (t : Pagetable) (m : Mem) (pa : Nat) (data : Nat → UInt8) (t₁ : Pagetable)
    (m₁ : Mem) : Prop where
  get : t₁.get = Function.update t.get (entryOf k) p
  addr : PTE2PA p = pa
  moves : memory.Moves m (tables t) m₁ (tables t₁ + {pa})
  data : ∀ x, InPage pa x → m₁.byte x = data x
  sound : Sound m₁ (tables t₁ + {pa})
  apart : Apart m₁ (tables t₁ + {pa})

/-- A page is taken, filled and mapped. -/
theorem added_of_taken {p : UInt64} {pa : Nat} {data : Nat → UInt8} {t₁ : Pagetable} {m₂ m₁ : Mem}
    (hok : Sound m (tables t)) (hapart : Apart m (tables t)) (htaken : memory.Moves m 0 m₂ {pa})
    (hdata : ∀ x, InPage pa x → m₂.byte x = data x) (hmapped : memory.Moves m₂ (tables t) m₁ (tables t₁))
    (hget : t₁.get = Function.update t.get (entryOf k) p) (hpa : PTE2PA p = pa) : Added k p t m pa data t₁ m₁ := by
  have htaken' : memory.Moves m (tables t) m₂ (tables t + {pa}) :=
    (htaken.frame (tables t)).congr (zero_add _) (add_comm _ _)
  have hmoves : memory.Moves m (tables t) m₁ (tables t₁ + {pa}) := htaken'.trans (hmapped.frame {pa})
  refine ⟨hget, hpa, hmoves, fun x hx => ?_, hok.moves hmoves, hapart.moves hmoves⟩
  rw [byte_kept hmapped (hok.moves htaken') (hapart.moves htaken') hx, hdata x hx]

/-- The page keeps what it holds while others are added behind it. -/
theorem Added.later {p : UInt64} {pa : Nat} {data : Nat → UInt8} {t₁ : Pagetable} {m₁ : Mem} {own : Multiset Nat}
    (h : Added k p t m pa data t₁ m₁) (hm : memory.Moves m₁ (tables t₁) m' own) {x : Nat} (hx : InPage pa x) :
    m'.byte x = data x := by
  rw [byte_kept hm h.sound h.apart hx, h.data x hx]

theorem Added.moves_later {p : UInt64} {pa n : Nat} {data : Nat → UInt8} {t₁ : Pagetable} {m₁ : Mem}
    (h : Added k p t m pa data t₁ m₁) (hm : memory.Moves m₁ (tables t₁) m' (tables t' + frames t' (k + 1) n))
    (hk : k < n) (hframe : frame t' k = pa) : memory.Moves m (tables t) m' (tables t' + frames t' k n) := by
  rw [frames_first t' hk, hframe]
  exact h.moves.trans ((hm.frame {pa}).congr rfl (by abel))

/-- A page has been added before the rest of the loop. -/
theorem Allocated.step {xperm : UInt64} {base newsz pa : Nat} {t₁ : Pagetable} {m₁ : Mem} {r : Nat × Pagetable}
    (h : Allocated xperm base (k + 1) a b newsz t₁ m₁ r m') (hbase : base ≤ k) (hk : k < userPages)
    (hmore : k < pageCount newsz) (hadd : Added k (PA2PTE pa ||| userPerm xperm ||| PTE_V) t m pa (fun _ => 0) t₁ m₁)
    (hmoves : memory.Moves m (tables t + frames t base k) m₁ (tables t₁ + frames t₁ base (k + 1))) :
    Allocated xperm base k a b newsz t m r m' := by
  cases h with
  | @grown t' m' maps old fresh zero added =>
    have hframe : frame t' k = pa := by rw [frame, old k (by omega), pte_grown hk hadd.get, hadd.addr]
    refine .grown maps (fun v hv => ?_) (fun v hv hv' => ?_) (fun v hv hv' x hx => ?_)
      (hadd.moves_later added hmore hframe)
    · rw [old v (by omega), pte_grow hk hadd.get hv]
    · by_cases heq : v = k
      · subst heq
        rw [hframe, old v (by omega), pte_grown hk hadd.get]
      · exact fresh v (by omega) hv'
    · by_cases heq : v = k
      · subst heq
        rw [hframe] at hx
        exact hadd.later added hx
      · exact zero v (by omega) hv' x hx
  | failed maps old moves =>
    refine .failed maps (fun v hv => ?_) (hmoves.trans moves)
    rw [old v hv, pte_grow hk hadd.get (by omega)]

theorem allocLoop_spec {base newsz fuel : Nat} {xperm : UInt64} (hx : xperm.toNat < 1024) (h : Maps t k a b)
    (hbase : base ≤ k) (hk : k ≤ pageCount newsz) (hfuel : userPages < k + fuel)
    (hroom : k + (memory.free m).card + (tables t).card ≤ userPages) (hok : Sound m (tables t + frames t base k))
    (hapart : Apart m (tables t)) :
    Ends (allocLoop (base * PGSIZE) newsz xperm fuel t (k * PGSIZE)) m (Allocated xperm base k a b newsz t m) := by
  induction fuel generalizing k t m with
  | zero => exact absurd h.small (by omega)
  | succ fuel ih =>
    rw [allocLoop]
    by_cases hlt : k * PGSIZE < newsz
    · rw [if_pos hlt]
      refine .bind (kalloc_spec m) fun r m₁ hr => ?_
      cases r with
      | none =>
        exact allocLoop_undo h hbase hok rfl ((hr.frame (tables t + frames t base k)).congr (zero_add _) (zero_add _))
      | some mem =>
        refine .bind (memset_zero m₁ mem) fun _ m₂ hset => ?_
        have htaken : memory.Moves m 0 m₂ {mem} := hr.trans hset.1
        have hpage := hok.taken htaken
        have hcard := htaken.card
        rw [Multiset.card_singleton, Multiset.card_zero] at hcard
        have hk' : k < userPages := by omega
        refine .bind (mappages_taken h hbase hk' hok (userPerm_lt hx) (userPerm_r xperm) htaken) ?_
        rintro ⟨r, t₁⟩ m₃ (⟨rfl, hmaps, hget, hmapped, hgrown⟩ | ⟨rfl, hget, hmem, hleft⟩)
        · dsimp only at hmaps hget hgrown
          have hcard' := hgrown.card
          rw [Multiset.card_add, Multiset.card_add, card_frames, card_frames] at hcard'
          have hmore : k + 1 ≤ pageCount newsz := by
            have := mt pageCount_le.1 (Nat.not_le.2 hlt)
            omega
          have hadd := added_of_taken (hok.mono (Multiset.le_add_right _ _)) hapart htaken hset.2 hmapped hget
            (pte2pa_pa2pte hpage.aligned hpage.lt (userPerm_lt hx))
          rw [next_page (lt_vaPages (by omega))]
          exact (ih hmaps (by omega) hmore (by omega) (by omega) (hok.moves hgrown)
            (hadd.apart.mono (Multiset.le_add_right _ _))).mono fun r m' hr => hr.step hbase hk' hmore hadd hgrown
        · refine .bind (kfree_spec hmem) fun _ m₄ hfree => allocLoop_undo h hbase hok hget (hleft.trans ?_)
          exact (hfree.frame_left (tables t₁ + frames t₁ base k)).congr rfl (add_zero _)
    · rw [if_neg hlt]
      have heq : k = pageCount newsz := by
        have := pageCount_le.2 (Nat.le_of_not_lt hlt)
        omega
      subst heq
      refine .ret (.grown h (fun _ _ => rfl) (fun v hv hv' => absurd hv (by omega)) (fun v hv hv' => absurd hv (by omega)) ?_)
      rw [frames_self, add_zero]
      exact .refl m _

theorem uvmalloc_spec {oldsz newsz : Nat} {xperm : UInt64} (hx : xperm.toNat < 1024) (h : Maps t (pageCount oldsz) a b)
    (hle : oldsz ≤ newsz) (hroom : (memory.free m + space t (pageCount oldsz)).card ≤ userPages) (hok : Sound m (tables t))
    (hapart : Apart m (tables t)) :
    Ends (uvmalloc t oldsz newsz xperm) m
      (Allocated xperm (pageCount oldsz) (pageCount oldsz) a b newsz t m) := by
  have hcard : (memory.free m + space t (pageCount oldsz)).card =
      (memory.free m).card + ((tables t).card + (pageCount oldsz - 0)) := by
    rw [space, Multiset.card_add, Multiset.card_add, card_frames]
  rw [uvmalloc, if_neg (by omega), roundup_eq (pageCount_small h.small)]
  refine allocLoop_spec hx h (Nat.le_refl _) (pageCount_mono hle) ?_ (by omega) ?_ hapart
  · have : userPages < rounds := by decide
    omega
  · rw [frames_self, add_zero]
    exact hok

/-! ## `uvmcopy` -/

/-- What `uvmcopy` returns: the new space has grown from `k` pages to `n` by copies of the pages of
the old one, or maps none. -/
inductive Copied (old : Pagetable) (k n : Nat) (a b : UInt64) (new : Pagetable) (m : Mem) : Int × Pagetable → Mem → Prop where
  | copied {t' : Pagetable} {m' : Mem} (maps : Maps t' n a b) (kept : ∀ v < k, pte t' v = pte new v)
    (flags : ∀ v, k ≤ v → v < n → pte t' v = PA2PTE (frame t' v) ||| PTE_FLAGS (pte old v) ||| PTE_V)
    (bytes : ∀ v, k ≤ v → v < n → ∀ j < PGSIZE, m'.byte (frame t' v + j) = m.byte (frame old v + j))
    (added : memory.Moves m (tables new) m' (tables t' + frames t' k n)) :
    Copied old k n a b new m (0, t') m'
  | failed {t' : Pagetable} {m' : Mem} (maps : Maps t' 0 a b) (moves : memory.Moves m (space new k) m' (tables t')) :
    Copied old k n a b new m (-1, t') m'

/-- The pages of the old space take no part. -/
theorem frame_kept {old : Pagetable} {own own' : Multiset Nat} {v j : Nat} (hm : memory.Moves m own m' own')
    (hok : Sound m (own + frames old 0 n)) (hapart : Apart m (own + frames old 0 n)) (hv : v < n) (hj : j < PGSIZE) :
    m'.byte (frame old v + j) = m.byte (frame old v + j) := by
  have hle : own + {frame old v} ≤ own + frames old 0 n :=
    add_le_add_right (Multiset.singleton_le.2 (mem_frames.2 ⟨v, Nat.zero_le v, hv, rfl⟩)) _
  exact byte_kept hm (hok.mono hle) (hapart.mono hle) ⟨Nat.le_add_right _ _, by omega⟩

theorem Copied.step {old new t₁ : Pagetable} {m₁ : Mem} {r : Int × Pagetable} {pa : Nat}
    (h : Copied old (k + 1) n a b t₁ m₁ r m') (hk : k < userPages) (hmore : k < n)
    (hadd : Added k (PA2PTE pa ||| PTE_FLAGS (pte old k) ||| PTE_V) new m pa (fun x => m.byte (frame old k + (x - pa))) t₁ m₁)
    (hold : ∀ v < n, ∀ j < PGSIZE, m₁.byte (frame old v + j) = m.byte (frame old v + j))
    (hmoves : memory.Moves m (space new k) m₁ (space t₁ (k + 1))) : Copied old k n a b new m r m' := by
  cases h with
  | @copied t' m' maps kept flags bytes added =>
    have hframe : frame t' k = pa := by rw [frame, kept k (by omega), pte_grown hk hadd.get, hadd.addr]
    refine .copied maps (fun v hv => ?_) (fun v hv hv' => ?_) (fun v hv hv' j hj => ?_)
      (hadd.moves_later added hmore hframe)
    · rw [kept v (by omega), pte_grow hk hadd.get hv]
    · by_cases heq : v = k
      · subst heq
        rw [hframe, kept v (by omega), pte_grown hk hadd.get]
      · exact flags v (by omega) hv'
    · by_cases heq : v = k
      · subst heq
        rw [hframe, hadd.later added ⟨Nat.le_add_right _ _, by omega⟩, Nat.add_sub_cancel_left]
      · rw [bytes v (by omega) hv' j hj, hold v hv' j hj]
  | failed maps moves => exact .failed maps (hmoves.trans moves)

/-- `uvmcopy` gives up: it frees the pages of the new space. -/
theorem copyLoop_undo {old new t₁ : Pagetable} {m₁ : Mem} (h : Maps new k a b) (hok : Sound m (space new k))
    (hget : t₁.get = new.get) (hmoves : memory.Moves m (space new k) m₁ (space t₁ k)) :
    Ends (do let new ← uvmunmap t₁ 0 (k * PGSIZE / PGSIZE) true; pure (-1, new)) m₁ (Copied old k n a b new m) := by
  rw [Nat.mul_div_cancel _ pgsize_pos]
  refine .bind ((h.congr hget).uvmunmap_all fun pa hpa => (hok.moves hmoves).own (mem_space.2 (.inr hpa)))
    fun t₂ m₂ hs => .ret (.failed hs.maps ?_)
  rw [hs.tables]
  exact hmoves.trans ((hs.moves.frame_left (tables t₁)).congr rfl (add_zero _))

/-- The bytes of a page that has been copied. -/
theorem memmove_copy (m : Mem) (pa src : Nat) : Ends (memmove pa (bytesAt m.byte src PGSIZE)) m fun _ m' =>
    memory.Moves m {pa} m' {pa} ∧ ∀ x, InPage pa x → m'.byte x = m.byte (src + (x - pa)) := by
  have hlen : (bytesAt m.byte src PGSIZE).length = PGSIZE := by rw [bytesAt, List.length_map, List.length_range]
  obtain ⟨r, m', heq, hmoves⟩ := memmove_spec (Nat.le_of_eq hlen) m pa
  refine .of_eq heq ⟨hmoves, fun x hx => ?_⟩
  cases heq
  obtain ⟨hle, hlt⟩ := hx
  show write pa (bytesAt m.byte src PGSIZE) m.byte x = _
  rw [write, if_pos hle, List.getD_eq_getElem _ _ (by omega)]
  simp [bytesAt]

theorem copyLoop_spec {old new : Pagetable} {sz fuel : Nat} {c d : UInt64} (hold : Maps old (pageCount sz) c d)
    (h : Maps new k a b) (hk : k ≤ pageCount sz) (hfuel : pageCount sz < k + fuel) (hok : Sound m (space new k))
    (hsound : Sound m (tables new + frames old 0 (pageCount sz))) (hapart : Apart m (tables new + frames old 0 (pageCount sz))) :
    Ends (copyLoop old sz fuel new (k * PGSIZE)) m (Copied old k (pageCount sz) a b new m) := by
  induction fuel generalizing k new m with
  | zero => exact absurd hk (by omega)
  | succ fuel ih =>
    have hsmall := hold.small
    rw [copyLoop]
    by_cases hlt : k * PGSIZE < sz
    · have hmore : k + 1 ≤ pageCount sz := by
        have := mt pageCount_le.1 (Nat.not_le.2 hlt)
        omega
      have hleaf := hold.user k (by omega)
      rw [if_pos hlt]
      refine .step (walk_mapped (lt_vaPages (by omega)) hleaf.ne_zero m) ?_
      have hpte : old.get (entryOf k) = pte old k := rfl
      dsimp only
      rw [hpte, if_neg hleaf.1]
      refine .bind (kalloc_spec m) fun r m₁ hr => ?_
      cases r with
      | none => exact copyLoop_undo h hok rfl ((hr.frame (space new k)).congr (zero_add _) (zero_add _))
      | some mem =>
        refine .step (show (get : Prog Mem) m₁ = .ok (m₁, m₁) from rfl) ?_
        refine .bind (memmove_copy m₁ mem (frame old k)) fun _ m₂ hcopy => ?_
        have hr' : PTE_FLAGS (pte old k) &&& PTE_R ≠ 0 := by
          rw [flags_and _ (by decide)]
          exact hleaf.2
        have htaken : memory.Moves m 0 m₂ {mem} := hr.trans hcopy.1
        have hpage := hok.taken htaken
        have hsrc : ∀ v < pageCount sz, ∀ j < PGSIZE, m₁.byte (frame old v + j) = m.byte (frame old v + j) := by
          intro v hv j hj
          have hle : 0 + frames old 0 (pageCount sz) ≤ tables new + frames old 0 (pageCount sz) :=
            add_le_add_left (Multiset.zero_le _) _
          exact frame_kept hr (hsound.mono hle) (hapart.mono hle) hv hj
        refine .bind (mappages_taken h (Nat.zero_le k) (by omega) hok (flags_lt _) hr' htaken) ?_
        rintro ⟨r, t₁⟩ m₃ (⟨rfl, hmaps, hget, hmapped, hgrown⟩ | ⟨rfl, hget, hmem, hleft⟩)
        · rw [next_page (lt_vaPages (by omega))]
          have hdata : ∀ x, InPage mem x → m₂.byte x = m.byte (frame old k + (x - mem)) := by
            intro x hx
            rw [hcopy.2 x hx, hsrc k (by omega) (x - mem) (by have := hx.1; have := hx.2; omega)]
          have hadd := added_of_taken (hsound.mono (Multiset.le_add_right _ _)) (hapart.mono (Multiset.le_add_right _ _)) htaken hdata
            hmapped hget (pte2pa_pa2pte hpage.aligned hpage.lt (flags_lt _))
          have hframe : memory.Moves m (tables new + frames old 0 (pageCount sz)) m₃
              (tables t₁ + {mem} + frames old 0 (pageCount sz)) := hadd.moves.frame _
          have hle : tables t₁ + frames old 0 (pageCount sz) ≤ tables t₁ + {mem} + frames old 0 (pageCount sz) :=
            add_le_add_left (Multiset.le_add_right _ _) _
          refine (ih hmaps hmore (by omega) (hok.moves hgrown) ((hsound.moves hframe).mono hle)
            ((hapart.moves hframe).mono hle)).mono fun r m' hr => hr.step (by omega) hmore hadd (fun v hv j hj => ?_) hgrown
          exact frame_kept hadd.moves hsound hapart hv hj
        · refine .bind (kfree_spec hmem) fun _ m₄ hfree => copyLoop_undo h hok hget (hleft.trans ?_)
          exact (hfree.frame_left (space t₁ k)).congr rfl (add_zero _)
    · rw [if_neg hlt]
      have heq : k = pageCount sz := by
        have := pageCount_le.2 (Nat.le_of_not_lt hlt)
        omega
      subst heq
      refine .ret (.copied h (fun _ _ => rfl) (fun v hv hv' => absurd hv (by omega)) (fun v hv hv' => absurd hv (by omega)) ?_)
      rw [frames_self, add_zero]
      exact .refl m _

theorem uvmcopy_spec {old new : Pagetable} {sz : Nat} {c d : UInt64} (hold : Maps old (pageCount sz) c d)
    (h : Maps new 0 a b) (hsound : Sound m (tables new + frames old 0 (pageCount sz)))
    (hapart : Apart m (tables new + frames old 0 (pageCount sz))) :
    Ends (uvmcopy old new sz) m (Copied old 0 (pageCount sz) a b new m) := by
  have hfuel : pageCount sz < 0 + rounds := by
    have hsmall := hold.small
    have : userPages < rounds := by decide
    omega
  have hok : Sound m (space new 0) := by
    rw [space, frames_self, add_zero]
    exact hsound.mono (Multiset.le_add_right _ _)
  have hspec := copyLoop_spec hold h (Nat.zero_le _) hfuel hok hsound hapart
  rwa [Nat.zero_mul] at hspec

/-! ## `proc_pagetable` -/

def trampolinePte (ram : Ram) : UInt64 := PA2PTE ram.trampoline ||| (PTE_R ||| PTE_X) ||| PTE_V

def trapframePte (trapframe : Nat) : UInt64 := PA2PTE trapframe ||| (PTE_R ||| PTE_W) ||| PTE_V

theorem trampolinePte_leaf (ram : Ram) : Leaf (trampolinePte ram) := leaf_entry _ (by decide)

theorem trapframePte_leaf (trapframe : Nat) : Leaf (trapframePte trapframe) := leaf_entry _ (by decide)

theorem Maps.map_trampoline {p : UInt64} (h : Maps t n 0 b) (hget : t'.get = Function.update t.get (entryOf (userPages + 1)) p) :
    Maps t' n p b where
  small := h.small
  user v hv := by
    have hsmall := h.small
    rw [pte_of_update hget (lt_pages (Nat.le_refl _)) (lt_pages (by omega)), if_neg (by omega)]
    exact h.user v hv
  rest v hv hv' := by
    rw [pte_of_update hget (lt_pages (Nat.le_refl _)) hv', h.rest v hv hv', kernelPte, kernelPte]
    split_ifs <;> rfl

theorem Maps.map_trapframe {p : UInt64} (h : Maps t n a 0) (hget : t'.get = Function.update t.get (entryOf userPages) p) :
    Maps t' n a p where
  small := h.small
  user v hv := by
    have hsmall := h.small
    rw [pte_of_update hget (lt_pages (by omega)) (lt_pages (by omega)), if_neg (by omega)]
    exact h.user v hv
  rest v hv hv' := by
    rw [pte_of_update hget (lt_pages (by omega)) hv', h.rest v hv hv', kernelPte, kernelPte]
    split_ifs <;> first | rfl | omega

theorem tables_fresh (pa : Nat) : tables ⟨pa, fun _ => none⟩ = {pa} := owned_fresh middlePages pa

theorem uvmcreate_spec (m : Mem) :
    Ends uvmcreate m fun r m' => memory.Moves m 0 m' (r.elim 0 tables) ∧ ∀ t, r = some t → Maps t 0 0 0 := by
  refine .bind (kalloc_spec m) fun r m₁ hr => ?_
  cases r with
  | none => exact .ret ⟨hr, fun _ h => nomatch h⟩
  | some pa =>
    refine .bind (memset_spec m₁ pa 0) fun _ m₂ hset => .ret ⟨?_, ?_⟩
    · rw [Option.elim_some, tables_fresh]
      exact hr.trans hset
    · rintro t heq
      cases heq
      refine ⟨Nat.zero_le _, fun v hv => absurd hv (Nat.not_lt_zero v), fun v _ _ => ?_⟩
      rw [kernelPte, ite_self, ite_self]
      rfl

/-- A space that maps nothing yet is freed. -/
theorem uvmfree_empty (h : Maps t 0 0 0) (hok : Sound m (tables t)) :
    Ends (uvmfree t 0) m fun _ m' => memory.Moves m (tables t) m' 0 := by
  have hspace : space t (pageCount 0) = tables t := by
    rw [space, show pageCount 0 = 0 from rfl, frames_self, add_zero]
  have hfree : Ends (uvmfree t 0) m _ := uvmfree_spec h fun pa hpa => hok.own (hspace ▸ hpa)
  rwa [hspace] at hfree

theorem procPagetable_spec (trapframe : Nat) (hok : Sound m 0) :
    Ends (procPagetable trapframe) m fun r m' => memory.Moves m 0 m' (r.elim 0 tables) ∧
      ∀ t, r = some t → Maps t 0 (trampolinePte m.ram) (trapframePte trapframe) := by
  refine .bind (uvmcreate_spec m) ?_
  rintro (_ | t) m₁ ⟨hmoves, hmaps⟩
  · exact .ret ⟨hmoves, fun _ h => nomatch h⟩
  have hmaps := hmaps t rfl
  rw [Option.elim_some] at hmoves
  have hram : m₁.ram = m.ram := hmoves.fixed
  refine .step (show (get : Prog Mem) m₁ = .ok (m₁, m₁) from rfl) ?_
  rw [show TRAMPOLINE = (userPages + 1) * PGSIZE by decide]
  refine .bind (mappages_spec (lt_vaPages (Nat.le_refl _)) hmaps.trampoline _ _ m₁) ?_
  rintro ⟨_, t₁⟩ m₂ ⟨hmoves₁, ⟨rfl, hget₁⟩ | ⟨rfl, hget₁⟩⟩
  · dsimp only at hmoves₁ hget₁ ⊢
    have hmaps₁ := hmaps.map_trampoline hget₁
    rw [show TRAPFRAME = userPages * PGSIZE by decide]
    refine .bind (mappages_spec (lt_vaPages (by omega)) hmaps₁.trapframe trapframe _ m₂) ?_
    rintro ⟨_, t₂⟩ m₃ ⟨hmoves₂, ⟨rfl, hget₂⟩ | ⟨rfl, hget₂⟩⟩
    · refine .ret ⟨hmoves.trans (hmoves₁.trans hmoves₂), ?_⟩
      rintro t heq
      cases heq
      rw [← hram]
      exact hmaps₁.map_trapframe hget₂
    · dsimp only at hmoves₂ hget₂
      have hall := hmoves.trans (hmoves₁.trans hmoves₂)
      have hmaps₂ := hmaps₁.congr hget₂
      have hva := lt_vaPages (Nat.le_refl (userPages + 1))
      refine .bind (uvmunmap_spec false (v := userPages + 1) (by omega) (fun w hw hw' => ?_) fun h => nomatch h)
        fun t₃ m₄ hu => ?_
      · rw [show w = userPages + 1 by omega, hmaps₂.trampoline]
        exact (leaf_entry _ (by decide)).mapped
      · have hall' : memory.Moves m 0 m₄ (tables t₃) := by
          rw [hu.tables]
          exact hall.trans ((hu.moves.frame (tables t₂)).congr (zero_add _) (zero_add _))
        refine .bind (uvmfree_empty (hmaps₂.unmap_trampoline hu) (hok.moves hall')) fun _ m₅ hfree => ?_
        exact .ret ⟨hall'.trans hfree, fun _ h => nomatch h⟩
  · dsimp only at hmoves₁ hget₁
    have hall := hmoves.trans hmoves₁
    refine .bind (uvmfree_empty (hmaps.congr hget₁) (hok.moves hall)) fun _ m₃ hfree => ?_
    exact .ret ⟨hall.trans hfree, fun _ h => nomatch h⟩

end Xv6.Vm
