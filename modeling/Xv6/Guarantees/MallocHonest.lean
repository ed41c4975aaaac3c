import Xv6.Guarantees.HeapSound

/-!
# malloc at the limits of sbrk

`morecore` multiplies a number of units in 64 bits and passes the product as an `int`. From two
gigabytes on, `sbrk` is asked to shrink the memory or to add a few bytes, does so without an error,
and the header that `morecore` writes counts units that are not there.
-/
namespace Xv6.Guarantees.MallocHonest

open Xv6.Source.Umalloc Xv6.Heap Xv6.Guarantees.HeapSound

/-- The heaps at which the loop of `malloc` calls `morecore`. -/
def asks (answer : Sbrk) (nunits : Nat) : Nat → Heap → Nat → Nat → List Heap
  | 0, _, _, _ => []
  | rounds + 1, h, _, p =>
    if h.size p ≥ nunits then []
    else if p = h.freep then
      h :: match morecoreInt answer rounds h nunits with
        | some (true, h) => asks answer nunits rounds h h.freep (h.ptr h.freep)
        | _ => []
    else asks answer nunits rounds h p (h.ptr p)

/-- The call of `sbrk` in `morecore` does not shrink the memory, and supplies what its header counts. -/
def Supplies (answer : Sbrk) (nu : Nat) (h : Heap) : Prop :=
  ∀ hp h', sbrkInt answer (narrow (grain nu * HEADER)) h = (some hp, h') →
    h.brk ≤ h'.brk ∧ hp + grain nu * HEADER ≤ h'.brk

/-- `malloc` returns the null pointer or enough bytes below the break. -/
structure Honest (base : Nat) (answer : Sbrk) (h : Heap) (nbytes : Nat) : Prop where
  returns : ∃ rounds x, mallocInt base answer rounds h nbytes = some x
  block : ∀ rounds x, mallocInt base answer rounds h nbytes = some x →
    x.1 = 0 ∨ ∃ units, x.2.size (x.1 - HEADER) = units + 1 ∧ nbytes ≤ units * HEADER ∧
      x.1 + units * HEADER ≤ x.2.brk
  morecore : ∀ rounds, ∀ h₀ ∈ asks answer (unitsFor nbytes) rounds (ready base h) (ready base h).freep
    ((ready base h).ptr (ready base h).freep), Supplies answer (unitsFor nbytes) h₀

/-! ## Requests that fit -/

section fits
variable {answer : Sbrk} {nunits : Nat}

theorem narrow_of_lt {n : Nat} (h : n < 2 ^ 31) : narrow n = n := by
  rw [narrow, Nat.mod_eq_of_lt (by omega), if_pos h]

theorem grain_fits (h : nunits * HEADER < 2 ^ 31) : grain nunits * HEADER < 2 ^ 31 := by
  unfold grain
  split
  · decide
  · exact h

theorem sbrkInt_of_fits (answer : Sbrk) {nu : Nat} (hpos : 0 < nu) (h : nu * HEADER < 2 ^ 31) (heap : Heap) :
    sbrkInt answer (narrow (nu * HEADER)) heap = sbrk answer nu heap := by
  have hn : 0 < ((nu * HEADER : Nat) : Int) := by
    rw [HEADER] at h ⊢
    omega
  rw [narrow_of_lt h, sbrkInt, if_pos hn, sbrk, Int.toNat_natCast, Nat.mul_div_cancel _ header_pos]

theorem morecoreInt_of_fits (h : nunits * HEADER < 2 ^ 31) (rounds : Nat) (heap : Heap) :
    morecoreInt answer rounds heap nunits = morecore answer rounds heap nunits := by
  have hsbrk := sbrkInt_of_fits answer (le_grain nunits).2 (grain_fits h) heap
  unfold grain at hsbrk
  rw [morecoreInt, morecore, hsbrk]

theorem scanInt_of_fits (h : nunits * HEADER < 2 ^ 31) (rounds : Nat) (heap : Heap) (prevp p : Nat) :
    scanInt answer nunits rounds heap prevp p = scan answer nunits rounds heap prevp p := by
  induction rounds generalizing heap prevp p with
  | zero => rfl
  | succ rounds ih =>
    rw [scanInt, scan, morecoreInt_of_fits h]
    simp only [ih]

theorem supplies_of_fits (h : nunits * HEADER < 2 ^ 31) (heap : Heap) : Supplies answer nunits heap := by
  intro hp h' hsbrk
  rw [sbrkInt_of_fits answer (le_grain nunits).2 (grain_fits h), sbrk] at hsbrk
  split at hsbrk
  · cases hsbrk
  · cases hsbrk
    exact ⟨by dsimp only; omega, Nat.le_refl _⟩

/-- A larger request is not supplied, unless `sbrk` fails. -/
theorem not_supplies {nbytes : Nat} (hbytes : nbytes < 2 ^ 32) (h : 2 ^ 31 ≤ unitsFor nbytes * HEADER) {heap : Heap}
    (hsome : (sbrkInt answer (narrow (grain (unitsFor nbytes) * HEADER)) heap).1 ≠ none) :
    ¬ Supplies answer (unitsFor nbytes) heap := by
  have hgrain : grain (unitsFor nbytes) = unitsFor nbytes := by
    rw [HEADER] at h
    exact if_neg (by omega)
  have hle : unitsFor nbytes ≤ 2 ^ 28 + 1 := by
    rw [unitsFor, uint, HEADER]
    omega
  have hnarrow : narrow (unitsFor nbytes * HEADER) = ((unitsFor nbytes * HEADER : Nat) : Int) - 2 ^ 32 := by
    rw [narrow, HEADER]
    rw [HEADER] at h
    split <;> omega
  have hpos : 16 < unitsFor nbytes * HEADER ∧ unitsFor nbytes * HEADER ≤ 2 ^ 32 + 16 := by
    rw [HEADER] at h ⊢
    omega
  intro hsupplies
  rw [Supplies, hgrain, hnarrow] at hsupplies
  rw [hgrain, hnarrow] at hsome
  generalize unitsFor nbytes * HEADER = total at *
  rw [sbrkInt] at hsome hsupplies
  by_cases hn : 0 < (total : Int) - 2 ^ 32
  · rw [if_pos hn] at hsome hsupplies
    cases hanswer : answer heap.calls with
    | none => simp [hanswer] at hsome
    | some gap =>
      rw [hanswer] at hsupplies
      have hend := (hsupplies _ _ rfl).2
      dsimp only at hend
      omega
  · rw [if_neg hn] at hsupplies
    have hend := (hsupplies _ _ rfl).2
    dsimp only at hend
    split at hend <;> omega

end fits

/-! ## The loop of malloc -/

section loop
variable {base nunits : Nat} {answer : Sbrk} {h : Heap} {fs live : List Block}

theorem take_ne_zero (prevp p : Nat) : (take nunits prevp p h).1 ≠ 0 := by
  have hpos := header_pos
  unfold take
  split <;> dsimp only <;> omega

/-- The loop takes a block, runs out of rounds, or comes to `morecore`, and what `sbrk` does has no part
in which of these it is. -/
theorem scan_cases (answer : Sbrk) (nunits rounds : Nat) (h : Heap) (prevp p : Nat) :
    (∃ x, x.1 ≠ 0 ∧ (∀ answer', scan answer' nunits rounds h prevp p = some x) ∧
      scanInt answer nunits rounds h prevp p = some x ∧ asks answer nunits rounds h prevp p = []) ∨
    ((∀ answer', scan answer' nunits rounds h prevp p = none) ∧ scanInt answer nunits rounds h prevp p = none ∧
      asks answer nunits rounds h prevp p = []) ∨
    h.size h.freep < nunits ∧ ∃ n q, (∀ answer', scan answer' nunits rounds h prevp p =
        scan answer' nunits (n + 1) h q h.freep) ∧
      scanInt answer nunits rounds h prevp p = scanInt answer nunits (n + 1) h q h.freep ∧
      asks answer nunits rounds h prevp p = asks answer nunits (n + 1) h q h.freep := by
  induction rounds generalizing prevp p with
  | zero => exact .inr (.inl ⟨fun _ => rfl, rfl, rfl⟩)
  | succ rounds ih =>
    by_cases hsize : h.size p ≥ nunits
    · left
      refine ⟨take nunits prevp p h, take_ne_zero prevp p, fun answer' => ?_, ?_, ?_⟩
      · rw [scan, if_pos hsize]
      · rw [scanInt, if_pos hsize]
      · rw [asks, if_pos hsize]
    · by_cases hfreep : p = h.freep
      · subst hfreep
        exact .inr (.inr ⟨by omega, rounds, prevp, fun _ => rfl, rfl, rfl⟩)
      · have hscan : ∀ answer', scan answer' nunits (rounds + 1) h prevp p =
            scan answer' nunits rounds h p (h.ptr p) := by
          intro answer'
          rw [scan, if_neg hsize, if_neg hfreep]
        have hscanInt : scanInt answer nunits (rounds + 1) h prevp p =
            scanInt answer nunits rounds h p (h.ptr p) := by
          rw [scanInt, if_neg hsize, if_neg hfreep]
        have hasks : asks answer nunits (rounds + 1) h prevp p = asks answer nunits rounds h p (h.ptr p) := by
          rw [asks, if_neg hsize, if_neg hfreep]
        simpa only [hscan, hscanInt, hasks] using ih p (h.ptr p)

/-- Where `sbrk` always fails, the loop returns the null pointer when it comes to `morecore`. -/
theorem scan_never (hsmall : h.size h.freep < nunits) (n q : Nat) :
    ∃ x, scan (fun _ => none) nunits (n + 1) h q h.freep = some x ∧ x.1 = 0 := by
  rw [scan, if_neg (by omega), if_pos rfl]
  exact ⟨_, rfl, rfl⟩

/-- Around the whole list: the loop takes a block if one is large enough, and else comes to `morecore`. -/
theorem scanInt_round (answer : Sbrk) (hs : Shares base h fs live) (hpos : 0 < nunits) (rounds : Nat) (hrounds : fs.length < rounds) :
    (∃ x, (∃ c ∈ fs, nunits ≤ c.size) ∧ x.1 ≠ 0 ∧
      scan (fun _ => none) nunits rounds h h.freep (h.ptr h.freep) = some x ∧
      scanInt answer nunits rounds h h.freep (h.ptr h.freep) = some x) ∨
    (∀ c ∈ fs, c.size < nunits) ∧ h.size h.freep < nunits ∧ ∃ n q,
      scanInt answer nunits rounds h h.freep (h.ptr h.freep) = scanInt answer nunits (n + 1) h q h.freep ∧
      asks answer nunits rounds h h.freep (h.ptr h.freep) = asks answer nunits (n + 1) h q h.freep := by
  rcases hs.scan_round (fun _ => none) nunits rounds hpos hrounds with
    ⟨x, hscan, hlarge, -, a, -, hptr, -⟩ | ⟨hsmall, q, hscan⟩
  · have hne : x.1 ≠ 0 := by
      have := header_pos
      omega
    rcases scan_cases answer nunits rounds h h.freep (h.ptr h.freep) with
      ⟨y, hy, hall, hint, -⟩ | ⟨hall, -⟩ | ⟨hfull, n, q, hall, -⟩
    · exact .inl ⟨y, hlarge, hy, hall _, hint⟩
    · rw [hall] at hscan
      exact nomatch hscan
    · obtain ⟨y, hy, hzero⟩ := scan_never hfull n q
      rw [hall, hy] at hscan
      cases hscan
      exact absurd hzero hne
  · obtain ⟨k, hk⟩ : ∃ k, rounds - fs.length = k + 1 := ⟨rounds - fs.length - 1, by omega⟩
    rw [hk, hs.scan_morecore _ nunits hsmall hpos] at hscan
    rcases scan_cases answer nunits rounds h h.freep (h.ptr h.freep) with
      ⟨y, hne, hall, -⟩ | ⟨hall, -⟩ | ⟨hfull, n, q, -, hint, hasks⟩
    · rw [hall] at hscan
      cases hscan
      exact absurd rfl hne
    · rw [hall] at hscan
      exact nomatch hscan
    · exact .inr ⟨hsmall, hfull, n, q, hint, hasks⟩

/-- What the loop returns where the request fits or needs nothing from `sbrk`. -/
theorem block_of_scan {nbytes : Nat} (hs : Shares base h fs live) (hbytes : nbytes < 2 ^ 32) {rounds : Nat} {x : Nat × Heap}
    (hroom : ∀ gap, answer h.calls = some gap → h.supplied + grain (unitsFor nbytes) < 2 ^ 32)
    (hscan : scan answer (unitsFor nbytes) rounds h h.freep (h.ptr h.freep) = some x) :
    x.1 = 0 ∨ ∃ units, x.2.size (x.1 - HEADER) = units + 1 ∧ nbytes ≤ units * HEADER ∧
      x.1 + units * HEADER ≤ x.2.brk := by
  obtain ⟨hpos, hunits⟩ := unitsFor_spec hbytes
  have hmore := scan_mono hscan (2 * fs.length + 4)
  obtain ⟨y, hy, hsound⟩ := hs.scan_spec answer (unitsFor nbytes) (rounds + (2 * fs.length + 4)) hpos
    (fun _ => hroom) (by omega)
  rw [hmore, Option.some.injEq] at hy
  subst hy
  rcases hsound with ⟨hnull, -⟩ | ⟨a, fs', hptr, hsize, hres⟩
  · exact .inl hnull
  · right
    have haddr : x.1 - HEADER = a.addr := by omega
    have hstop := hres.below a (List.mem_append_right _ List.mem_cons_self)
    rw [Block.stop, hsize] at hstop
    obtain ⟨k, hk⟩ : ∃ k, unitsFor nbytes = k + 1 := ⟨unitsFor nbytes - 1, by omega⟩
    rw [hk, Nat.succ_mul] at hunits hstop
    refine ⟨k, ?_, by omega, by omega⟩
    rw [haddr, hres.live_size a List.mem_cons_self, hsize, hk]

/-- Where `sbrk` fails, the loop returns the null pointer from `morecore`. -/
theorem scanInt_failed (hsmall : h.size h.freep < nunits)
    (hfails : (sbrkInt answer (narrow (grain nunits * HEADER)) h).1 = none) (n q : Nat) :
    (∃ h', scanInt answer nunits (n + 1) h q h.freep = some (0, h')) ∧ asks answer nunits (n + 1) h q h.freep = [h] := by
  obtain ⟨h', hsbrk⟩ : ∃ h', sbrkInt answer (narrow (grain nunits * HEADER)) h = (none, h') := ⟨_, Prod.ext hfails rfl⟩
  have hmore : morecoreInt answer n h nunits = some (false, h') := by
    unfold grain at hsbrk
    rw [morecoreInt, hsbrk]
  have hfull : ¬ h.size h.freep ≥ nunits := by omega
  refine ⟨⟨h', ?_⟩, ?_⟩
  · rw [scanInt, if_neg hfull, if_pos rfl, hmore]
  · rw [asks, if_neg hfull, if_pos rfl, hmore]

end loop

/-! ## Every request -/

section honest
variable {base nbytes : Nat} {answer : Sbrk} {h : Heap} {fs live : List Block}

theorem honest_of_fits (hs : Shares base (ready base h) fs live) (hbytes : nbytes < 2 ^ 32)
    (hroom : (ready base h).supplied + grain (unitsFor nbytes) < 2 ^ 32)
    (hfits : unitsFor nbytes * HEADER < 2 ^ 31) : Honest base answer h nbytes := by
  refine ⟨?_, fun rounds x hx => ?_, fun rounds h₀ _ => supplies_of_fits hfits h₀⟩
  · obtain ⟨x, hx, -⟩ := hs.scan_spec answer (unitsFor nbytes) (2 * fs.length + 4) (unitsFor_spec hbytes).1
      (fun _ _ _ => hroom) (by omega)
    exact ⟨2 * fs.length + 4, x, (scanInt_of_fits hfits ..).trans hx⟩
  · exact block_of_scan hs hbytes (fun _ _ => hroom) ((scanInt_of_fits hfits ..).symm.trans hx)

/-- Where `morecore` is not called, or `sbrk` fails in it. -/
theorem honest_of_local (hs : Shares base (ready base h) fs live) (hbytes : nbytes < 2 ^ 32)
    (hlocal : (∃ c ∈ fs, unitsFor nbytes ≤ c.size) ∨
      (sbrkInt answer (narrow (grain (unitsFor nbytes) * HEADER)) (ready base h)).1 = none) :
    Honest base answer h nbytes := by
  have hpos := (unitsFor_spec hbytes).1
  -- the loop comes to `morecore` only if no block is large enough
  have hfails : ∀ rounds n q, (ready base h).size (ready base h).freep < unitsFor nbytes →
      (∀ answer', scan answer' (unitsFor nbytes) rounds (ready base h) (ready base h).freep
        ((ready base h).ptr (ready base h).freep) = scan answer' (unitsFor nbytes) (n + 1) (ready base h) q
          (ready base h).freep) →
      (sbrkInt answer (narrow (grain (unitsFor nbytes) * HEADER)) (ready base h)).1 = none := by
    intro rounds n q hfull hall
    refine hlocal.resolve_left fun ⟨c, hc, hle⟩ => ?_
    obtain ⟨x, hx, hzero⟩ := scan_never hfull n q
    have hmore := scan_mono ((hall _).trans hx) (fs.length + 1)
    rcases scanInt_round answer hs hpos (rounds + (fs.length + 1)) (by omega) with
      ⟨y, -, hne, hy, -⟩ | ⟨hsmall, -⟩
    · rw [hmore] at hy
      cases hy
      exact hne hzero
    · have := hsmall c hc
      omega
  refine ⟨?_, fun rounds x hx => ?_, fun rounds h₀ hh₀ => ?_⟩
  · rcases scanInt_round answer hs hpos (fs.length + 1) (by omega) with
      ⟨x, -, -, -, hx⟩ | ⟨hsmall, hfull, n, q, hint, -⟩
    · exact ⟨fs.length + 1, x, hx⟩
    · have hnone := hlocal.resolve_left fun ⟨c, hc, hle⟩ => absurd (hsmall c hc) (by omega)
      obtain ⟨⟨h', hnull⟩, -⟩ := scanInt_failed hfull hnone n q
      exact ⟨fs.length + 1, (0, h'), hint.trans hnull⟩
  · rcases scan_cases answer (unitsFor nbytes) rounds (ready base h) (ready base h).freep
      ((ready base h).ptr (ready base h).freep) with ⟨y, -, hall, hint, -⟩ | ⟨-, hint, -⟩ | ⟨hfull, n, q, hall, hint, -⟩
    · rw [mallocInt, hint, Option.some.injEq] at hx
      subst hx
      exact block_of_scan hs hbytes (by intro gap hgap; exact nomatch hgap) (hall fun _ => none)
    · rw [mallocInt, hint] at hx
      exact nomatch hx
    · obtain ⟨⟨h', hnull⟩, -⟩ := scanInt_failed hfull (hfails rounds n q hfull hall) n q
      rw [mallocInt, hint, hnull, Option.some.injEq] at hx
      exact .inl (by rw [← hx])
  · rcases scan_cases answer (unitsFor nbytes) rounds (ready base h) (ready base h).freep
      ((ready base h).ptr (ready base h).freep) with ⟨y, -, -, -, hasks⟩ | ⟨-, -, hasks⟩ | ⟨hfull, n, q, hall, -, hasks⟩
    · rw [hasks] at hh₀
      exact nomatch hh₀
    · rw [hasks] at hh₀
      exact nomatch hh₀
    · have hnone := hfails rounds n q hfull hall
      obtain ⟨-, hone⟩ := scanInt_failed hfull hnone n q
      rw [hasks, hone, List.mem_singleton] at hh₀
      subst hh₀
      intro hp h' hsbrk
      rw [hsbrk] at hnone
      exact nomatch hnone

/-- For every request and every heap, `malloc` is honest if and only if the rounded size fits into the `int` of
`sbrk`, or a free block is large enough, or `sbrk` fails. -/
theorem malloc_honest_iff (hs : Shares base (ready base h) fs live) (hbytes : nbytes < 2 ^ 32)
    (hroom : (ready base h).supplied + grain (unitsFor nbytes) < 2 ^ 32) :
    Honest base answer h nbytes ↔ unitsFor nbytes * HEADER < 2 ^ 31 ∨ (∃ c ∈ fs, unitsFor nbytes ≤ c.size) ∨
      (sbrkInt answer (narrow (grain (unitsFor nbytes) * HEADER)) (ready base h)).1 = none := by
  constructor
  · intro hhonest
    by_contra hnot
    simp only [not_or] at hnot
    obtain ⟨hlarge, hblocks, hsome⟩ := hnot
    rcases scanInt_round answer hs (unitsFor_spec hbytes).1 (fs.length + 1) (by omega) with
      ⟨x, hblock, -⟩ | ⟨-, hfull, n, q, -, hasks⟩
    · exact hblocks hblock
    · refine not_supplies hbytes (Nat.le_of_not_lt hlarge) hsome (hhonest.morecore (fs.length + 1) (ready base h) ?_)
      rw [hasks, asks, if_neg (by omega), if_pos rfl]
      exact List.mem_cons_self
  · rintro (hfits | hlocal)
    · exact honest_of_fits hs hbytes hroom hfits
    · exact honest_of_local hs hbytes hlocal

end honest

/-- A hundred bytes at the first call. -/
theorem malloc_honest_hundred : Honest 16 (fun _ => some 0) start.heap 100 := by
  refine (malloc_honest_iff start_initial.ready (by decide) (by decide)).mpr (.inl ?_)
  decide

/-- A request of 4294967295 bytes gets none, and one of 2147483648 bytes takes back what the break was raised
by before. -/
theorem malloc_beyond_break :
    (mallocInt 16 (fun _ => some 0) 10 start.heap (2 ^ 32 - 1)).map (fun x => (x.1, x.2.brk)) = some (48, 48) ∧
    (mallocInt 16 (fun _ => some 0) 10 { start.heap with brk := 2 ^ 31 + 32 } (2 ^ 31)).map
      (fun x => (x.1, x.2.brk)) = some (2 ^ 31 + 48, 48) := by
  decide +kernel

end Xv6.Guarantees.MallocHonest
