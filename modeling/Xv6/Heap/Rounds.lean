import Xv6.Heap.Calls

/-!
# Rounds and supply

A call that has come to its end does so, with the same result, in any greater number of rounds. No
call takes memory back to `sbrk`.
-/
namespace Xv6.Heap

open Xv6.Source.Umalloc

variable {answer : Sbrk} {h h' : Heap}

/-! ## More rounds -/

theorem place_mono {bp p q n : Nat} (hplace : place h bp n p = some q) (k : Nat) : place h bp (n + k) p = some q := by
  induction n generalizing p with
  | zero => exact nomatch hplace
  | succ n ih =>
    rw [Nat.succ_add]
    rw [place] at hplace ⊢
    split
    · rwa [if_pos (by assumption)] at hplace
    · rw [if_neg (by assumption)] at hplace
      split
      · rwa [if_pos (by assumption)] at hplace
      · rw [if_neg (by assumption)] at hplace
        exact ih hplace

theorem free_mono {ap n : Nat} (hfree : free n h ap = some h') (k : Nat) : free (n + k) h ap = some h' := by
  obtain ⟨p, hp, heq⟩ := Option.map_eq_some_iff.1 hfree
  exact Option.map_eq_some_iff.2 ⟨p, place_mono hp k, heq⟩

theorem morecore_mono {nu n : Nat} {x : Bool × Heap} (hmore : morecore answer n h nu = some x) (k : Nat) :
    morecore answer (n + k) h nu = some x := by
  cases hanswer : answer h.calls with
  | none =>
    simp only [morecore, sbrk, hanswer] at hmore ⊢
    exact hmore
  | some gap =>
    simp only [morecore, sbrk, hanswer] at hmore ⊢
    obtain ⟨h₁, hfree, heq⟩ := Option.map_eq_some_iff.1 hmore
    exact Option.map_eq_some_iff.2 ⟨h₁, free_mono hfree k, heq⟩

theorem scan_mono {nunits n prevp p : Nat} {x : Nat × Heap} (hscan : scan answer nunits n h prevp p = some x) (k : Nat) :
    scan answer nunits (n + k) h prevp p = some x := by
  induction n generalizing h prevp p with
  | zero => cases hscan
  | succ n ih =>
    rw [Nat.succ_add]
    rw [scan] at hscan ⊢
    by_cases hsize : h.size p ≥ nunits
    · rwa [if_pos hsize] at hscan ⊢
    rw [if_neg hsize] at hscan ⊢
    by_cases hfreep : p = h.freep
    · rw [if_pos hfreep] at hscan ⊢
      cases hmore : morecore answer n h nunits with
      | none =>
        rw [hmore] at hscan
        cases hscan
      | some y =>
        obtain ⟨ok, h₁⟩ := y
        rw [hmore] at hscan
        rw [morecore_mono hmore k]
        cases ok with
        | false => exact hscan
        | true => exact ih hscan
    · rw [if_neg hfreep] at hscan ⊢
      exact ih hscan

/-! ## What sbrk has supplied -/

theorem joinNext_supplied (bp p : Nat) : (joinNext bp p h).supplied = h.supplied := by
  rw [joinNext]
  split <;> rfl

theorem joinPrev_supplied (bp p : Nat) : (joinPrev bp p h).supplied = h.supplied := by
  rw [joinPrev]
  split <;> rfl

theorem free_supplied {rounds ap : Nat} (hfree : free rounds h ap = some h') : h'.supplied = h.supplied := by
  obtain ⟨p, -, rfl⟩ := Option.map_eq_some_iff.1 hfree
  exact (joinPrev_supplied _ _).trans (joinNext_supplied _ _)

theorem morecore_supplied {rounds nu : Nat} {ok : Bool} (hmore : morecore answer rounds h nu = some (ok, h')) :
    h'.supplied = h.supplied + if (answer h.calls).isSome then grain nu else 0 := by
  cases hanswer : answer h.calls with
  | none =>
    simp only [morecore, sbrk, hanswer, Option.some.injEq, Prod.mk.injEq] at hmore
    rw [← hmore.2]
    rfl
  | some gap =>
    simp only [morecore, sbrk, hanswer] at hmore
    obtain ⟨h₁, hfree, heq⟩ := Option.map_eq_some_iff.1 hmore
    rw [← (Prod.mk.inj heq).2, free_supplied hfree]
    rfl

theorem take_supplied (nunits prevp p : Nat) : (take nunits prevp p h).2.supplied = h.supplied := by
  rw [take]
  split <;> rfl

theorem supplied_le_scan {nunits rounds prevp p : Nat} {x : Nat × Heap}
    (hscan : scan answer nunits rounds h prevp p = some x) : h.supplied ≤ x.2.supplied := by
  induction rounds generalizing h prevp p with
  | zero => cases hscan
  | succ rounds ih =>
    rw [scan] at hscan
    by_cases hsize : h.size p ≥ nunits
    · rw [if_pos hsize, Option.some.injEq] at hscan
      rw [← hscan, take_supplied]
    rw [if_neg hsize] at hscan
    by_cases hfreep : p = h.freep
    · rw [if_pos hfreep] at hscan
      cases hmore : morecore answer rounds h nunits with
      | none =>
        rw [hmore] at hscan
        cases hscan
      | some y =>
        obtain ⟨ok, h₁⟩ := y
        rw [hmore] at hscan
        have hgrown : h.supplied ≤ h₁.supplied := by
          rw [morecore_supplied hmore]
          exact Nat.le_add_right _ _
        cases ok with
        | false =>
          rw [← Option.some.inj hscan]
          exact hgrown
        | true => exact Nat.le_trans hgrown (ih hscan)
    · rw [if_neg hfreep] at hscan
      exact ih hscan

/-! ## malloc, in any number of rounds -/

variable {base nunits : Nat} {fs live : List Block} {x : Nat × Heap}

/-- What `sbrk` has supplied at the end bounds what it supplies on the way. -/
theorem Shares.scan_room (hs : Shares base h fs live) (hpos : 0 < nunits) {rounds : Nat} (hrounds : fs.length < rounds)
    (hscan : scan answer nunits rounds h h.freep (h.ptr h.freep) = some x) (hx : x.2.supplied < 2 ^ 32)
    (hsmall : ∀ c ∈ fs, c.size < nunits) (gap : Nat) (hanswer : answer h.calls = some gap) :
    h.supplied + grain nunits < 2 ^ 32 := by
  rcases hs.scan_round answer nunits rounds hpos hrounds with ⟨-, -, ⟨c, hc, hle⟩, -⟩ | ⟨-, q, heq⟩
  · have := hsmall c hc
    omega
  obtain ⟨n, hn⟩ : ∃ n, rounds - fs.length = n + 1 := ⟨rounds - fs.length - 1, by omega⟩
  rw [heq, hn, hs.scan_morecore answer nunits hsmall hpos] at hscan
  cases hmore : morecore answer n h nunits with
  | none =>
    rw [hmore] at hscan
    exact nomatch hscan
  | some y =>
    obtain ⟨ok, h₁⟩ := y
    rw [hmore] at hscan
    have hgrown := morecore_supplied hmore
    rw [hanswer, Option.isSome_some, if_pos rfl] at hgrown
    cases ok with
    | false =>
      rw [← Option.some.inj hscan] at hx
      exact hgrown ▸ hx
    | true =>
      have := supplied_le_scan hscan
      omega

theorem Shares.scan_sound (hs : Shares base h fs live) (hpos : 0 < nunits) {rounds : Nat}
    (hscan : scan answer nunits rounds h h.freep (h.ptr h.freep) = some x) (hx : x.2.supplied < 2 ^ 32) :
    (x.1 = 0 ∧ ∃ fs', Shares base x.2 fs' live) ∨
      ∃ a fs', x.1 = a.addr + HEADER ∧ a.size = nunits ∧ Shares base x.2 fs' (a :: live) := by
  have hmore := scan_mono hscan (2 * fs.length + 4)
  obtain ⟨y, hy, hsound⟩ := hs.scan_spec answer nunits (rounds + (2 * fs.length + 4)) hpos
    (hs.scan_room hpos (by omega) hmore hx) (by omega)
  rw [hmore, Option.some.injEq] at hy
  rwa [hy]

end Xv6.Heap
