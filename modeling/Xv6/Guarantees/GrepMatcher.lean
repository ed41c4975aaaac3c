import Mathlib.Computability.Language
import Xv6.Source.Grep

/-!
# grep's matcher decides its patterns

A pattern is read as a sequence of items, each a character or a starred character, with a `$` at its end
or not. The items stand for a language; the matcher looks for a word of it.
-/
namespace Xv6.Guarantees.GrepMatcher

open Xv6.Source.Ulib Xv6.Source.Grep
open scoped Computability

/-- The character `d` of a text is matched by the character `c` of a pattern. -/
def Fits (c d : UInt8) : Prop := c = dot ∨ c = d

instance (c d : UInt8) : Decidable (Fits c d) := inferInstanceAs (Decidable (_ ∨ _))

inductive Item where
  | one (c : UInt8)
  | many (c : UInt8)
  deriving DecidableEq, Repr

/-- The words of one character that `c` matches. -/
def single (c : UInt8) : Language UInt8 := { w | ∃ d, w = [d] ∧ Fits c d }

def Item.language : Item → Language UInt8
  | .one c => single c
  | .many c => (single c)∗

/-- The words that the items match one behind the other. -/
def language (items : List Item) : Language UInt8 := (items.map Item.language).prod

/-- The items of a pattern, and whether a final `$` asks for the end of the text. -/
def items : Bytes → List Item × Bool
  | [] => ([], false)
  | [c] => if c = dollar then ([], true) else ([.one c], false)
  | c :: e :: re =>
    if e = star then (.many c :: (items re).1, (items re).2)
    else (.one c :: (items (e :: re)).1, (items (e :: re)).2)

/-- A text starts with a word of the pattern, which reaches to its end where the pattern says so. -/
def Starts (p : List Item × Bool) (text : Bytes) : Prop :=
  ∃ v w, text = v ++ w ∧ v ∈ language p.1 ∧ (p.2 = true → w = [])

section languages
variable {c d : UInt8} {text : Bytes} {is : List Item} {b : Bool}

theorem mem_many {w : Bytes} : w ∈ Item.language (.many c) ↔ ∀ d ∈ w, Fits c d := by
  constructor
  · intro h
    obtain ⟨parts, rfl, hparts⟩ := Language.mem_kstar.mp h
    intro d hd
    obtain ⟨u, hu, hdu⟩ := List.mem_flatten.mp hd
    obtain ⟨d', rfl, hfit⟩ := hparts u hu
    rwa [List.mem_singleton.mp hdu]
  · intro h
    refine Language.mem_kstar.mpr ⟨w.map fun d => [d], (List.flatMap_singleton' w).symm, ?_⟩
    intro u hu
    obtain ⟨d, hd, rfl⟩ := List.mem_map.mp hu
    exact ⟨d, rfl, h d hd⟩

theorem starts_nil : Starts ([], false) text :=
  ⟨[], text, rfl, by simp [language], nofun⟩

theorem starts_end : Starts ([], true) text ↔ text = [] := by
  constructor
  · rintro ⟨v, w, rfl, hv, hw⟩
    have hnil : v = [] := by simpa [language] using hv
    rw [hnil, hw rfl, List.append_nil]
  · rintro rfl
    exact ⟨[], [], rfl, by simp [language], fun _ => rfl⟩

theorem starts_cons {i : Item} : Starts (i :: is, b) text ↔
    ∃ u rest, text = u ++ rest ∧ u ∈ i.language ∧ Starts (is, b) rest := by
  constructor
  · rintro ⟨v, w, rfl, hv, hw⟩
    rw [language, List.map_cons, List.prod_cons] at hv
    obtain ⟨u, hu, v', hv', rfl⟩ := Language.mem_mul.mp hv
    exact ⟨u, v' ++ w, List.append_assoc .., hu, v', w, rfl, hv', hw⟩
  · rintro ⟨u, rest, rfl, hu, v, w, rfl, hv, hw⟩
    refine ⟨u ++ v, w, (List.append_assoc ..).symm, ?_, hw⟩
    rw [language, List.map_cons, List.prod_cons]
    exact Language.mem_mul.mpr ⟨u, hu, v, hv, rfl⟩

theorem starts_one : Starts (.one c :: is, b) text ↔ ∃ d rest, text = d :: rest ∧ Fits c d ∧ Starts (is, b) rest := by
  rw [starts_cons]
  constructor
  · rintro ⟨_, rest, rfl, ⟨d, rfl, hfit⟩, hrest⟩
    exact ⟨d, rest, rfl, hfit, hrest⟩
  · rintro ⟨d, rest, rfl, hfit, hrest⟩
    exact ⟨[d], rest, rfl, ⟨d, rfl, hfit⟩, hrest⟩

theorem starts_many : Starts (.many c :: is, b) text ↔
    ∃ u rest, text = u ++ rest ∧ (∀ d ∈ u, Fits c d) ∧ Starts (is, b) rest := by
  simp only [starts_cons, mem_many]

end languages

/-- The shortest-first search of `matchstar` finds a rest if there is one. -/
theorem matchstar_iff (here : Bytes → Bool) (c : UInt8) (text : Bytes) :
    matchstar here c text = true ↔ ∃ u rest, text = u ++ rest ∧ (∀ d ∈ u, Fits c d) ∧ here rest = true := by
  induction text with
  | nil =>
    constructor
    · intro h
      exact ⟨[], [], rfl, by simp, h⟩
    · rintro ⟨u, rest, heq, -, h⟩
      obtain ⟨-, rfl⟩ := List.append_eq_nil_iff.mp heq.symm
      exact h
  | cons d text ih =>
    simp only [matchstar, Bool.or_eq_true, Bool.and_eq_true, decide_eq_true_eq, ih]
    constructor
    · rintro (h | ⟨hfit, u, rest, rfl, hu, h⟩)
      · exact ⟨[], d :: text, rfl, by simp, h⟩
      · have hd : Fits c d := hfit.elim (fun e => .inr e.symm) .inl
        exact ⟨d :: u, rest, rfl, List.forall_mem_cons.mpr ⟨hd, hu⟩, h⟩
    · rintro ⟨u, rest, heq, hu, h⟩
      cases u with
      | nil =>
        left
        rw [heq]
        exact h
      | cons x u =>
        obtain ⟨rfl, rfl⟩ := List.cons.inj heq
        obtain ⟨hx, hu⟩ := List.forall_mem_cons.mp hu
        exact .inr ⟨hx.elim .inr fun e => .inl e.symm, u, rest, rfl, hu, h⟩

/-- The induction follows the recursion of `matchhere`: over the pattern, two characters at a star. -/
theorem matchhere_iff (re text : Bytes) : matchhere re text = true ↔ Starts (items re) text := by
  induction re, text using matchhere.induct with
  | case1 text => simp [matchhere, items, starts_nil]
  | case2 text => simp [matchhere, items, starts_end]
  | case3 c h => simp [matchhere, items, h, starts_one]
  | case4 c h d rest =>
    simp [matchhere, items, h, starts_one, starts_nil, Fits]
  | case5 c re text ih =>
    unfold matchhere
    rw [if_pos rfl, matchstar_iff, items, if_pos rfl, starts_many]
    simp only [ih]
  | case6 c e re h => simp [matchhere, items, h, starts_one]
  | case7 c e re h d rest ih =>
    rw [matchhere, if_neg h, items, if_neg h, starts_one]
    simp [ih, Fits]

theorem search_iff (re text : Bytes) : search re text = true ↔ ∃ u rest, text = u ++ rest ∧ matchhere re rest = true := by
  induction text with
  | nil =>
    constructor
    · intro h
      exact ⟨[], [], rfl, h⟩
    · rintro ⟨u, rest, heq, h⟩
      obtain ⟨-, rfl⟩ := List.append_eq_nil_iff.mp heq.symm
      exact h
  | cons d text ih =>
    simp only [search, Bool.or_eq_true, ih]
    constructor
    · rintro (h | ⟨u, rest, rfl, h⟩)
      · exact ⟨[], d :: text, rfl, h⟩
      · exact ⟨d :: u, rest, rfl, h⟩
    · rintro ⟨u, rest, heq, h⟩
      cases u with
      | nil =>
        left
        rw [heq]
        exact h
      | cons x u =>
        obtain ⟨rfl, rfl⟩ := List.cons.inj heq
        exact .inr ⟨u, rest, rfl, h⟩

/-- `match` says whether some part of the text, its start behind a `^`, is a word of the pattern. -/
theorem match_decides_patterns (re text : Bytes) : matchRe re text = true ↔
    ∃ u v w, text = u ++ v ++ w ∧ (re.head? = some caret → u = []) ∧
      v ∈ language (items (if re.head? = some caret then re.tail else re)).1 ∧
      ((items (if re.head? = some caret then re.tail else re)).2 = true → w = []) := by
  unfold matchRe
  by_cases hcaret : re.head? = some caret
  · simp only [if_pos hcaret, matchhere_iff]
    constructor
    · rintro ⟨v, w, rfl, hv, hw⟩
      exact ⟨[], v, w, rfl, fun _ => rfl, hv, hw⟩
    · rintro ⟨u, v, w, rfl, hu, hv, hw⟩
      rw [hu hcaret]
      exact ⟨v, w, rfl, hv, hw⟩
  · simp only [if_neg hcaret, search_iff, matchhere_iff]
    constructor
    · rintro ⟨u, rest, rfl, v, w, rfl, hv, hw⟩
      exact ⟨u, v, w, by simp, fun h => absurd h hcaret, hv, hw⟩
    · rintro ⟨u, v, w, rfl, -, hv, hw⟩
      exact ⟨u, v ++ w, by simp, v, w, rfl, hv, hw⟩

end Xv6.Guarantees.GrepMatcher
