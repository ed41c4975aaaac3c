import Xv6.Guarantees.ShGrammar

/-!
# The tokens of sh survive their termination

All words of a tree lie in one buffer, and each gets its NUL in place. The byte that is written
over belongs to no word, so that every word reads as it stood in the line.
-/
namespace Xv6.Guarantees.TokenStrings

open Xv6.Source Xv6.Source.Ulib Xv6.Source.Sh Xv6.Shell.Grammar Xv6.Shell.ShParser Xv6.Shell.ShTokens
  Xv6.Shell.ShRules Xv6.Guarantees.ShGrammar

/-- The ends of every argument and every file name in the tree. -/
def spansOf : Cmd → List (Int × Int)
  | .exec argv => argv
  | .redir cmd target => (target.file, target.efile) :: spansOf cmd
  | .pipe left right | .list left right => spansOf left ++ spansOf right
  | .back cmd => spansOf cmd

def wordsOf : Tree → List Bytes
  | .exec argv => argv
  | .redir cmd file _ _ => file :: wordsOf cmd
  | .pipe left right | .list left right => wordsOf left ++ wordsOf right
  | .back cmd => wordsOf cmd

/-- The text between two pointers. -/
def slice (m : Bytes) (span : Int × Int) : Bytes := (m.drop span.1.toNat).take (span.2 - span.1).toNat

section trees
variable {m m' : Bytes}

theorem slice_of_word {span : Int × Int} {u : Bytes} (h : WordAt m span u) : slice m span = u := by
  have hlength : (span.2 - span.1).toNat = u.length := by
    have := h.ends
    omega
  apply List.ext_getElem?
  intro j
  rw [slice, hlength, List.getElem?_take]
  by_cases hj : j < u.length
  · rw [if_pos hj, List.getElem?_drop, h.text j hj]
  · rw [if_neg hj, List.getElem?_eq_none (Nat.le_of_not_lt hj)]

theorem Spans.strings_of {cmd : Cmd} {t : Tree} (h : Spans m cmd t) (hcut : Cut m m') (hended : Ended m' cmd) :
    ∀ span ∈ spansOf cmd, slice m span ∈ wordsOf t ∧ cstring m' span.1 = some (slice m span) := by
  induction h with
  | @exec argv ws hall =>
    intro span (hspan : span ∈ argv)
    obtain ⟨i, hi, rfl⟩ := List.mem_iff_getElem.mp hspan
    have hws : i < ws.length := hall.length_eq ▸ hi
    have hword : WordAt m argv[i] ws[i] := (List.forall₂_iff_get.mp hall).2 i hi hws
    rw [slice_of_word hword]
    exact ⟨List.getElem_mem _, (hword.cut hcut).cstring (hended _ hspan)⟩
  | redir _ hword ih =>
    intro span hspan
    rcases List.mem_cons.mp hspan with rfl | hspan
    · rw [slice_of_word hword]
      exact ⟨List.mem_cons_self, (hword.cut hcut).cstring hended.2⟩
    · obtain ⟨hmem, hstring⟩ := ih hended.1 span hspan
      exact ⟨List.mem_cons_of_mem _ hmem, hstring⟩
  | pipe _ _ iha ihb | list _ _ iha ihb =>
    intro span hspan
    rcases List.mem_append.mp hspan with hspan | hspan
    · obtain ⟨hmem, hstring⟩ := iha hended.1 span hspan
      exact ⟨List.mem_append_left _ hmem, hstring⟩
    · obtain ⟨hmem, hstring⟩ := ihb hended.2 span hspan
      exact ⟨List.mem_append_right _ hmem, hstring⟩
  | back _ ih => exact ih hended

end trees

/-! ## The words of a tree are tokens of the line -/

theorem wordsOf_wrap {t : Tree} {rs : List Redirect} {u : Bytes} (h : u ∈ wordsOf (wrap t rs)) :
    u ∈ wordsOf t ∨ .word u ∈ rs.flatMap Redirect.yield := by
  induction rs using List.reverseRecOn with
  | nil => exact .inl h
  | append_singleton rs r ih =>
    have hwrap : wrap t (rs ++ [r]) = .redir (wrap t rs) r.file (mode r.direction) (fd r.direction) := by
      simp [wrap]
    rw [hwrap] at h
    rcases List.mem_cons.mp h with rfl | h
    · exact .inr (by simp [Redirect.yield])
    · exact (ih h).imp id fun hmem => by simp [hmem]

theorem wordsOf_background {k : Nat} {t : Tree} : wordsOf (background k t) = wordsOf t := by
  induction k generalizing t with
  | zero => rfl
  | succ k ih => exact ih

mutual

theorem line_words : ∀ (l : Line) {u : Bytes}, u ∈ wordsOf (lineTree l) → .word u ∈ l.yield
  | .last p amps, u, h => by
    rw [lineTree, wordsOf_background] at h
    exact List.mem_append_left _ (pipe_words p h)
  | .seq p amps l, u, h => by
    rw [lineTree, wordsOf, wordsOf_background, List.mem_append] at h
    rw [Line.yield]
    rcases h with h | h
    · exact List.mem_append_left _ (pipe_words p h)
    · simp [line_words l h]

theorem pipe_words : ∀ (p : Pipe) {u : Bytes}, u ∈ wordsOf (pipelineTree p) → .word u ∈ p.yield
  | .last e, u, h => exec_words e h
  | .bar e p, u, h => by
    rw [pipelineTree, wordsOf, List.mem_append] at h
    rw [Pipe.yield]
    rcases h with h | h
    · exact List.mem_append_left _ (exec_words e h)
    · simp [pipe_words p h]

theorem exec_words : ∀ (e : Exec) {u : Bytes}, u ∈ wordsOf (execTree e) → .word u ∈ e.yield
  | .block l rs, u, h => by
    rw [Exec.yield]
    rcases wordsOf_wrap h with h | h
    · simp [line_words l h]
    · simp [h]
  | .simple rs args, u, h => by
    rw [Exec.yield]
    rcases wordsOf_wrap h with h | h
    · obtain ⟨a, ha, rfl⟩ := List.mem_map.mp h
      exact List.mem_append_right _ (List.mem_flatMap.mpr ⟨a, ha, by simp [Arg.yield]⟩)
    · rw [List.flatMap_append, List.mem_append, List.flatMap_assoc] at h
      rcases h with h | h
      · exact List.mem_append_left _ h
      · obtain ⟨a, ha, hmem⟩ := List.mem_flatMap.mp h
        exact List.mem_append_right _ (List.mem_flatMap.mpr ⟨a, ha, by simp [Arg.yield, hmem]⟩)

end

/-- After `parsecmd` every argument and every file name reads as its token stood in the line. -/
theorem tokens_survive_termination {m w m' : Bytes} {s : Int} {cmd : Cmd} (hholds : Holds m s w)
    (hm : m.length < 2 ^ 32) (hparse : parsecmd m s = .ok (cmd, m')) :
    ∀ span ∈ spansOf cmd, .word (slice m span) ∈ tokens w ∧ cstring m' span.1 = some (slice m span) := by
  rcases parsecmd_of_line hholds hm with ⟨l, cmd', m'', hl, hparse', hspans, hcut, hended⟩ | ⟨⟨text, hpanic⟩, -⟩
  · rw [hparse'] at hparse
    cases hparse
    intro span hspan
    obtain ⟨hmem, hstring⟩ := Spans.strings_of hspans hcut hended span hspan
    rw [← hl.1]
    exact ⟨line_words l hmem, hstring⟩
  · rw [hpanic] at hparse
    exact nomatch hparse

/-- The line `(a>b|c)`, in which all words are separated by symbols only. -/
def packed : Bytes := literal ['(', 'a', '>', 'b', '|', 'c', ')']

theorem tokens_survive_termination_packed : ∃ cmd m', parsecmd (packed ++ [0]) 0 = .ok (cmd, m') ∧
    spansOf cmd = [(3, 4), (1, 2), (5, 6)] ∧ (spansOf cmd).map (fun span => cstring m' span.1) =
      [some (literal ['b']), some (literal ['a']), some (literal ['c'])] := by
  have hholds : Holds (packed ++ [0]) 0 packed := ⟨⟨[], [], rfl, rfl⟩, by decide⟩
  have hparse : ∃ cmd m', parsecmd (packed ++ [0]) 0 = .ok (cmd, m') ∧ spansOf cmd = [(3, 4), (1, 2), (5, 6)] :=
    ⟨_, _, rfl, rfl⟩
  obtain ⟨cmd, m', hparse, hspans⟩ := hparse
  have hall := tokens_survive_termination hholds (by decide) hparse
  refine ⟨cmd, m', hparse, hspans, ?_⟩
  rw [List.map_congr_left fun span hspan => (hall span hspan).2, hspans]
  decide

end Xv6.Guarantees.TokenStrings
