import Xv6.Shell.ShRules

/-!
# sh accepts the lines of its grammar

For every line, `parsecmd` comes back if and only if the tokens of the line have a derivation in
which no command has `MAXARGS` words, and then with the tree of the derivation, of which there is
only one. On every other line it panics.
-/
namespace Xv6.Guarantees.ShGrammar

open Xv6.Source.Ulib Xv6.Source.Sh Xv6.Shell.Grammar Xv6.Shell.ShParser Xv6.Shell.ShTokens
  Xv6.Shell.ShRules

/-- `l` derives the line `w`, within the parser's limit. -/
def Derives (l : Line) (w : Bytes) : Prop := l.yield = tokens w ∧ l.Fits MAXARGS

section

variable {m : Bytes} {s : Int} {w : Bytes}

/-- What `parsecmd` does with what `parseline` has read. -/
theorem parsecmd_of_line (h : Holds m s w) (hm : m.length < 2 ^ 32) :
    (∃ l cmd m', Derives l w ∧ parsecmd m s = .ok (cmd, m') ∧ Spans m cmd (lineTree l) ∧ Cut m m' ∧ Ended m' cmd) ∨
      (∃ text, parsecmd m s = .error (.panic text)) ∧ ¬ ∃ l, Derives l w := by
  have hlen : (UInt32.ofNat w.length).toNat = w.length := by
    have := h.end_lt
    have := h.nonneg
    rw [UInt32.toNat_ofNat', Nat.mod_eq_of_lt (by omega)]
  have hat : At m (s + w.length) s (tokens w) := ⟨w, ⟨h, rfl⟩, rfl⟩
  have hdepth : (tokens w).length < w.length + 1 := Nat.lt_succ_of_le (tokens_length_le w)
  -- every derivation is the one that the parser on tokens finds
  have hfound : ∀ l, Derives l w → line MAXARGS (w.length + 1) (tokens w) = .ok (l, []) := by
    intro l hl
    have hend : Follows [.closing] [] := fun t ht => nomatch ht
    have hread := l.complete hl.2 hend (by rwa [List.append_nil, hl.1])
    rwa [List.append_nil, hl.1] at hread
  rcases parseline_sim (w.length + 1) s (tokens w) hat with ⟨e, hx, hy⟩ | ⟨cmd, s₁, l, rest, hx, hy, hspans, h₁⟩
  · obtain ⟨text, rfl⟩ := line_total (by decide) hdepth e hy
    refine .inr ⟨⟨text, ?_⟩, fun ⟨l, hl⟩ => ?_⟩
    · simp [parsecmd, h.strlen, hlen, hx, bind, Except.bind]
    · rw [hfound l hl] at hy
      cases hy
  · obtain ⟨hyield, hfits⟩ := line_sound (by decide) hy
    obtain ⟨found, s₂, hpeek, hend⟩ := peek_none_at h₁
    by_cases hnil : rest = []
    · subst hnil
      rw [List.append_nil] at hyield
      obtain ⟨m', hnul, hcut, hended⟩ := nulterminate_spans hspans
      refine .inl ⟨l, cmd, m', ⟨hyield.symm, hfits⟩, ?_, hspans, hcut, hended⟩
      simp [parsecmd, h.strlen, hlen, hx, hpeek, hend.2 rfl, hnul, bind, Except.bind, pure, Except.pure]
    · have hleft : s₂ ≠ s + w.length := fun heq => hnil (hend.1 heq)
      refine .inr ⟨⟨"syntax", ?_⟩, fun ⟨l', hl'⟩ => ?_⟩
      · simp [parsecmd, h.strlen, hlen, hx, hpeek, hleft, bind, Except.bind]
      · rw [hfound l' hl'] at hy
        exact hnil (Prod.mk.inj (Except.ok.inj hy)).2.symm

theorem parsecmd_accepts_grammar (h : Holds m s w) (hm : m.length < 2 ^ 32) :
    ((∃ cmd m', parsecmd m s = .ok (cmd, m')) ↔ ∃ l, Derives l w) ∧
    (∀ cmd m', parsecmd m s = .ok (cmd, m') → ∀ l : Line, l.yield = tokens w → strings m' cmd = some (lineTree l)) ∧
    (∀ l l' : Line, l.yield = tokens w → l'.yield = tokens w → l = l') ∧
    ((∃ cmd m', parsecmd m s = .ok (cmd, m')) ∨ ∃ text, parsecmd m s = .error (.panic text)) := by
  have hunique : ∀ l l' : Line, l.yield = tokens w → l'.yield = tokens w → l = l' :=
    fun l l' hl hl' => yield_injective (hl.trans hl'.symm)
  rcases parsecmd_of_line h hm with ⟨l, cmd, m', hl, hparse, hspans, hcut, hended⟩ | ⟨⟨text, hpanic⟩, hnone⟩
  · refine ⟨⟨fun _ => ⟨l, hl⟩, fun _ => ⟨cmd, m', hparse⟩⟩, ?_, hunique, .inl ⟨cmd, m', hparse⟩⟩
    intro cmd' m'' hparse' l' hl'
    rw [hparse] at hparse'
    cases hparse'
    rw [hunique l' l hl' hl.1]
    exact (hspans.cut hcut).strings_eq hended
  · refine ⟨⟨fun ⟨cmd, m', hparse⟩ => ?_, fun hl => absurd hl hnone⟩, fun cmd m' hparse => ?_, hunique, .inr ⟨text, hpanic⟩⟩
    · rw [hpanic] at hparse
      exact nomatch hparse
    · rw [hpanic] at hparse
      exact nomatch hparse

end

/-- The line `(ls|wc)>n&;cd`, and its derivation. -/
def sample : Bytes := literal ['(', 'l', 's', '|', 'w', 'c', ')', '>', 'n', '&', ';', 'c', 'd']

def sampleLine : Line :=
  .seq (.last (.block (.last (.bar (.simple [] [⟨literal ['l', 's'], []⟩])
    (.last (.simple [] [⟨literal ['w', 'c'], []⟩]))) 0) [⟨.output, literal ['n']⟩])) 1
    (.last (.last (.simple [] [⟨literal ['c', 'd'], []⟩])) 0)

theorem parsecmd_accepts_sample : Derives sampleLine sample ∧ ∃ cmd m', parsecmd (sample ++ [0]) 0 = .ok (cmd, m') ∧
    strings m' cmd = some (.list (.back (.redir (.pipe (.exec [literal ['l', 's']]) (.exec [literal ['w', 'c']]))
      (literal ['n']) (O_WRONLY ||| O_CREATE ||| O_TRUNC) 1)) (.exec [literal ['c', 'd']])) := by
  have hholds : Holds (sample ++ [0]) 0 sample := ⟨⟨[], [], rfl, rfl⟩, by decide⟩
  have hone : 1 < MAXARGS := by decide
  have hderives : Derives sampleLine sample := ⟨rfl, ⟨hone, hone⟩, hone⟩
  obtain ⟨haccepts, htree, -, -⟩ := parsecmd_accepts_grammar hholds (by decide)
  obtain ⟨cmd, m', hparse⟩ := haccepts.2 ⟨sampleLine, hderives⟩
  exact ⟨hderives, cmd, m', hparse, htree cmd m' hparse sampleLine hderives.1⟩

end Xv6.Guarantees.ShGrammar
