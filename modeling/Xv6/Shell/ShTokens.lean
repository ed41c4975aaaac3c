import Xv6.Shell.Grammar
import Xv6.Shell.ShParser

/-!
# The tokens of a line

A token is a symbol, `>>`, or a run of characters that are neither white nor symbols. `peek` and
`gettoken` are described by the tokens from the pointer to the end of the line.
-/
namespace Xv6.Shell.ShTokens

open Xv6.Source Xv6.Source.Ulib Xv6.Source.Sh Xv6.Shell.Grammar Xv6.Shell.ShParser

/-- The symbols that are tokens whatever stands behind them. -/
def symbol? (c : UInt8) : Option Tok :=
  if c = '|'.toUInt8 then some .bar
  else if c = '('.toUInt8 then some .opening
  else if c = ')'.toUInt8 then some .closing
  else if c = ';'.toUInt8 then some .semi
  else if c = '&'.toUInt8 then some .amp
  else if c = '<'.toUInt8 then some .less
  else none

/-- The first `n` tokens of a text. -/
def lex : Nat → Bytes → List Tok
  | 0, _ => []
  | n + 1, w =>
    match ltrim w with
    | [] => []
    | c :: y =>
      match symbol? c with
      | some t => t :: lex n y
      | none =>
        if c = '>'.toUInt8 then
          if y.head? = some '>'.toUInt8 then .append :: lex n y.tail else .greater :: lex n y
        else .word (c :: y.takeWhile (IsWord ·)) :: lex n (y.dropWhile (IsWord ·))

/-- All of them: a token has a character at least. -/
def tokens (w : Bytes) : List Tok := lex w.length w

theorem lex_stable (n k : Nat) (w : Bytes) (hn : w.length ≤ n) (hk : w.length ≤ k) : lex n w = lex k w := by
  induction n generalizing k w with
  | zero =>
    obtain rfl : w = [] := List.length_eq_zero_iff.1 (Nat.le_zero.1 hn)
    cases k <;> rfl
  | succ n ih =>
    cases k with
    | zero =>
      obtain rfl : w = [] := List.length_eq_zero_iff.1 (Nat.le_zero.1 hk)
      rfl
    | succ k =>
      have hle := ltrim_length_le w
      rw [lex, lex]
      cases hw : ltrim w with
      | nil => rfl
      | cons c y =>
        rw [hw, List.length_cons] at hle
        have htail := (List.tail_suffix y).length_le
        have hdrop : (y.dropWhile (IsWord ·)).length ≤ y.length := (List.dropWhile_suffix _).length_le
        dsimp only
        rw [ih k y (by omega) (by omega), ih k y.tail (by omega) (by omega),
          ih k (y.dropWhile (IsWord ·)) (by omega) (by omega)]

section equations

variable {w y : Bytes} {c : UInt8}

theorem tokens_white (h : ltrim w = []) : tokens w = [] := by
  rw [tokens]
  cases w.length with
  | zero => rfl
  | succ n => rw [lex, h]

theorem tokens_cons (h : ltrim w = c :: y) : tokens w =
    match symbol? c with
    | some t => t :: tokens y
    | none =>
      if c = '>'.toUInt8 then
        if y.head? = some '>'.toUInt8 then .append :: tokens y.tail else .greater :: tokens y
      else .word (c :: y.takeWhile (IsWord ·)) :: tokens (y.dropWhile (IsWord ·)) := by
  have hle := ltrim_length_le w
  rw [h, List.length_cons] at hle
  obtain ⟨n, hn⟩ : ∃ n, w.length = n + 1 := ⟨w.length - 1, by omega⟩
  have htail := (List.tail_suffix y).length_le
  have hdrop : (y.dropWhile (IsWord ·)).length ≤ y.length := (List.dropWhile_suffix _).length_le
  rw [tokens, hn, lex, h]
  dsimp only
  rw [lex_stable n _ y (by omega) (Nat.le_refl _), lex_stable n _ y.tail (by omega) (Nat.le_refl _),
    lex_stable n _ (y.dropWhile (IsWord ·)) (by omega) (Nat.le_refl _)]
  rfl

theorem tokens_ltrim (w : Bytes) : tokens (ltrim w) = tokens w := by
  cases hw : ltrim w with
  | nil => rw [tokens_white hw, ← hw, tokens_white (by rw [ltrim_ltrim, hw])]
  | cons c y => rw [← hw, tokens_cons hw, tokens_cons (by rw [ltrim_ltrim, hw])]

theorem tokens_length_le (w : Bytes) : (tokens w).length ≤ w.length := by
  have hlex : ∀ n w, (lex n w).length ≤ n := by
    intro n
    induction n with
    | zero => exact fun w => Nat.le_refl 0
    | succ n ih =>
      intro w
      rw [lex]
      repeat' split
      all_goals first | exact Nat.zero_le _ | exact Nat.succ_le_succ (ih _)
  exact hlex _ w

end equations

/-- The character at the start of a token; it matters for symbols only. -/
def mark : Tok → UInt8
  | .bar => '|'.toUInt8
  | .opening => '('.toUInt8
  | .closing => ')'.toUInt8
  | .semi => ';'.toUInt8
  | .amp => '&'.toUInt8
  | .less => '<'.toUInt8
  | .greater => '>'.toUInt8
  | .append => '>'.toUInt8
  | .word _ => 'a'.toUInt8

/-- What `gettoken` returns for a token. -/
def code : Tok → UInt8
  | .append => '+'.toUInt8
  | t => mark t

theorem symbol_mark {c : UInt8} {t : Tok} (h : symbol? c = some t) :
    mark t = c ∧ code t = c ∧ c ∈ single ∧ ∀ u, t ≠ .word u := by
  rw [symbol?] at h
  split_ifs at h
  all_goals
    subst c
    cases h
    exact ⟨rfl, rfl, by decide, nofun⟩

theorem isWord_of_none {c : UInt8} (h0 : c ≠ 0) (hwhite : c ∉ whitespace) (hsymbol : symbol? c = none)
    (hgreater : c ≠ '>'.toUInt8) : IsWord c := by
  refine ⟨h0, hwhite, fun hmem => ?_⟩
  rw [symbol?] at hsymbol
  split_ifs at hsymbol
  simp only [symbols, literal, List.map_cons, List.map_nil, List.mem_cons, List.not_mem_nil, or_false] at hmem
  tauto

/-- How a text without leading white space begins, and its tokens. -/
inductive Shape : Bytes → List Tok → Prop
  | nil : Shape [] []
  | symbol {c : UInt8} {t : Tok} {y : Bytes} : symbol? c = some t → Shape (c :: y) (t :: tokens y)
  | append {y : Bytes} : Shape ('>'.toUInt8 :: '>'.toUInt8 :: y) (.append :: tokens y)
  | greater {y : Bytes} : y.head? ≠ some '>'.toUInt8 → Shape ('>'.toUInt8 :: y) (.greater :: tokens y)
  | word {u y : Bytes} : u ≠ [] → (∀ c ∈ u, IsWord c) → WordEnds y → Shape (u ++ y) (.word u :: tokens y)

theorem shape_ltrim {w : Bytes} (hclean : (0 : UInt8) ∉ w) : Shape (ltrim w) (tokens w) := by
  cases hw : ltrim w with
  | nil =>
    rw [tokens_white hw]
    exact .nil
  | cons c y =>
    have hmem : c ∈ w := (List.dropWhile_suffix _).subset (by rw [← ltrim, hw]; exact List.mem_cons_self)
    have hwhite : c ∉ whitespace := by
      have hnot := List.head?_dropWhile_not (· ∈ whitespace) w
      rw [← ltrim, hw] at hnot
      exact of_decide_eq_false hnot
    rw [tokens_cons hw]
    split
    · next t ht => exact .symbol ht
    · next hnone =>
      split
      · next hgreater =>
        subst hgreater
        split
        · next hhead =>
          cases y with
          | nil => cases hhead
          | cons d y =>
            cases hhead
            exact .append
        · next hhead => exact .greater hhead
      · next hgreater =>
        have hc : IsWord c := isWord_of_none (fun h0 => hclean (h0 ▸ hmem)) hwhite hnone hgreater
        have hsplit : c :: y = (c :: y.takeWhile (IsWord ·)) ++ y.dropWhile (IsWord ·) := by
          rw [List.cons_append, List.takeWhile_append_dropWhile]
        rw [hsplit]
        refine .word (List.cons_ne_nil _ _) ?_ ?_
        · intro d hd
          rcases List.mem_cons.1 hd with rfl | hd
          · exact hc
          · have hword := List.mem_takeWhile_imp hd
            exact of_decide_eq_true hword
        · have hnot := List.head?_dropWhile_not (IsWord ·) y
          cases hrest : y.dropWhile (IsWord ·) with
          | nil => simp [WordEnds, IsWord]
          | cons d z =>
            rw [hrest] at hnot
            exact of_decide_eq_false hnot

/-! ## The lexer of the parser -/

/-- The tokens from `s` to the end of the line. -/
def At (m : Bytes) (es s : Int) (ts : List Tok) : Prop := ∃ w, Rest m es s w ∧ tokens w = ts

section lexer

variable {m : Bytes} {es s : Int} {w y : Bytes} {t : Tok} {ts : List Tok}

theorem shape_of_rest (h : Rest m es s w) : Shape (ltrim w) (tokens w) := shape_ltrim h.holds.clean

theorem at_ltrim (h : Rest m es s (ltrim w)) : At m es s (tokens w) := ⟨_, h, tokens_ltrim w⟩

/-- At the end of the tokens only white space is left. -/
theorem Shape.eq_nil (h : Shape w []) : w = [] := by
  cases h
  rfl

/-- Whether the next token starts with one of the characters. -/
def startsWith (toks : Bytes) (ts : List Tok) : Bool := ts.head?.any (mark · ∈ toks)

theorem peek_at (h : At m es s ts) (toks : Bytes) (htoks : ∀ c ∈ toks, c ∈ symbols) :
    ∃ s', peek m s es toks = .ok (startsWith toks ts, s') ∧ At m es s' ts := by
  obtain ⟨w, hrest, rfl⟩ := h
  obtain ⟨s', hpeek, hrest'⟩ := peek_rest hrest toks
  refine ⟨s', ?_, at_ltrim hrest'⟩
  rw [hpeek]
  have hsame : decide ((ltrim w).headD 0 ≠ 0 ∧ (ltrim w).headD 0 ∈ toks) = startsWith toks (tokens w) := by
    have hshape := shape_of_rest hrest
    have hclean := hrest'.holds.clean
    have hgreater : '>'.toUInt8 ≠ 0 := by decide
    generalize ltrim w = v at hshape hclean
    generalize tokens w = ts at hshape
    cases hshape with
    | nil => simp [startsWith]
    | symbol ht =>
      have hne : (0 : UInt8) ≠ _ := fun h0 => hclean (h0 ▸ List.mem_cons_self)
      simp [startsWith, (symbol_mark ht).1, Ne.symm hne]
    | append => exact decide_eq_decide.2 ⟨And.right, And.intro hgreater⟩
    | greater => exact decide_eq_decide.2 ⟨And.right, And.intro hgreater⟩
    | @word u y hu hword _ =>
      have hhead := hword _ (headD_append_word (y := y) hu)
      have hno : (u ++ y).headD 0 ∉ toks := fun hin => hhead.2.2 (htoks _ hin)
      have hno' : 'a'.toUInt8 ∉ toks := fun hin => absurd (htoks _ hin) (by decide)
      simp only [startsWith, mark, List.head?_cons, Option.any_some, hno, hno', and_false, decide_false]
  rw [hsame]

/-- At the end of the line, white space apart, there are no tokens left. -/
theorem peek_none_at (h : At m es s ts) : ∃ found s', peek m s es [] = .ok (found, s') ∧ (s' = es ↔ ts = []) := by
  obtain ⟨w, hrest, rfl⟩ := h
  obtain ⟨s', hpeek, hrest'⟩ := peek_rest hrest []
  refine ⟨_, s', hpeek, ⟨fun heq => tokens_white ?_, fun hnil => ?_⟩⟩
  · have hends := hrest'.ends
    exact List.length_eq_zero_iff.1 (by omega)
  · have hshape := shape_of_rest hrest
    rw [hnil] at hshape
    have hends := hrest'.ends
    rw [hshape.eq_nil] at hends
    simpa using hends

theorem mark_eq_iff {c : UInt8} {t₀ : Tok} (h : symbol? c = some t₀) (t : Tok) : mark t = c ↔ t = t₀ := by
  refine ⟨?_, fun heq => heq ▸ (symbol_mark h).1⟩
  rintro rfl
  cases t <;> cases h <;> rfl

theorem peek_one_at (h : At m es s ts) {c : Char} {t₀ : Tok} (hc : symbol? c.toUInt8 = some t₀) :
    ∃ s', peek m s es (literal [c]) = .ok (decide (ts.head? = some t₀), s') ∧ At m es s' ts := by
  have hsymbol : ∀ d ∈ literal [c], d ∈ symbols := by
    intro d hd
    rw [List.mem_singleton.1 hd]
    exact (by decide : ∀ e ∈ single, e ∈ symbols) _ (symbol_mark hc).2.2.1
  obtain ⟨s', hpeek, hat⟩ := peek_at h (literal [c]) hsymbol
  have hsame : startsWith (literal [c]) ts = decide (ts.head? = some t₀) := by
    cases ts with
    | nil => rfl
    | cons t ts =>
      refine decide_eq_decide.2 ?_
      rw [literal, List.map_singleton, List.mem_singleton, mark_eq_iff hc, List.head?_cons, Option.some.injEq]
  exact ⟨s', by rw [hpeek, hsame], hat⟩

theorem peek_hit_at {c : Char} (h : At m es s (t :: ts)) (hc : symbol? c.toUInt8 = some t) :
    ∃ s', peek m s es (literal [c]) = .ok (true, s') ∧ At m es s' (t :: ts) := by
  obtain ⟨s', hpeek, hat⟩ := peek_one_at h hc
  rw [decide_eq_true List.head?_cons] at hpeek
  exact ⟨s', hpeek, hat⟩

theorem peek_miss_at {c : Char} (h : At m es s ts) (hc : symbol? c.toUInt8 = some t) (hno : ts.head? ≠ some t) :
    ∃ s', peek m s es (literal [c]) = .ok (false, s') ∧ At m es s' ts := by
  obtain ⟨s', hpeek, hat⟩ := peek_one_at h hc
  rw [decide_eq_false hno] at hpeek
  exact ⟨s', hpeek, hat⟩

theorem gettoken_end_at (h : At m es s []) : ∃ tok, gettoken m s es = .ok tok ∧ tok.ret = 0 ∧ At m es tok.ps [] := by
  obtain ⟨w, hrest, hnil⟩ := h
  have hshape := shape_of_rest hrest
  rw [hnil] at hshape
  obtain ⟨tok, hget, hret, hend⟩ := gettoken_end hrest hshape.eq_nil
  exact ⟨tok, hget, hret, [], hend, rfl⟩

/-- A `>` that is a token on its own. -/
theorem gettoken_greater (h : Rest m es s w) (hw : ltrim w = '>'.toUInt8 :: y) (hy : y.head? ≠ some '>'.toUInt8) :
    ∃ tok, gettoken m s es = .ok tok ∧ tok.ret = '>'.toUInt8 ∧ Rest m es tok.ps (ltrim y) := by
  obtain ⟨q, hskip, hrest⟩ := skipWhite_rest w s h
  rw [hw] at hrest
  have hch : Sh.char m q = .ok '>'.toUInt8 := hrest.char
  have hch' := hrest.tail.char
  obtain ⟨s', hskip', hrest'⟩ := skipWhite_rest y (q + 1) hrest.tail
  have hone : '>'.toUInt8 ≠ 0 ∧ '>'.toUInt8 ∉ literal ['|', '(', ')', ';', '&', '<'] := by decide
  have hnot : y.headD 0 ≠ '>'.toUInt8 := by
    cases y with
    | nil => decide
    | cons d y => exact fun heq => hy (congrArg some heq)
  refine ⟨⟨'>'.toUInt8, q, q + 1, s'⟩, ?_, rfl, hrest'⟩
  simp only [gettoken, h.distance, hskip, hch, if_neg hone.1, if_neg hone.2, if_true, hch', if_neg hnot,
    hrest.tail.distance, hskip', bind, Except.bind, pure, Except.pure]

theorem gettoken_append (h : Rest m es s w) (hw : ltrim w = '>'.toUInt8 :: '>'.toUInt8 :: y) :
    ∃ tok, gettoken m s es = .ok tok ∧ tok.ret = '+'.toUInt8 ∧ Rest m es tok.ps (ltrim y) := by
  obtain ⟨q, hskip, hrest⟩ := skipWhite_rest w s h
  rw [hw] at hrest
  have hch : Sh.char m q = .ok '>'.toUInt8 := hrest.char
  have hch' : Sh.char m (q + 1) = .ok '>'.toUInt8 := hrest.tail.char
  have htwo : Rest m es (q + 2) y := by
    have htail := hrest.tail.tail
    rwa [Int.add_assoc] at htail
  obtain ⟨s', hskip', hrest'⟩ := skipWhite_rest y (q + 2) htwo
  have hone : '>'.toUInt8 ≠ 0 ∧ '>'.toUInt8 ∉ literal ['|', '(', ')', ';', '&', '<'] := by decide
  refine ⟨⟨'+'.toUInt8, q, q + 2, s'⟩, ?_, rfl, hrest'⟩
  simp only [gettoken, h.distance, hskip, hch, if_neg hone.1, if_neg hone.2, if_true, hch',
    htwo.distance, hskip', bind, Except.bind, pure, Except.pure]

theorem gettoken_at (h : At m es s (t :: ts)) : ∃ tok, gettoken m s es = .ok tok ∧ tok.ret = code t ∧
    At m es tok.ps ts ∧ ∀ u, t = .word u → WordAt m (tok.q, tok.eq) u := by
  obtain ⟨w, hrest, heq⟩ := h
  have hshape := shape_of_rest hrest
  rw [heq] at hshape
  generalize hw : ltrim w = v at hshape
  cases hshape with
  | symbol ht =>
    obtain ⟨tok, hget, hret, hps⟩ := gettoken_single hrest hw (symbol_mark ht).2.2.1
    refine ⟨tok, hget, hret.trans (symbol_mark ht).2.1.symm, at_ltrim hps, ?_⟩
    exact fun u heq => absurd heq ((symbol_mark ht).2.2.2 u)
  | append =>
    obtain ⟨tok, hget, hret, hps⟩ := gettoken_append hrest hw
    exact ⟨tok, hget, hret, at_ltrim hps, nofun⟩
  | greater hy =>
    obtain ⟨tok, hget, hret, hps⟩ := gettoken_greater hrest hw hy
    exact ⟨tok, hget, hret, at_ltrim hps, nofun⟩
  | word hu hword hy =>
    obtain ⟨tok, hget, hret, hq, htokeq, hps⟩ := gettoken_word hrest hw hu hword hy
    refine ⟨tok, hget, hret, at_ltrim hps, ?_⟩
    rintro _ ⟨⟩
    rw [htokeq]
    exact wordAt_of_rest hq hword hy

end lexer

end Xv6.Shell.ShTokens
