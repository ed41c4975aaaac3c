import Mathlib.Data.List.Forall2
import Xv6.Source.Sh

/-!
# What sh reads from a line of words, bars and semicolons

The parser keeps a pointer into the line; what matters is the text from there to the
end. `gettoken` and `peek` are described by that text, and the loops above them by
relations between a text and the words, pipelines and lists that stand in it.
-/
namespace Xv6.Shell.ShParser

open Xv6.Source Xv6.Source.Ulib Xv6.Source.Sh

/-- The bytes of words. -/
def IsWord (c : UInt8) : Prop := c ≠ 0 ∧ c ∉ whitespace ∧ c ∉ symbols

instance (c : UInt8) : Decidable (IsWord c) := inferInstanceAs (Decidable (_ ∧ _ ∧ _))

/-- The text behind its leading white space. -/
def ltrim (w : Bytes) : Bytes := w.dropWhile (· ∈ whitespace)

/-- No byte of a word stands at the start of the text. -/
def WordEnds (w : Bytes) : Prop := ¬ IsWord (w.headD 0)

/-- The text from `s` to the end of the line. -/
structure Rest (m : Bytes) (es s : Int) (w : Bytes) : Prop where
  holds : Holds m s w
  ends : s + w.length = es

section texts
variable {c : UInt8} {w y : Bytes}

theorem ltrim_cons_white (h : c ∈ whitespace) : ltrim (c :: w) = ltrim w := by
  simp [ltrim, h]

theorem ltrim_cons (h : c ∉ whitespace) : ltrim (c :: w) = c :: w := by
  simp [ltrim, h]

theorem ltrim_ltrim (w : Bytes) : ltrim (ltrim w) = ltrim w := by
  induction w with
  | nil => rfl
  | cons c w ih =>
    by_cases hc : c ∈ whitespace
    · rw [ltrim_cons_white hc, ih]
    · rw [ltrim_cons hc, ltrim_cons hc]

theorem ltrim_length_le (w : Bytes) : (ltrim w).length ≤ w.length :=
  (List.dropWhile_suffix _).length_le

theorem ltrim_word (hw : w ≠ []) (hword : ∀ c ∈ w, IsWord c) : ltrim (w ++ y) = w ++ y := by
  obtain ⟨c, w, rfl⟩ := List.exists_cons_of_ne_nil hw
  exact ltrim_cons (hword c List.mem_cons_self).2.1

theorem headD_append_word (hw : w ≠ []) : (w ++ y).headD 0 ∈ w := by
  obtain ⟨c, w, rfl⟩ := List.exists_cons_of_ne_nil hw
  simp

end texts

section lexer
variable {m : Bytes} {es s : Int} {w y : Bytes} {c : UInt8}

theorem Rest.suffix (h : Rest m es s (w ++ y)) : Rest m es (s + w.length) y := by
  refine ⟨h.holds.suffix, ?_⟩
  have := h.ends
  rw [List.length_append] at this
  omega

theorem Rest.tail (h : Rest m es s (c :: w)) : Rest m es (s + 1) w :=
  Rest.suffix (w := [c]) h

theorem Rest.distance (h : Rest m es s w) : (es - s).toNat = w.length := by
  have := h.ends
  omega

theorem Rest.char (h : Rest m es s w) : char m s = .ok (w.headD 0) := by
  cases w with
  | nil => simp [Sh.char, h.holds.load_nil]
  | cons c w => simp [Sh.char, h.holds.load_here]

theorem Rest.head_ne (h : Rest m es s (c :: w)) : c ≠ 0 := fun h0 =>
  h.holds.clean (h0 ▸ List.mem_cons_self)

theorem skipWhite_rest : ∀ (w : Bytes) (s : Int), Rest m es s w →
    ∃ s', skipWhite m w.length s = .ok s' ∧ Rest m es s' (ltrim w) := by
  intro w
  induction w with
  | nil => exact fun s h => ⟨s, rfl, h⟩
  | cons c w ih =>
    intro s h
    by_cases hc : c ∈ whitespace
    · obtain ⟨s', hskip, hrest⟩ := ih (s + 1) h.tail
      refine ⟨s', ?_, by rwa [ltrim_cons_white hc]⟩
      simp [skipWhite, h.char, hc, hskip, bind, Except.bind]
    · refine ⟨s, ?_, by rwa [ltrim_cons hc]⟩
      simp [skipWhite, h.char, hc, bind, Except.bind]

theorem skipWord_rest (hy : WordEnds y) : ∀ (w : Bytes) (s : Int), Rest m es s (w ++ y) →
    (∀ c ∈ w, IsWord c) → skipWord m (w ++ y).length s = .ok (s + w.length) := by
  intro w
  induction w with
  | nil =>
    intro s h _
    cases y with
    | nil => simp [skipWord]
    | cons d y =>
      have hd : ¬ (d ∉ whitespace ∧ d ∉ symbols) := fun hd => hy ⟨Rest.head_ne h, hd⟩
      have hch : Sh.char m s = .ok d := h.char
      simp only [List.nil_append, List.length_cons, skipWord, hch, bind, Except.bind, if_neg hd]
      simp
  | cons c w ih =>
    intro s h hword
    have hc := hword c List.mem_cons_self
    have hch : Sh.char m s = .ok c := h.char
    have hnext := ih (s + 1) h.tail fun d hd => hword d (List.mem_cons_of_mem c hd)
    simp only [List.cons_append, List.length_cons, skipWord, hch, bind, Except.bind,
      if_pos hc.2, hnext]
    congr 1
    push_cast
    omega

/-- `peek` moves to the next character that is not white. -/
theorem peek_rest (h : Rest m es s w) (toks : Bytes) :
    ∃ s', peek m s es toks = .ok (decide ((ltrim w).headD 0 ≠ 0 ∧ (ltrim w).headD 0 ∈ toks), s') ∧
      Rest m es s' (ltrim w) := by
  obtain ⟨s', hskip, hrest⟩ := skipWhite_rest w s h
  refine ⟨s', ?_, hrest⟩
  simp [peek, h.distance, hskip, hrest.char, bind, Except.bind, pure, Except.pure]

theorem peek_hit (toks : Bytes) (h : Rest m es s (c :: w)) (hc : c ∉ whitespace) (ht : c ∈ toks) :
    ∃ s', peek m s es toks = .ok (true, s') ∧ Rest m es s' (c :: w) := by
  obtain ⟨s', hpeek, hrest⟩ := peek_rest h toks
  rw [ltrim_cons hc] at hpeek hrest
  exact ⟨s', by rw [hpeek, decide_eq_true ⟨h.head_ne, ht⟩], hrest⟩

/-- The characters that `gettoken` returns as they are. -/
def single : Bytes := literal ['|', '(', ')', ';', '&', '<']

theorem gettoken_single (h : Rest m es s w) (hw : ltrim w = c :: y) (hc : c ∈ single) :
    ∃ t, gettoken m s es = .ok t ∧ t.ret = c ∧ Rest m es t.ps (ltrim y) := by
  obtain ⟨q, hskip, hrest⟩ := skipWhite_rest w s h
  rw [hw] at hrest
  have hch : Sh.char m q = .ok c := hrest.char
  obtain ⟨s', hskip', hrest'⟩ := skipWhite_rest y (q + 1) hrest.tail
  have hmem : c ∈ literal ['|', '(', ')', ';', '&', '<'] := hc
  refine ⟨⟨c, q, q + 1, s'⟩, ?_, rfl, hrest'⟩
  simp [gettoken, h.distance, hskip, hch, hrest.head_ne, hmem, hrest.tail.distance, hskip',
    bind, Except.bind, pure, Except.pure]

theorem gettoken_end (h : Rest m es s w) (hw : ltrim w = []) :
    ∃ t, gettoken m s es = .ok t ∧ t.ret = 0 ∧ Rest m es t.ps [] := by
  obtain ⟨q, hskip, hrest⟩ := skipWhite_rest w s h
  rw [hw] at hrest
  have hch : Sh.char m q = .ok 0 := hrest.char
  refine ⟨⟨0, q, q, q⟩, ?_, rfl, hrest⟩
  simp [gettoken, h.distance, hskip, hch, hrest.distance, skipWhite, bind, Except.bind, pure,
    Except.pure]

/-- The bytes of a word are none of those that `gettoken` looks for. -/
theorem IsWord.not_special (h : IsWord c) : c ∉ single ∧ c ≠ '>'.toUInt8 := by
  have hs : ∀ d ∈ symbols, c ≠ d := fun d hd e => h.2.2 (e ▸ hd)
  refine ⟨fun hmem => h.2.2 ?_, hs _ (by decide)⟩
  exact (by decide : ∀ d ∈ single, d ∈ symbols) c hmem

theorem gettoken_word (h : Rest m es s w) {u : Bytes} (hw : ltrim w = u ++ y) (hu : u ≠ [])
    (hword : ∀ c ∈ u, IsWord c) (hy : WordEnds y) :
    ∃ t, gettoken m s es = .ok t ∧ t.ret = 'a'.toUInt8 ∧ Rest m es t.q (u ++ y) ∧
      t.eq = t.q + u.length ∧ Rest m es t.ps (ltrim y) := by
  obtain ⟨q, hskip, hrest⟩ := skipWhite_rest w s h
  rw [hw] at hrest
  have hhead := hword _ (headD_append_word (y := y) hu)
  have hspecial := hhead.not_special
  have hspecial' : (u ++ y).headD 0 ∉ literal ['|', '(', ')', ';', '&', '<'] := hspecial.1
  have hskipw := skipWord_rest hy u q hrest hword
  obtain ⟨s', hskip', hrest'⟩ := skipWhite_rest y (q + u.length) hrest.suffix
  refine ⟨⟨'a'.toUInt8, q, q + u.length, s'⟩, ?_, rfl, hrest, rfl, hrest'⟩
  simp only [gettoken, h.distance, hskip, hrest.char, if_neg hhead.1, if_neg hspecial',
    if_neg hspecial.2, hrest.distance, hskipw, hrest.suffix.distance, hskip', bind, Except.bind,
    pure, Except.pure]

end lexer

/-- What the parser builds, with strings for pointers. -/
inductive Tree where
  | exec (argv : List Bytes)
  | redir (cmd : Tree) (file : Bytes) (mode fd : Nat)
  | pipe (left right : Tree)
  | list (left right : Tree)
  | back (cmd : Tree)
  deriving DecidableEq, Repr

/-- A word between two pointers. The byte behind it belongs to no word. -/
structure WordAt (m : Bytes) (span : Int × Int) (w : Bytes) : Prop where
  nonneg : 0 ≤ span.1
  ends : span.2 = span.1 + w.length
  word : ∀ c ∈ w, IsWord c
  text : ∀ j < w.length, m[span.1.toNat + j]? = w[j]?
  last : ∃ c, m[span.2.toNat]? = some c ∧ ¬ IsWord c

/-- The tree of pointers stands for the tree of words, before any word is cut off. -/
inductive Spans (m : Bytes) : Cmd → Tree → Prop
  | exec {argv : List (Int × Int)} {ws : List Bytes} :
      List.Forall₂ (WordAt m) argv ws → Spans m (.exec argv) (.exec ws)
  | pipe {a b : Cmd} {t u : Tree} : Spans m a t → Spans m b u → Spans m (.pipe a b) (.pipe t u)
  | list {a b : Cmd} {t u : Tree} : Spans m a t → Spans m b u → Spans m (.list a b) (.list t u)
  | redir {a : Cmd} {t : Tree} {r : Redir} {w : Bytes} : Spans m a t → WordAt m (r.file, r.efile) w →
      Spans m (.redir a r) (.redir t w r.mode r.fd)
  | back {a : Cmd} {t : Tree} : Spans m a t → Spans m (.back a) (.back t)

/-- The words of one command, and the text behind them. -/
inductive Words : List Bytes → Bytes → Bytes → Prop
  | nil {x : Bytes} : x = [] ∨ x.headD 0 ∈ literal ['|', ';'] → Words [] x x
  | cons {w y x : Bytes} {ws : List Bytes} : w ≠ [] → (∀ c ∈ w, IsWord c) → WordEnds y →
      Words ws (ltrim y) x → Words (w :: ws) (w ++ y) x

/-- The commands of one pipeline, and the text behind them. -/
inductive Pipes : List (List Bytes) → Bytes → Bytes → Prop
  | last {ws : List Bytes} {w x : Bytes} : Words ws w x → x = [] ∨ x.headD 0 = ';'.toUInt8 →
      Pipes [ws] w x
  | cons {ws : List Bytes} {wss : List (List Bytes)} {w y x : Bytes} :
      Words ws w ('|'.toUInt8 :: y) → Pipes wss (ltrim y) x → Pipes (ws :: wss) w x

/-- The pipelines of a line. -/
inductive Serials : List (List (List Bytes)) → Bytes → Prop
  | last {wss : List (List Bytes)} {w : Bytes} : Pipes wss w [] → Serials [wss] w
  | cons {wss : List (List Bytes)} {ps : List (List (List Bytes))} {w y : Bytes} :
      Pipes wss w (';'.toUInt8 :: y) → Serials ps (ltrim y) → Serials (wss :: ps) w

def pipeTree : List (List Bytes) → Tree
  | [] => .exec []
  | [ws] => .exec ws
  | ws :: wss => .pipe (.exec ws) (pipeTree wss)

def serialTree : List (List (List Bytes)) → Tree
  | [] => .exec []
  | [p] => pipeTree p
  | p :: ps => .list (pipeTree p) (serialTree ps)

section parser
variable {m : Bytes} {es s : Int} {w x y : Bytes} {ws : List Bytes}

theorem wordAt_of_rest {u : Bytes} {q : Int} (h : Rest m es q (u ++ y)) (hu : ∀ c ∈ u, IsWord c)
    (hy : WordEnds y) : WordAt m (q, q + u.length) u := by
  obtain ⟨⟨⟨pre, post, rfl, rfl⟩, _⟩, _⟩ := h
  refine ⟨by simp, rfl, hu, ?_, ?_⟩
  · intro j hj
    rw [Int.toNat_natCast, List.getElem?_append_right (Nat.le_add_right _ _),
      Nat.add_sub_cancel_left, List.append_assoc, List.getElem?_append_left hj]
  · have hlast : (pre ++ (u ++ y ++ 0 :: post))[pre.length + u.length]? =
        some ((y ++ 0 :: post).headD 0) := by
      rw [List.getElem?_append_right (by omega), List.append_assoc,
        List.getElem?_append_right (by omega)]
      cases y <;> simp
    refine ⟨_, hlast, ?_⟩
    cases y with
    | nil => simp [IsWord]
    | cons c y => exact hy

theorem Words.head (h : Words ws w x) : w = [] ∨ w.headD 0 ∈ literal ['|', ';'] ∨
    IsWord (w.headD 0) := by
  cases h with
  | nil h => exact h.imp id .inl
  | cons hw hword _ _ => exact .inr (.inr (hword _ (headD_append_word hw)))

theorem Words.ltrim_eq (h : Words ws w x) : ltrim w = w := by
  cases w with
  | nil => rfl
  | cons c w =>
    refine ltrim_cons ?_
    rcases h.head with h | h | h
    · cases h
    · exact (by decide : ∀ d ∈ literal ['|', ';'], d ∉ whitespace) c h
    · exact h.2.1

/-- None of the characters of other constructs stands in front of the words. -/
theorem Words.peek_false (h : Words ws w x) {toks : Bytes}
    (ht : ∀ c ∈ toks, c ∈ literal ['<', '>', '(', ')', '&']) :
    ¬ (w.headD 0 ≠ 0 ∧ w.headD 0 ∈ toks) := by
  rintro ⟨hne, hmem⟩
  have hsym := ht _ hmem
  rcases h.head with rfl | h | h
  · exact hne rfl
  · exact (by decide : ∀ d ∈ literal ['|', ';'], d ∉ literal ['<', '>', '(', ')', '&']) _ h hsym
  · exact h.2.2 ((by decide : ∀ d ∈ literal ['<', '>', '(', ')', '&'], d ∈ symbols) _ hsym)

theorem Words.length_le (h : Words ws w x) : ws.length + x.length ≤ w.length := by
  induction h with
  | nil => simp
  | @cons u y x ws hu _ _ _ ih =>
    have hpos := List.length_pos_of_ne_nil hu
    have hle := ltrim_length_le y
    simp only [List.length_cons, List.length_append]
    omega

theorem peek_words (toks : Bytes) (h : Rest m es s y) (hw : Words ws (ltrim y) x)
    (ht : ∀ c ∈ toks, c ∈ literal ['<', '>', '(', ')', '&']) :
    ∃ s', peek m s es toks = .ok (false, s') ∧ Rest m es s' (ltrim y) := by
  obtain ⟨s', hpeek, hrest⟩ := peek_rest h toks
  exact ⟨s', by rw [hpeek, decide_eq_false (hw.peek_false ht)], hrest⟩

theorem parseredirs_words {n : Nat} (h : Rest m es s y) (hw : Words ws (ltrim y) x) :
    ∃ s', parseredirs m es (n + 1) s = .ok ([], s') ∧ Rest m es s' (ltrim y) := by
  obtain ⟨s', hpeek, hrest⟩ := peek_words (literal ['<', '>']) h hw (by decide)
  exact ⟨s', by simp [parseredirs, hpeek, bind, Except.bind, pure, Except.pure], hrest⟩

/-- The loop over the words of a command. -/
theorem parseargs_words (hw : Words ws w x) : ∀ (n : Nat) (argv : List (Int × Int))
    (redirs : List Redir) (s : Int) (y : Bytes), Rest m es s y → ltrim y = w → ws.length < n →
    argv.length + ws.length < MAXARGS →
    ∃ spans s', parseargs m es n argv redirs s = .ok (argv ++ spans, redirs, s') ∧
      Rest m es s' x ∧ List.Forall₂ (WordAt m) spans ws := by
  induction hw with
  | @nil x hx =>
    intro n argv redirs s y h hy hn _
    obtain ⟨n, rfl⟩ : ∃ k, n = k + 1 := ⟨n - 1, by omega⟩
    obtain ⟨s', hpeek, hrest⟩ := peek_rest h (literal ['|', ')', '&', ';'])
    rw [hy] at hpeek hrest
    rcases hx with rfl | hx
    · obtain ⟨t, htok, hret, hend⟩ := gettoken_end hrest rfl
      refine ⟨[], t.ps, ?_, hend, .nil⟩
      simp [parseargs, hpeek, htok, hret, bind, Except.bind, pure, Except.pure]
    · have hstop : x.headD 0 ≠ 0 ∧ x.headD 0 ∈ literal ['|', ')', '&', ';'] :=
        (by decide : ∀ d ∈ literal ['|', ';'], d ≠ 0 ∧ d ∈ literal ['|', ')', '&', ';']) _ hx
      rw [decide_eq_true hstop] at hpeek
      refine ⟨[], s', ?_, hrest, .nil⟩
      simp [parseargs, hpeek, bind, Except.bind, pure, Except.pure]
  | @cons u z x ws hu hword hz hws ih =>
    intro n argv redirs s y h hy hn hargs
    simp only [List.length_cons] at hn hargs
    obtain ⟨n, rfl⟩ : ∃ k, n = k + 1 := ⟨n - 1, by omega⟩
    obtain ⟨s₁, hpeek, hrest⟩ := peek_rest h (literal ['|', ')', '&', ';'])
    rw [hy] at hpeek hrest
    have hgo : ¬ ((u ++ z).headD 0 ≠ 0 ∧ (u ++ z).headD 0 ∈ literal ['|', ')', '&', ';']) := by
      rintro ⟨_, hmem⟩
      have hsym := (by decide : ∀ d ∈ literal ['|', ')', '&', ';'], d ∈ symbols) _ hmem
      exact (hword _ (headD_append_word hu)).2.2 hsym
    rw [decide_eq_false hgo] at hpeek
    obtain ⟨t, htok, hret, hq, heq, hps⟩ := gettoken_word hrest (ltrim_word hu hword) hu hword hz
    obtain ⟨k, rfl⟩ : ∃ k, n = k + 1 := ⟨n - 1, by omega⟩
    obtain ⟨s₂, hredirs, hrest₂⟩ := parseredirs_words (n := k) hps (by rwa [ltrim_ltrim])
    rw [ltrim_ltrim] at hrest₂
    obtain ⟨spans, s', hargs', hend, hall⟩ := ih (k + 1) (argv ++ [(t.q, t.eq)]) redirs s₂ _ hrest₂
      (ltrim_ltrim z) (by omega) (by simp only [List.length_append, List.length_singleton]; omega)
    have hroom : ¬ MAXARGS ≤ argv.length + 1 := by omega
    refine ⟨(t.q, t.eq) :: spans, s', ?_, hend, .cons (heq ▸ wordAt_of_rest hq hword hz) hall⟩
    rw [List.append_assoc] at hargs'
    have ha : 'a'.toUInt8 ≠ 0 := by decide
    rw [parseargs]
    simp only [hpeek, htok, hredirs, bind, Except.bind, hret, if_neg ha, ne_eq, not_true_eq_false,
      if_false, if_neg hroom, List.append_nil, hargs']
    rfl

theorem parseexec_words (block : Rule) (hw : Words ws w x) (h : Rest m es s y) (hy : ltrim y = w) {n : Nat}
    (hn : ws.length < n) (hargs : ws.length < MAXARGS) :
    ∃ cmd s', parseexec m es n block s = .ok (cmd, s') ∧ Rest m es s' x ∧
      Spans m cmd (.exec ws) := by
  subst hy
  obtain ⟨k, rfl⟩ : ∃ k, n = k + 1 := ⟨n - 1, by omega⟩
  obtain ⟨s₁, hpeek, hrest₁⟩ := peek_words (literal ['(']) h hw (by decide)
  obtain ⟨s₂, hredirs, hrest₂⟩ := parseredirs_words (n := k) hrest₁ (by rwa [ltrim_ltrim])
  obtain ⟨spans, s', hargv, hend, hall⟩ := parseargs_words hw (k + 1) [] [] s₂ _ hrest₂
    (by rw [ltrim_ltrim, ltrim_ltrim]) hn (by simpa using hargs)
  refine ⟨.exec spans, s', ?_, hend, .exec hall⟩
  simp [parseexec, hpeek, hredirs, hargv, redirect, bind, Except.bind, pure, Except.pure]

theorem Pipes.length_le {wss : List (List Bytes)} (h : Pipes wss w x) : x.length ≤ w.length := by
  induction h with
  | last h _ =>
    have := h.length_le
    omega
  | @cons ws wss w y x h _ ih =>
    have hle := h.length_le
    have hl := ltrim_length_le y
    simp only [List.length_cons] at hle
    omega

/-- Behind a command `peek` sees a bar exactly if there is another one to come. -/
theorem parsepipe_pipes (block : Rule) {wss : List (List Bytes)} (hp : Pipes wss w x) : ∀ (n : Nat) (s : Int)
    (y : Bytes), Rest m es s y → ltrim y = w → w.length < n →
    (∀ ws ∈ wss, ws.length < MAXARGS) →
    ∃ cmd s', parsepipe m es block n s = .ok (cmd, s') ∧ Rest m es s' x ∧
      Spans m cmd (pipeTree wss) := by
  induction hp with
  | @last ws w x hw hx =>
    intro n s y h hy hn hargs
    obtain ⟨n, rfl⟩ : ∃ k, n = k + 1 := ⟨n - 1, by omega⟩
    have hle := hw.length_le
    obtain ⟨cmd, s₁, hexec, hrest, hspans⟩ := parseexec_words block hw h hy
      (n := n + 1) (by omega) (hargs ws (by simp))
    obtain ⟨s', hpeek, hrest'⟩ := peek_rest hrest (literal ['|'])
    have hx' : ltrim x = x := by
      cases x with
      | nil => rfl
      | cons c x =>
        refine ltrim_cons ?_
        rcases hx with hx | hx
        · cases hx
        · have hc : c = ';'.toUInt8 := hx
          rw [hc]
          decide
    rw [hx'] at hpeek hrest'
    have hno : ¬ (x.headD 0 ≠ 0 ∧ x.headD 0 ∈ literal ['|']) := by
      rcases hx with rfl | hx
      · simp
      · rw [hx]
        decide
    rw [decide_eq_false hno] at hpeek
    refine ⟨cmd, s', ?_, hrest', hspans⟩
    simp [parsepipe, hexec, hpeek, bind, Except.bind, pure, Except.pure]
  | @cons ws wss w z x hw hp ih =>
    intro n s y h hy hn hargs
    obtain ⟨n, rfl⟩ : ∃ k, n = k + 1 := ⟨n - 1, by omega⟩
    have hle := hw.length_le
    simp only [List.length_cons] at hle
    obtain ⟨cmd, s₁, hexec, hrest, hspans⟩ := parseexec_words block hw h hy
      (n := n + 1) (by omega) (hargs ws (by simp))
    obtain ⟨s₂, hpeek, hrest₂⟩ := peek_hit (literal ['|']) hrest (by decide) (by decide)
    obtain ⟨t, htok, -, hps⟩ := gettoken_single hrest₂ (ltrim_cons (by decide)) (by decide)
    have hlz := ltrim_length_le z
    obtain ⟨right, s', hright, hend, hspans'⟩ := ih n t.ps _ hps (ltrim_ltrim z) (by omega)
      fun ws' hws' => hargs ws' (List.mem_cons_of_mem ws hws')
    refine ⟨.pipe cmd right, s', ?_, hend, ?_⟩
    · rw [parsepipe]
      simp [hexec, hpeek, htok, hright, bind, Except.bind, pure, Except.pure]
    · cases hp with
      | last _ _ => exact .pipe hspans hspans'
      | cons _ _ => exact .pipe hspans hspans'

/-- A pipeline is followed by the end of the line or by a semicolon, not by `&`. -/
theorem parseback_pipes {n : Nat} (h : Rest m es s x) (hx : x = [] ∨ x.headD 0 = ';'.toUInt8)
    (cmd : Cmd) : ∃ s', parseback m es (n + 1) cmd s = .ok (cmd, s') ∧ Rest m es s' x := by
  have hw : Words [] x x := .nil (hx.imp id fun hx => by rw [hx]; decide)
  obtain ⟨s', hpeek, hrest⟩ := peek_words (literal ['&']) h (by rwa [hw.ltrim_eq])
    (by decide)
  rw [hw.ltrim_eq] at hrest
  exact ⟨s', by simp [parseback, hpeek, bind, Except.bind, pure, Except.pure], hrest⟩

theorem parseline_serials {ps : List (List (List Bytes))} (hs : Serials ps w) : ∀ (n : Nat)
    (s : Int) (y : Bytes), Rest m es s y → ltrim y = w → w.length < n →
    (∀ p ∈ ps, ∀ ws ∈ p, ws.length < MAXARGS) →
    ∃ cmd s', parseline m es n s = .ok (cmd, s') ∧ Rest m es s' [] ∧
      Spans m cmd (serialTree ps) := by
  induction hs with
  | @last wss w hp =>
    intro n s y h hy hn hargs
    obtain ⟨n, rfl⟩ : ∃ k, n = k + 1 := ⟨n - 1, by omega⟩
    obtain ⟨cmd, s₁, hpipe, hrest₁, hspans⟩ := parsepipe_pipes
      (parseblock m es (n + 1) (parseline m es n)) hp (n + 1) s y h hy hn
      (hargs wss (by simp))
    obtain ⟨s₂, hback, hrest₂⟩ := parseback_pipes (n := n) hrest₁ (.inl rfl) cmd
    obtain ⟨s', hpeek, hrest'⟩ := peek_rest hrest₂ (literal [';'])
    refine ⟨cmd, s', ?_, hrest', hspans⟩
    simp [parseline, hpipe, hback, hpeek, ltrim, bind, Except.bind, pure, Except.pure]
  | @cons wss ps w z hp hs ih =>
    intro n s y h hy hn hargs
    obtain ⟨n, rfl⟩ : ∃ k, n = k + 1 := ⟨n - 1, by omega⟩
    have hle := hp.length_le
    simp only [List.length_cons] at hle
    obtain ⟨cmd, s₁, hpipe, hrest₁, hspans⟩ := parsepipe_pipes
      (parseblock m es (n + 1) (parseline m es n)) hp (n + 1) s y h hy hn
      (hargs wss (by simp))
    obtain ⟨s₂, hback, hrest₂⟩ := parseback_pipes (n := n) hrest₁ (.inr rfl) cmd
    obtain ⟨s₃, hpeek, hrest₃⟩ := peek_hit (literal [';']) hrest₂ (by decide) (by decide)
    obtain ⟨t, htok, -, hps⟩ := gettoken_single hrest₃ (ltrim_cons (by decide)) (by decide)
    have hlz := ltrim_length_le z
    obtain ⟨right, s', hright, hend, hspans'⟩ := ih n t.ps _ hps (ltrim_ltrim z) (by omega)
      fun p hp' => hargs p (List.mem_cons_of_mem wss hp')
    refine ⟨.list cmd right, s', ?_, hend, ?_⟩
    · rw [parseline]
      simp [hpipe, hback, hpeek, htok, hright, bind, Except.bind, pure, Except.pure]
    · cases hs with
      | last _ => exact .list hspans hspans'
      | cons _ _ => exact .list hspans hspans'

end parser

/-- Some bytes that belong to no word have become terminators. -/
structure Cut (m m' : Bytes) : Prop where
  length : m'.length = m.length
  byte : ∀ i : Nat, m'[i]? = m[i]? ∨ m'[i]? = some 0 ∧ ∃ c, m[i]? = some c ∧ ¬ IsWord c

/-- The terminators behind the words of a tree have been written. -/
def Ended (m : Bytes) : Cmd → Prop
  | .exec argv => ∀ span ∈ argv, m[span.2.toNat]? = some 0
  | .redir cmd target => Ended m cmd ∧ m[target.efile.toNat]? = some 0
  | .pipe left right | .list left right => Ended m left ∧ Ended m right
  | .back cmd => Ended m cmd

/-- The tree with the strings that its pointers point at. -/
def strings (m : Bytes) : Cmd → Option Tree
  | .exec argv => (argv.mapM fun span => cstring m span.1).map .exec
  | .redir cmd target => do
    let cmd ← strings m cmd
    let file ← cstring m target.file
    return .redir cmd file target.mode target.fd
  | .pipe left right => do return .pipe (← strings m left) (← strings m right)
  | .list left right => do return .list (← strings m left) (← strings m right)
  | .back cmd => (strings m cmd).map .back

section cutting
variable {m m' m'' : Bytes} {span : Int × Int} {w : Bytes}

theorem Cut.refl (m : Bytes) : Cut m m := ⟨rfl, fun _ => .inl rfl⟩

theorem Cut.trans (h : Cut m m') (h' : Cut m' m'') : Cut m m'' := by
  refine ⟨h'.length.trans h.length, fun i => ?_⟩
  rcases h'.byte i with e' | ⟨e', c, hc, hword⟩
  · rw [e']
    exact h.byte i
  · refine .inr ⟨e', ?_⟩
    rcases h.byte i with e | ⟨_, hold⟩
    · exact ⟨c, e ▸ hc, hword⟩
    · exact hold

theorem Cut.zero (h : Cut m m') {i : Nat} (hi : m[i]? = some 0) : m'[i]? = some 0 := by
  rcases h.byte i with e | ⟨e, _⟩
  · rw [e, hi]
  · exact e

theorem WordAt.cut (hw : WordAt m span w) (h : Cut m m') : WordAt m' span w := by
  refine ⟨hw.nonneg, hw.ends, hw.word, ?_, ?_⟩
  · intro j hj
    rw [← hw.text j hj]
    rcases h.byte (span.1.toNat + j) with e | ⟨_, c, hc, hnot⟩
    · exact e
    · rw [hw.text j hj] at hc
      exact absurd (hw.word c (List.mem_of_getElem? hc)) hnot
  · obtain ⟨c, hc, hnot⟩ := hw.last
    rcases h.byte span.2.toNat with e | ⟨e, _⟩
    · exact ⟨c, e.trans hc, hnot⟩
    · exact ⟨0, e, by simp [IsWord]⟩

theorem Spans.cut {cmd : Cmd} {t : Tree} (hs : Spans m cmd t) (h : Cut m m') : Spans m' cmd t := by
  induction hs with
  | exec hall => exact .exec (hall.imp fun _ _ hw => hw.cut h)
  | pipe _ _ iha ihb => exact .pipe iha ihb
  | list _ _ iha ihb => exact .list iha ihb
  | redir _ hw ih => exact .redir ih (hw.cut h)
  | back _ ih => exact .back ih

theorem Ended.cut {cmd : Cmd} (he : Ended m cmd) (h : Cut m m') : Ended m' cmd := by
  induction cmd with
  | exec argv => exact fun span hs => h.zero (he span hs)
  | redir cmd target ih => exact ⟨ih he.1, h.zero he.2⟩
  | pipe left right ihl ihr => exact ⟨ihl he.1, ihr he.2⟩
  | list left right ihl ihr => exact ⟨ihl he.1, ihr he.2⟩
  | back cmd ih => exact ih he

theorem WordAt.store (hw : WordAt m span w) : ∃ m', store m span.2 0 = some m' ∧ Cut m m' ∧
    m'[span.2.toNat]? = some 0 := by
  obtain ⟨c, hc, hnot⟩ := hw.last
  obtain ⟨hlt, hget⟩ := List.getElem?_eq_some_iff.mp hc
  have hpos : 0 ≤ span.2 := by
    have := hw.ends
    have := hw.nonneg
    omega
  refine ⟨m.set span.2.toNat 0, ?_, ⟨by simp, fun i => ?_⟩, by simp [hlt]⟩
  · rw [Ulib.store, if_pos ⟨hpos, by omega⟩]
  · by_cases hi : span.2.toNat = i
    · subst hi
      exact .inr ⟨by simp [hlt], c, hc, hnot⟩
    · exact .inl (List.getElem?_set_ne hi)

theorem WordAt.cstring (hw : WordAt m span w) (hend : m[span.2.toNat]? = some 0) :
    cstring m span.1 = some w := by
  have hends := hw.ends
  have hpos := hw.nonneg
  obtain ⟨hlt, _⟩ := List.getElem?_eq_some_iff.mp hend
  have hdrop : m.drop span.1.toNat = w ++ 0 :: m.drop (span.2.toNat + 1) := by
    apply List.ext_getElem?
    intro i
    rw [List.getElem?_drop]
    rcases Nat.lt_trichotomy i w.length with hi | hi | hi
    · rw [hw.text i hi, List.getElem?_append_left hi]
    · have e : span.1.toNat + i = span.2.toNat := by omega
      rw [e, hend, hi]
      simp
    · rw [List.getElem?_append_right (by omega)]
      obtain ⟨k, hk⟩ : ∃ k, i - w.length = k + 1 := ⟨i - w.length - 1, by omega⟩
      rw [hk, List.getElem?_cons_succ, List.getElem?_drop]
      congr 1
      omega
  have hderef : Ulib.deref m span.1 = some (w ++ 0 :: m.drop (span.2.toNat + 1)) := by
    rw [Ulib.deref, if_pos ⟨hpos, by omega⟩, hdrop]
  have hclean : (0 : UInt8) ∉ w := fun h0 => (hw.word 0 h0).1 rfl
  simp [Ulib.cstring, hderef, length_terminated hclean]

/-- The terminators of the arguments are written one after the other. -/
theorem nulterminate_argv {argv : List (Int × Int)} {ws : List Bytes} :
    ∀ {m : Bytes}, List.Forall₂ (WordAt m) argv ws →
    ∃ m', argv.foldlM (fun m w => store m w.2 0) m = some m' ∧ Cut m m' ∧ Ended m' (.exec argv) := by
  induction argv generalizing ws with
  | nil =>
    intro m _
    exact ⟨m, rfl, .refl m, by simp [Ended]⟩
  | cons span argv ih =>
    intro m hall
    obtain ⟨w, ws, hw, htail, rfl⟩ := List.forall₂_cons_left_iff.mp hall
    obtain ⟨m₁, hstore, hcut, hend⟩ := hw.store
    obtain ⟨m', hfold, hcut', hended⟩ := ih (htail.imp fun _ _ hw => hw.cut hcut)
    refine ⟨m', ?_, hcut.trans hcut', ?_⟩
    · simp [List.foldlM_cons, hstore, hfold]
    · intro s hs
      rcases List.mem_cons.mp hs with rfl | hs
      · exact hcut'.zero hend
      · exact hended s hs

theorem nulterminate_spans {cmd : Cmd} {t : Tree} (hs : Spans m cmd t) :
    ∃ m', nulterminate cmd m = some m' ∧ Cut m m' ∧ Ended m' cmd := by
  have both : ∀ {a b : Cmd} {t u : Tree} {m : Bytes}, Spans m a t → Spans m b u →
      (∀ {m}, Spans m a t → ∃ m', nulterminate a m = some m' ∧ Cut m m' ∧ Ended m' a) →
      (∀ {m}, Spans m b u → ∃ m', nulterminate b m = some m' ∧ Cut m m' ∧ Ended m' b) →
      ∃ m', (nulterminate a m).bind (nulterminate b) = some m' ∧ Cut m m' ∧ Ended m' a ∧
        Ended m' b := by
    intro a b t u m ha hb iha ihb
    obtain ⟨m₁, h₁, hcut₁, hend₁⟩ := iha ha
    obtain ⟨m₂, h₂, hcut₂, hend₂⟩ := ihb (hb.cut hcut₁)
    exact ⟨m₂, by simp [h₁, h₂], hcut₁.trans hcut₂, hend₁.cut hcut₂, hend₂⟩
  induction cmd generalizing m t with
  | exec argv =>
    cases hs with
    | exec hall => exact nulterminate_argv hall
  | redir a r ih =>
    cases hs with
    | redir ha hw =>
      obtain ⟨m₁, h₁, hcut₁, hend₁⟩ := ih ha
      obtain ⟨m₂, h₂, hcut₂, hend₂⟩ := (hw.cut hcut₁).store
      exact ⟨m₂, by simp only [nulterminate, h₁, Option.bind_some, h₂], hcut₁.trans hcut₂, hend₁.cut hcut₂, hend₂⟩
  | pipe a b iha ihb =>
    cases hs with
    | pipe ha hb => exact both ha hb iha ihb
  | list a b iha ihb =>
    cases hs with
    | list ha hb => exact both ha hb iha ihb
  | back a ih =>
    cases hs with
    | back ha => exact ih ha

theorem Spans.strings_eq {cmd : Cmd} {t : Tree} (hs : Spans m cmd t) (he : Ended m cmd) :
    strings m cmd = some t := by
  induction hs with
  | @exec argv ws hall =>
    have hmap : argv.mapM (fun span => Ulib.cstring m span.1) = some ws := by
      induction hall with
      | nil => rfl
      | cons hw _ ih =>
        have htail := ih fun span hs => he span (List.mem_cons_of_mem _ hs)
        simp [List.mapM_cons, hw.cstring (he _ List.mem_cons_self), htail]
    simp [strings, hmap]
  | pipe _ _ iha ihb => simp [strings, iha he.1, ihb he.2]
  | list _ _ iha ihb => simp [strings, iha he.1, ihb he.2]
  | redir _ hw ih => simp [strings, ih he.1, hw.cstring he.2]
  | back _ ih => simp [strings, ih he]

end cutting

/-- `parsecmd` on a line of pipelines: it comes back with their tree, and its strings
stay the words of the line when they are cut off in place. -/
theorem parsecmd_serials {m : Bytes} {s : Int} {w : Bytes} {ps : List (List (List Bytes))}
    (h : Holds m s w) (hm : m.length < 2 ^ 32) (hs : Serials ps (ltrim w))
    (hargs : ∀ p ∈ ps, ∀ ws ∈ p, ws.length < MAXARGS) :
    ∃ cmd m', parsecmd m s = .ok (cmd, m') ∧ strings m' cmd = some (serialTree ps) := by
  have hlen : (UInt32.ofNat w.length).toNat = w.length := by
    have := h.end_lt
    have := h.nonneg
    rw [UInt32.toNat_ofNat', Nat.mod_eq_of_lt (by omega)]
  have hrest : Rest m (s + w.length) s w := ⟨h, rfl⟩
  obtain ⟨cmd, s', hline, hend, hspans⟩ := parseline_serials hs (w.length + 1) s w hrest rfl
    (Nat.lt_succ_of_le (ltrim_length_le w)) hargs
  obtain ⟨s₂, hpeek, hend₂⟩ := peek_rest hend []
  obtain ⟨m', hnul, hcut, hended⟩ := nulterminate_spans hspans
  refine ⟨cmd, m', ?_, (hspans.cut hcut).strings_eq hended⟩
  have hat : s₂ = s + w.length := by
    have := hend₂.ends
    simpa [ltrim] using this
  simp [parsecmd, h.strlen, hlen, hline, hpeek, hat, hnul, bind, Except.bind, pure, Except.pure]

end Xv6.Shell.ShParser
