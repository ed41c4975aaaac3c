import Xv6.Shell.ShTokens

/-!
# sh's parser is the parser of its grammar

Each function of the parser does on the text what the function of the grammar does on the tokens:
it stops with the same message, or it comes back with the tree of the derivation, and the pointer
stands before the tokens that are left.
-/
namespace Xv6.Shell.ShRules

open Xv6.Source Xv6.Source.Ulib Xv6.Source.Sh Xv6.Shell.Grammar Xv6.Shell.ShParser Xv6.Shell.ShTokens

/-! ## The trees of derivations -/

def mode : Direction → Nat
  | .input => O_RDONLY
  | .output => O_WRONLY ||| O_CREATE ||| O_TRUNC
  | .append => O_WRONLY ||| O_CREATE

def fd : Direction → Nat
  | .input => 0
  | .output => 1
  | .append => 1

/-- The redirections wrap the command, the first one innermost. -/
def wrap (t : Tree) (rs : List Redirect) : Tree :=
  rs.foldl (fun t r => .redir t r.file (mode r.direction) (fd r.direction)) t

/-- A command in the background, once for each `&`. -/
def background : Nat → Tree → Tree
  | 0, t => t
  | n + 1, t => background n (.back t)

mutual

def lineTree : Line → Tree
  | .last p amps => background amps (pipelineTree p)
  | .seq p amps l => .list (background amps (pipelineTree p)) (lineTree l)

def pipelineTree : Pipe → Tree
  | .last e => execTree e
  | .bar e p => .pipe (execTree e) (pipelineTree p)

def execTree : Exec → Tree
  | .block l rs => wrap (lineTree l) rs
  | .simple rs args => wrap (.exec (args.map Arg.word)) (rs ++ args.flatMap Arg.redirs)

end

/-! ## Both parsers do the same -/

section simulation

variable {m : Bytes} {es : Int} {α β γ δ : Type}

/-- Both stop for the same reason, or both come back. -/
def Sim (m : Bytes) (es : Int) (R : α → β → Prop) (x : Parse (α × Int)) (y : Parse (β × List Tok)) : Prop :=
  (∃ e, x = .error e ∧ y = .error e) ∨
    ∃ a s b ts, x = .ok (a, s) ∧ y = .ok (b, ts) ∧ R a b ∧ At m es s ts

variable {R : α → β → Prop} {S : γ → δ → Prop}

theorem Sim.error (e : Stop) : Sim m es R (.error e) (.error e) := .inl ⟨e, rfl, rfl⟩

theorem Sim.ret {a : α} {s : Int} {b : β} {ts : List Tok} (hR : R a b) (hat : At m es s ts) :
    Sim m es R (.ok (a, s)) (.ok (b, ts)) := .inr ⟨a, s, b, ts, rfl, rfl, hR, hat⟩

theorem Sim.bind {x : Parse (α × Int)} {y : Parse (β × List Tok)} {f : α × Int → Parse (γ × Int)}
    {g : β × List Tok → Parse (δ × List Tok)} (h : Sim m es R x y)
    (hrest : ∀ a s b ts, R a b → At m es s ts → Sim m es S (f (a, s)) (g (b, ts))) :
    Sim m es S (x >>= f) (y >>= g) := by
  rcases h with ⟨e, rfl, rfl⟩ | ⟨a, s, b, ts, rfl, rfl, hR, hat⟩
  · exact .error e
  · exact hrest a s b ts hR hat

/-- The function of the grammar only puts its result together. -/
theorem Sim.returning {x : Parse (α × Int)} {y : Parse (β × List Tok)} {S : α → δ → Prop} {g : β → δ}
    (h : Sim m es R x y) (hrest : ∀ a b, R a b → S a (g b)) :
    Sim m es S x (y >>= fun (b, ts) => pure (g b, ts)) := by
  rcases h with ⟨e, rfl, rfl⟩ | ⟨a, s, b, ts, rfl, rfl, hR, hat⟩
  · exact .error e
  · exact .ret (hrest a b hR) hat

end simulation

section rules

variable {m : Bytes} {es s : Int} {ts : List Tok}

/-- A redirection of the parser, and of the derivation. -/
def RedirAt (m : Bytes) (r : Redir) (d : Redirect) : Prop :=
  WordAt m (r.file, r.efile) d.file ∧ r.mode = mode d.direction ∧ r.fd = fd d.direction

theorem redircmd_at {d : Direction} {tok : Token} {f : Bytes} (hw : WordAt m (tok.q, tok.eq) f) :
    RedirAt m (redircmd (code d.tok) tok) ⟨d, f⟩ := by
  cases d <;> exact ⟨hw, rfl, rfl⟩

theorem ok_bind {α β : Type} (a : α) (f : α → Parse β) : (Except.ok a : Parse α) >>= f = f a := rfl

/-- What `peek` is asked for, in terms of tokens. -/
theorem startsWith_redirs (t : Tok) : startsWith (literal ['<', '>']) (t :: ts) = (direction? t).isSome := by
  cases t <;> rfl

theorem startsWith_stops (t : Tok) : startsWith (literal ['|', ')', '&', ';']) (t :: ts) = decide (t ∈ stops) := by
  cases t <;> rfl

theorem code_word (w : Bytes) : code (.word w) = 'a'.toUInt8 := rfl

theorem code_ne_word {t : Tok} (h : word? t = none) : code t ≠ 'a'.toUInt8 := by
  cases t with
  | word w => exact nomatch h
  | _ => decide

theorem code_ne_zero (t : Tok) : code t ≠ 0 := by
  cases t with
  | word w => exact (by decide : 'a'.toUInt8 ≠ 0)
  | _ => decide

theorem parseredirs_sim (n : Nat) (h : At m es s ts) :
    Sim m es (List.Forall₂ (RedirAt m)) (parseredirs m es n s) (redirs n ts) := by
  induction n generalizing s ts with
  | zero => exact .error _
  | succ n ih =>
    obtain ⟨s₁, hpeek, h₁⟩ := peek_at h (literal ['<', '>']) (by decide)
    rw [parseredirs, hpeek, ok_bind]
    dsimp only
    cases ts with
    | nil => exact .ret .nil h₁
    | cons t ts =>
      rw [startsWith_redirs, redirs]
      cases hdir : direction? t with
      | none => exact .ret .nil h₁
      | some d =>
        obtain ⟨tok, htok, hret, h₂, -⟩ := gettoken_at h₁
        rw [Option.isSome_some, if_pos rfl, htok, ok_bind]
        cases ts with
        | nil =>
          obtain ⟨file, hfile, hret', -⟩ := gettoken_end_at h₂
          rw [hfile, ok_bind, hret', if_pos (by decide)]
          exact .error _
        | cons u ts =>
          obtain ⟨file, hfile, hret', h₃, hword⟩ := gettoken_at h₂
          rw [hfile, ok_bind, hret']
          cases hu : word? u with
          | none =>
            rw [if_pos (code_ne_word hu)]
            cases u with
            | word w => cases hu
            | _ => exact .error _
          | some f =>
            obtain rfl := word_eq hu
            rw [if_neg (not_not_intro (code_word f))]
            refine (ih h₃).bind fun more s' rs ts' hall hat => .ret (.cons ?_ hall) hat
            rw [hret, direction_tok hdir]
            exact redircmd_at (hword f rfl)

/-- The arguments and redirections that a command has so far, and those that come. -/
structure ArgsAt (m : Bytes) (argv : List (Int × Int)) (rd : List Redir) (x : List (Int × Int) × List Redir)
    (as : List Arg) : Prop where
  argv : ∃ spans, x.1 = argv ++ spans ∧ List.Forall₂ (WordAt m) spans (as.map Arg.word)
  redirs : ∃ more, x.2 = rd ++ more ∧ List.Forall₂ (RedirAt m) more (as.flatMap Arg.redirs)

theorem ArgsAt.nil (argv : List (Int × Int)) (rd : List Redir) : ArgsAt m argv rd (argv, rd) [] where
  argv := ⟨[], (List.append_nil argv).symm, .nil⟩
  redirs := ⟨[], (List.append_nil rd).symm, .nil⟩

theorem ArgsAt.cons {argv : List (Int × Int)} {rd more : List Redir} {x : List (Int × Int) × List Redir}
    {span : Int × Int} {a : Arg} {as : List Arg} (hw : WordAt m span a.word)
    (hr : List.Forall₂ (RedirAt m) more a.redirs) (h : ArgsAt m (argv ++ [span]) (rd ++ more) x as) :
    ArgsAt m argv rd x (a :: as) where
  argv := by
    obtain ⟨spans, heq, hall⟩ := h.argv
    rw [List.append_assoc] at heq
    exact ⟨span :: spans, heq, .cons hw hall⟩
  redirs := by
    obtain ⟨rest, heq, hall⟩ := h.redirs
    rw [List.append_assoc] at heq
    exact ⟨more ++ rest, heq, List.rel_append hr hall⟩

/-- What `parseargs` returns, as a pair and a pointer. -/
def regroup {α β : Type} (x : α × β × Int) : (α × β) × Int := ((x.1, x.2.1), x.2.2)

theorem map_bind {α β γ : Type} (x : Parse α) (f : α → Parse β) (g : β → γ) :
    (x >>= f).map g = x >>= fun a => (f a).map g := by
  cases x <;> rfl

theorem bind_regroup {α β γ : Type} (x : Parse (α × β × Int)) (f : (α × β) × Int → Parse γ) :
    (x >>= fun y => f (regroup y)) = x.map regroup >>= f := by
  cases x <;> rfl

theorem parseargs_sim (n : Nat) (argv : List (Int × Int)) (rd : List Redir) (h : At m es s ts) :
    Sim m es (ArgsAt m argv rd) ((parseargs m es n argv rd s).map regroup) (args MAXARGS n argv.length ts) := by
  induction n generalizing argv rd s ts with
  | zero => exact .error _
  | succ n ih =>
    obtain ⟨s₁, hpeek, h₁⟩ := peek_at h (literal ['|', ')', '&', ';']) (by decide)
    rw [parseargs, hpeek, ok_bind]
    dsimp only
    cases ts with
    | nil =>
      obtain ⟨tok, htok, hret, h₂⟩ := gettoken_end_at h₁
      have hgo : startsWith (literal ['|', ')', '&', ';']) [] = false := rfl
      rw [hgo, if_neg (by decide), htok, ok_bind, if_pos hret]
      exact .ret (.nil argv rd) h₂
    | cons t ts =>
      rw [startsWith_stops, args]
      cases hw : word? t with
      | none =>
        by_cases hstop : t ∈ stops
        · rw [decide_eq_true hstop, if_pos rfl, if_pos hstop]
          exact .ret (.nil argv rd) h₁
        · obtain ⟨tok, htok, hret, -⟩ := gettoken_at h₁
          rw [decide_eq_false hstop, if_neg Bool.false_ne_true, if_neg hstop, htok, ok_bind, hret,
            if_neg (code_ne_zero t), if_pos (code_ne_word hw)]
          exact .error _
      | some w =>
        obtain rfl := word_eq hw
        obtain ⟨tok, htok, hret, h₂, hword⟩ := gettoken_at h₁
        have hgo : decide (Tok.word w ∈ stops) = false := rfl
        rw [hgo, if_neg Bool.false_ne_true, htok, ok_bind, hret, if_neg (code_ne_zero _),
          if_neg (not_not_intro (code_word w))]
        dsimp only
        by_cases hroom : MAXARGS ≤ argv.length + 1
        · rw [if_pos hroom, if_pos hroom]
          exact .error _
        · rw [if_neg hroom, if_neg hroom, map_bind]
          refine (parseredirs_sim n h₂).bind fun more s₂ rs ts₂ hrs h₃ => ?_
          have hargs := ih (argv ++ [(tok.q, tok.eq)]) (rd ++ more) h₃
          rw [List.length_append, List.length_singleton] at hargs
          exact hargs.returning fun x as hx => hx.cons (hword w rfl) hrs

/-! ## Commands, pipelines and lines -/

theorem spans_redirect {cmd : Cmd} {t : Tree} {rd : List Redir} {rs : List Redirect} (h : Spans m cmd t)
    (hall : List.Forall₂ (RedirAt m) rd rs) : Spans m (redirect cmd rd) (wrap t rs) := by
  induction hall generalizing cmd t with
  | nil => exact h
  | @cons r d rd rs hr _ ih =>
    have hspans := ih (Spans.redir h hr.1)
    rw [hr.2.1, hr.2.2] at hspans
    exact hspans

/-- A function of the parser that builds a command, with the one of the grammar. -/
def RuleSim {α : Type} (m : Bytes) (es : Int) (tree : α → Tree) (rule : Rule) (read : List Tok → Parse (α × List Tok)) :
    Prop :=
  ∀ s ts, At m es s ts → Sim m es (fun cmd a => Spans m cmd (tree a)) (rule s) (read ts)

theorem head_cases (t : Tok) (ts : List Tok) : (∃ rest, ts = t :: rest) ∨ ts.head? ≠ some t := by
  by_cases h : ts.head? = some t
  · exact .inl (List.head?_eq_some_iff.1 h)
  · exact .inr h

theorem parseblock_sim {n : Nat} {inner : Rule} {read : List Tok → Parse (Line × List Tok)}
    (hinner : RuleSim m es lineTree inner read) (h : At m es s (.opening :: ts)) :
    Sim m es (fun cmd e => Spans m cmd (execTree e)) (parseblock m es n inner s) (block n read ts) := by
  obtain ⟨s₁, hpeek, h₁⟩ := peek_hit_at h (c := '(') rfl
  obtain ⟨tok, htok, -, h₂, -⟩ := gettoken_at h₁
  rw [parseblock, hpeek, ok_bind]
  dsimp only
  rw [if_neg (by decide), htok, ok_bind]
  refine (hinner _ _ h₂).bind fun cmd s₂ l ts₂ hcmd h₃ => ?_
  dsimp only
  rcases head_cases .closing ts₂ with ⟨ts₃, rfl⟩ | hno
  · obtain ⟨s₃, hpeek', h₄⟩ := peek_hit_at h₃ (c := ')') rfl
    obtain ⟨tok', htok', -, h₅, -⟩ := gettoken_at h₄
    rw [hpeek', ok_bind]
    dsimp only
    rw [if_neg (by decide), htok', ok_bind]
    exact (parseredirs_sim n h₅).bind fun rd s₄ rs ts₄ hall h₆ => .ret (spans_redirect hcmd hall) h₆
  · obtain ⟨s₃, hpeek', h₄⟩ := peek_miss_at h₃ (c := ')') rfl hno
    rw [hpeek', ok_bind]
    dsimp only
    rw [if_pos (by decide)]
    split
    · exact absurd List.head?_cons hno
    · exact .error _

/-- A simple command: the redirections in front, then the words with those behind them. -/
theorem simple_sim {n : Nat} (h : At m es s ts) :
    Sim m es (fun cmd e => Spans m cmd (execTree e)) (do
      let (redirs, ps) ← parseredirs m es n s
      let (argv, redirs, ps) ← parseargs m es n [] redirs ps
      return (redirect (.exec argv) redirs, ps)) (simple MAXARGS n ts) := by
  refine (parseredirs_sim n h).bind fun rd s₁ rs ts₁ hrs h₁ => ?_
  let build : (List (Int × Int) × List Redir) × Int → Parse (Cmd × Int) := fun x =>
    pure (redirect (.exec x.1.1) x.1.2, x.2)
  show Sim m es _ (parseargs m es n [] rd s₁ >>= fun x => build (regroup x)) _
  rw [bind_regroup]
  refine (parseargs_sim n [] rd h₁).bind fun x s₂ as ts₂ hx h₂ => ?_
  obtain ⟨⟨argv, all⟩, ⟨spans, hspans, hwords⟩, ⟨more, hmore, hrest⟩⟩ := x, hx.argv, hx.redirs
  dsimp only at hspans hmore
  subst hspans hmore
  exact .ret (spans_redirect (.exec hwords) (List.rel_append hrs hrest)) h₂

theorem parseexec_sim {n : Nat} {inner : Rule} {read : List Tok → Parse (Exec × List Tok)}
    (hinner : ∀ s ts, At m es s (.opening :: ts) →
      Sim m es (fun cmd e => Spans m cmd (execTree e)) (inner s) (read ts)) :
    RuleSim m es execTree (parseexec m es n inner) (exec MAXARGS n read) := by
  intro s ts h
  rcases head_cases .opening ts with ⟨ts, rfl⟩ | hno
  · obtain ⟨s₁, hpeek, h₁⟩ := peek_hit_at h (c := '(') rfl
    rw [parseexec, hpeek, ok_bind]
    exact hinner _ _ h₁
  · obtain ⟨s₁, hpeek, h₁⟩ := peek_miss_at h (c := '(') rfl hno
    rw [parseexec, hpeek, ok_bind]
    dsimp only
    rw [if_neg Bool.false_ne_true]
    unfold exec
    split
    · exact absurd List.head?_cons hno
    · exact simple_sim h₁

theorem parsepipe_sim (n : Nat) {inner : Rule} {read : List Tok → Parse (Exec × List Tok)}
    (hinner : ∀ s ts, At m es s (.opening :: ts) →
      Sim m es (fun cmd e => Spans m cmd (execTree e)) (inner s) (read ts)) :
    RuleSim m es pipelineTree (parsepipe m es inner n) (pipe MAXARGS read n) := by
  induction n with
  | zero => exact fun _ _ _ => .error _
  | succ n ih =>
    intro s ts h
    refine (parseexec_sim hinner s ts h).bind fun cmd s₁ e ts₁ hcmd h₁ => ?_
    dsimp only
    rcases head_cases .bar ts₁ with ⟨ts₁, rfl⟩ | hno
    · obtain ⟨s₂, hpeek, h₂⟩ := peek_hit_at h₁ (c := '|') rfl
      obtain ⟨tok, htok, -, h₃, -⟩ := gettoken_at h₂
      rw [hpeek, ok_bind]
      dsimp only
      rw [if_pos rfl, htok, ok_bind]
      exact (ih _ _ h₃).bind fun right s₄ p ts₄ hright h₄ => .ret (.pipe hcmd hright) h₄
    · obtain ⟨s₂, hpeek, h₂⟩ := peek_miss_at h₁ (c := '|') rfl hno
      rw [hpeek, ok_bind]
      dsimp only
      rw [if_neg Bool.false_ne_true]
      split
      · exact absurd List.head?_cons hno
      · exact .ret hcmd h₂

theorem parseback_sim (n : Nat) {cmd : Cmd} {t : Tree} (hcmd : Spans m cmd t) (h : At m es s ts) :
    Sim m es (fun cmd k => Spans m cmd (background k t)) (parseback m es n cmd s) (amps n ts) := by
  induction n generalizing cmd t s ts with
  | zero => exact .error _
  | succ n ih =>
    rcases head_cases .amp ts with ⟨ts, rfl⟩ | hno
    · obtain ⟨s₁, hpeek, h₁⟩ := peek_hit_at h (c := '&') rfl
      obtain ⟨tok, htok, -, h₂, -⟩ := gettoken_at h₁
      rw [parseback]
      dsimp only
      rw [hpeek, ok_bind]
      dsimp only
      rw [if_pos rfl, htok, ok_bind]
      exact (ih (.back hcmd) h₂).returning fun cmd k hk => hk
    · obtain ⟨s₁, hpeek, h₁⟩ := peek_miss_at h (c := '&') rfl hno
      rw [parseback]
      dsimp only
      rw [hpeek, ok_bind]
      dsimp only
      rw [if_neg Bool.false_ne_true]
      unfold amps
      split
      · next heq => cases heq
      · exact absurd List.head?_cons hno
      · exact .ret hcmd h₁

theorem parseline_sim (n : Nat) : RuleSim m es lineTree (parseline m es n) (line MAXARGS n) := by
  induction n with
  | zero => exact fun _ _ _ => .error _
  | succ n ih =>
    intro s ts h
    refine (parsepipe_sim (n + 1) (fun _ _ => parseblock_sim ih) s ts h).bind fun cmd s₁ p ts₁ hcmd h₁ => ?_
    refine (parseback_sim (n + 1) hcmd h₁).bind fun cmd s₂ k ts₂ hcmd h₂ => ?_
    dsimp only
    rcases head_cases .semi ts₂ with ⟨ts₂, rfl⟩ | hno
    · obtain ⟨s₃, hpeek, h₃⟩ := peek_hit_at h₂ (c := ';') rfl
      obtain ⟨tok, htok, -, h₄, -⟩ := gettoken_at h₃
      rw [hpeek, ok_bind]
      dsimp only
      rw [if_pos rfl, htok, ok_bind]
      exact (ih _ _ h₄).bind fun right s₄ l ts₄ hright h₅ => .ret (.list hcmd hright) h₅
    · obtain ⟨s₃, hpeek, h₃⟩ := peek_miss_at h₂ (c := ';') rfl hno
      rw [hpeek, ok_bind]
      dsimp only
      rw [if_neg Bool.false_ne_true]
      split
      · exact absurd List.head?_cons hno
      · exact .ret hcmd h₃

end rules

end Xv6.Shell.ShRules
