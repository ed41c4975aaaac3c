import Xv6.Source.Sh

/-!
# The grammar of sh's lines

    line   := pipe '&'* [';' line]
    pipe   := exec ['|' pipe]
    exec   := '(' line ')' redirs | redirs (word redirs)*
    redirs := (('<' | '>' | '>>') word)*

A derivation is a tree, and `yield` is the sequence of tokens it derives. The parser on tokens
returns the derivation that it has found; it finds every derivation, so there is at most one.
-/
namespace Xv6.Shell.Grammar

open Xv6.Source.Ulib Xv6.Source.Sh

inductive Tok where
  | bar
  | opening
  | closing
  | semi
  | amp
  | less
  | greater
  | append
  | word (w : Bytes)
  deriving DecidableEq, Repr

inductive Direction where
  | input
  | output
  | append
  deriving DecidableEq, Repr

def Direction.tok : Direction → Tok
  | .input => .less
  | .output => .greater
  | .append => .append

def direction? : Tok → Option Direction
  | .less => some .input
  | .greater => some .output
  | .append => some .append
  | _ => none

def word? : Tok → Option Bytes
  | .word w => some w
  | _ => none

structure Redirect where
  direction : Direction
  file : Bytes
  deriving DecidableEq, Repr

/-- A word and the redirections behind it. -/
structure Arg where
  word : Bytes
  redirs : List Redirect
  deriving DecidableEq, Repr

mutual

inductive Line where
  | last (p : Pipe) (amps : Nat)
  | seq (p : Pipe) (amps : Nat) (l : Line)

inductive Pipe where
  | last (e : Exec)
  | bar (e : Exec) (p : Pipe)

inductive Exec where
  | block (l : Line) (redirs : List Redirect)
  | simple (redirs : List Redirect) (args : List Arg)

end

def Redirect.yield (r : Redirect) : List Tok := [r.direction.tok, .word r.file]

def Arg.yield (a : Arg) : List Tok := .word a.word :: a.redirs.flatMap Redirect.yield

mutual

def Line.yield : Line → List Tok
  | .last p amps => p.yield ++ List.replicate amps .amp
  | .seq p amps l => p.yield ++ (List.replicate amps .amp ++ .semi :: l.yield)

def Pipe.yield : Pipe → List Tok
  | .last e => e.yield
  | .bar e p => e.yield ++ .bar :: p.yield

def Exec.yield : Exec → List Tok
  | .block l redirs => .opening :: (l.yield ++ .closing :: redirs.flatMap Redirect.yield)
  | .simple redirs args => redirs.flatMap Redirect.yield ++ args.flatMap Arg.yield

end

mutual

/-- No command has `limit` words or more. -/
def Line.Fits (limit : Nat) : Line → Prop
  | .last p _ => p.Fits limit
  | .seq p _ l => p.Fits limit ∧ l.Fits limit

def Pipe.Fits (limit : Nat) : Pipe → Prop
  | .last e => e.Fits limit
  | .bar e p => e.Fits limit ∧ p.Fits limit

def Exec.Fits (limit : Nat) : Exec → Prop
  | .block l _ => l.Fits limit
  | .simple _ args => args.length < limit

end

/-! ## The parser on tokens -/

/-- The redirections, and the tokens behind them. -/
def redirs : Nat → List Tok → Parse (List Redirect × List Tok)
  | 0, _ => .error .depth
  | _ + 1, [] => .ok ([], [])
  | n + 1, t :: ts =>
    match direction? t with
    | none => .ok ([], t :: ts)
    | some d =>
      match ts with
      | .word f :: ts => do
        let (more, ts) ← redirs n ts
        return (⟨d, f⟩ :: more, ts)
      | _ => .error (.panic "missing file for redirection")

/-- The tokens behind a command. -/
def stops : List Tok := [.bar, .closing, .amp, .semi]

def args (limit : Nat) : Nat → Nat → List Tok → Parse (List Arg × List Tok)
  | 0, _, _ => .error .depth
  | _ + 1, _, [] => .ok ([], [])
  | n + 1, count, t :: ts =>
    match word? t with
    | none => if t ∈ stops then .ok ([], t :: ts) else .error (.panic "syntax")
    | some w =>
      if limit ≤ count + 1 then .error (.panic "too many args")
      else do
        let (rs, ts) ← redirs n ts
        let (more, ts) ← args limit n (count + 1) ts
        return (⟨w, rs⟩ :: more, ts)

/-- A block behind its `(`, whose inside `line` reads. -/
def block (n : Nat) (line : List Tok → Parse (Line × List Tok)) (ts : List Tok) : Parse (Exec × List Tok) := do
  let (l, ts) ← line ts
  match ts with
  | .closing :: ts => do
    let (rs, ts) ← redirs n ts
    return (.block l rs, ts)
  | _ => .error (.panic "syntax - missing )")

def simple (limit n : Nat) (ts : List Tok) : Parse (Exec × List Tok) := do
  let (rs, ts) ← redirs n ts
  let (more, ts) ← args limit n 0 ts
  return (.simple rs more, ts)

def exec (limit n : Nat) (block : List Tok → Parse (Exec × List Tok)) : List Tok → Parse (Exec × List Tok)
  | .opening :: ts => block ts
  | ts => simple limit n ts

def pipe (limit : Nat) (block : List Tok → Parse (Exec × List Tok)) : Nat → List Tok → Parse (Pipe × List Tok)
  | 0, _ => .error .depth
  | n + 1, ts => do
    let (e, ts) ← exec limit (n + 1) block ts
    match ts with
    | .bar :: ts => do
      let (p, ts) ← pipe limit block n ts
      return (.bar e p, ts)
    | ts => return (.last e, ts)

def amps : Nat → List Tok → Parse (Nat × List Tok)
  | 0, _ => .error .depth
  | n + 1, .amp :: ts => do
    let (k, ts) ← amps n ts
    return (k + 1, ts)
  | _ + 1, ts => .ok (0, ts)

def line (limit : Nat) : Nat → List Tok → Parse (Line × List Tok)
  | 0, _ => .error .depth
  | n + 1, ts => do
    let (p, ts) ← pipe limit (block (n + 1) (line limit n)) (n + 1) ts
    let (k, ts) ← amps (n + 1) ts
    match ts with
    | .semi :: ts => do
      let (l, ts) ← line limit n ts
      return (.seq p k l, ts)
    | ts => return (.last p k, ts)

/-! ## It reads derivations only -/

theorem bind_ok {α β : Type} {x : Parse α} {f : α → Parse β} {b : β} (h : x >>= f = .ok b) :
    ∃ a, x = .ok a ∧ f a = .ok b := by
  cases x with
  | error e => exact nomatch h
  | ok a => exact ⟨a, rfl, h⟩

theorem direction_tok {t : Tok} {d : Direction} (h : direction? t = some d) : t = d.tok := by
  cases t <;> cases h <;> rfl

theorem redirs_sound {n : Nat} {ts rest : List Tok} {rs : List Redirect} (h : redirs n ts = .ok (rs, rest)) :
    ts = rs.flatMap Redirect.yield ++ rest := by
  induction n generalizing ts rs with
  | zero => exact nomatch h
  | succ n ih =>
    cases ts with
    | nil =>
      cases h
      rfl
    | cons t ts =>
      rw [redirs] at h
      split at h
      · cases h
        rfl
      · next d hd =>
        split at h
        · next f ts =>
          obtain ⟨⟨more, ts'⟩, hmore, hret⟩ := bind_ok h
          cases hret
          rw [direction_tok hd, ih hmore]
          rfl
        · exact nomatch h

theorem word_eq {t : Tok} {w : Bytes} (h : word? t = some w) : t = .word w := by
  cases t <;> cases h
  rfl

theorem args_sound {limit n count : Nat} {ts rest : List Tok} {as : List Arg}
    (h : args limit n count ts = .ok (as, rest)) :
    ts = as.flatMap Arg.yield ++ rest ∧ (as ≠ [] → count + as.length < limit) := by
  induction n generalizing ts as count with
  | zero => exact nomatch h
  | succ n ih =>
    cases ts with
    | nil =>
      cases h
      exact ⟨rfl, fun hne => absurd rfl hne⟩
    | cons t ts =>
      rw [args] at h
      split at h
      · split at h
        · cases h
          exact ⟨rfl, fun hne => absurd rfl hne⟩
        · exact nomatch h
      · next w hw =>
        split at h
        · exact nomatch h
        · next hroom =>
          obtain ⟨⟨rs, ts₁⟩, hredirs, h⟩ := bind_ok h
          obtain ⟨⟨more, ts₂⟩, hmore, h⟩ := bind_ok h
          cases h
          obtain ⟨hts, hlt⟩ := ih hmore
          refine ⟨?_, fun _ => ?_⟩
          · rw [word_eq hw, redirs_sound hredirs, hts, List.flatMap_cons, Arg.yield]
            simp only [List.cons_append, List.append_assoc]
          · by_cases hnil : more = []
            · rw [hnil, List.length_singleton]
              omega
            · have := hlt hnil
              rw [List.length_cons]
              omega

section sound

variable {limit n : Nat} {ts rest : List Tok}

theorem block_sound {inner : List Tok → Parse (Line × List Tok)}
    (hinner : ∀ ts l rest, inner ts = .ok (l, rest) → ts = l.yield ++ rest ∧ l.Fits limit) {e : Exec}
    (h : block n inner ts = .ok (e, rest)) : .opening :: ts = e.yield ++ rest ∧ e.Fits limit := by
  obtain ⟨⟨l, ts₁⟩, hl, h⟩ := bind_ok h
  obtain ⟨hts, hfits⟩ := hinner _ _ _ hl
  dsimp only at h
  split at h
  · next ts₂ =>
    obtain ⟨⟨rs, ts₃⟩, hrs, h⟩ := bind_ok h
    cases h
    rw [hts, redirs_sound hrs, Exec.yield]
    exact ⟨by simp only [List.cons_append, List.append_assoc], hfits⟩
  · exact nomatch h

theorem simple_sound (hlimit : 0 < limit) {e : Exec} (h : simple limit n ts = .ok (e, rest)) :
    ts = e.yield ++ rest ∧ e.Fits limit := by
  obtain ⟨⟨rs, ts₁⟩, hrs, h⟩ := bind_ok h
  obtain ⟨⟨as, ts₂⟩, has, h⟩ := bind_ok h
  cases h
  obtain ⟨hts, hlt⟩ := args_sound has
  rw [redirs_sound hrs, hts, Exec.yield, List.append_assoc]
  refine ⟨rfl, ?_⟩
  show as.length < limit
  by_cases hnil : as = []
  · rwa [hnil]
  · have := hlt hnil
    omega

theorem exec_sound (hlimit : 0 < limit) {inner : List Tok → Parse (Exec × List Tok)}
    (hinner : ∀ ts e rest, inner ts = .ok (e, rest) → .opening :: ts = e.yield ++ rest ∧ e.Fits limit) {e : Exec}
    (h : exec limit n inner ts = .ok (e, rest)) : ts = e.yield ++ rest ∧ e.Fits limit := by
  unfold exec at h
  split at h
  · exact hinner _ _ _ h
  · exact simple_sound hlimit h

theorem pipe_sound (hlimit : 0 < limit) {inner : List Tok → Parse (Exec × List Tok)}
    (hinner : ∀ ts e rest, inner ts = .ok (e, rest) → .opening :: ts = e.yield ++ rest ∧ e.Fits limit) {p : Pipe}
    (h : pipe limit inner n ts = .ok (p, rest)) : ts = p.yield ++ rest ∧ p.Fits limit := by
  induction n generalizing ts p with
  | zero => exact nomatch h
  | succ n ih =>
    obtain ⟨⟨e, ts₁⟩, he, h⟩ := bind_ok h
    obtain ⟨hts, hfits⟩ := exec_sound hlimit hinner he
    dsimp only at h
    split at h
    · next ts₂ =>
      obtain ⟨⟨p', ts₃⟩, hp, h⟩ := bind_ok h
      cases h
      obtain ⟨hts', hfits'⟩ := ih hp
      rw [hts, hts', Pipe.yield]
      exact ⟨by simp only [List.cons_append, List.append_assoc], hfits, hfits'⟩
    · cases h
      exact ⟨hts, hfits⟩

theorem amps_sound {k : Nat} (h : amps n ts = .ok (k, rest)) : ts = List.replicate k .amp ++ rest := by
  induction n generalizing ts k with
  | zero => exact nomatch h
  | succ n ih =>
    unfold amps at h
    split at h
    · exact nomatch h
    · obtain ⟨⟨j, ts₁⟩, hj, h⟩ := bind_ok h
      cases h
      rename_i heq
      cases heq
      rw [ih hj]
      rfl
    · cases h
      rfl

theorem line_sound (hlimit : 0 < limit) {l : Line} (h : line limit n ts = .ok (l, rest)) :
    ts = l.yield ++ rest ∧ l.Fits limit := by
  induction n generalizing ts l rest with
  | zero => exact nomatch h
  | succ n ih =>
    obtain ⟨⟨p, ts₁⟩, hp, h⟩ := bind_ok h
    obtain ⟨⟨k, ts₂⟩, hk, h⟩ := bind_ok h
    obtain ⟨hts, hfits⟩ := pipe_sound hlimit (fun _ _ _ => block_sound fun _ _ _ => ih) hp
    rw [amps_sound hk] at hts
    dsimp only at h
    split at h
    · next ts₃ =>
      obtain ⟨⟨l', ts₄⟩, hl, h⟩ := bind_ok h
      cases h
      obtain ⟨hts', hfits'⟩ := ih hl
      rw [hts, hts', Line.yield]
      exact ⟨by simp only [List.cons_append, List.append_assoc], hfits, hfits'⟩
    · cases h
      rw [hts, Line.yield, List.append_assoc]
      exact ⟨rfl, hfits⟩

end sound

/-! ## It comes to an end -/

section total

variable {limit n : Nat} {ts : List Tok}

/-- It returns, or it panics. -/
def Ends {α : Type} (x : Parse α) : Prop := ∀ e, x = .error e → ∃ text, e = .panic text

theorem Ends.ok {α : Type} (a : α) : Ends (.ok a : Parse α) := nofun

theorem Ends.panic {α : Type} (text : String) : Ends (.error (.panic text) : Parse α) := by
  rintro e ⟨⟩
  exact ⟨text, rfl⟩

theorem Ends.bind {α β : Type} {x : Parse α} {f : α → Parse β} (hx : Ends x)
    (hf : ∀ a, x = .ok a → Ends (f a)) : Ends (x >>= f) := by
  cases x with
  | error e => exact fun e' heq => hx e' (congrArg Except.error (Except.error.inj heq))
  | ok a => exact hf a rfl

theorem redirs_total (hn : ts.length < n) : Ends (redirs n ts) := by
  induction n generalizing ts with
  | zero => omega
  | succ n ih =>
    unfold redirs
    split
    · next heq => exact nomatch heq
    · exact .ok _
    · next heq =>
      cases heq
      split
      · exact .ok _
      · split
        · rw [List.length_cons, List.length_cons] at hn
          exact Ends.bind (ih (by omega)) fun _ _ => .ok _
        · exact .panic _

theorem args_total {count : Nat} (hn : ts.length < n) : Ends (args limit n count ts) := by
  induction n generalizing ts count with
  | zero => omega
  | succ n ih =>
    cases ts with
    | nil => exact .ok _
    | cons t ts =>
      rw [List.length_cons] at hn
      rw [args]
      split
      · split
        · exact .ok _
        · exact .panic _
      · split
        · exact .panic _
        · refine Ends.bind (redirs_total (by omega)) fun ⟨rs, ts₁⟩ hrs => ?_
          have hlen := congrArg List.length (redirs_sound hrs)
          rw [List.length_append] at hlen
          exact Ends.bind (ih (by omega)) fun _ _ => .ok _

theorem amps_total (hn : ts.length < n) : Ends (amps n ts) := by
  induction n generalizing ts with
  | zero => omega
  | succ n ih =>
    unfold amps
    split
    · next heq => exact nomatch heq
    · next heq =>
      cases heq
      rw [List.length_cons] at hn
      exact Ends.bind (ih (by omega)) fun _ _ => .ok _
    · exact .ok _

theorem block_total {inner : List Tok → Parse (Line × List Tok)} (hinner : Ends (inner ts))
    (hsound : ∀ l rest, inner ts = .ok (l, rest) → ts = l.yield ++ rest) (hn : ts.length < n) :
    Ends (block n inner ts) := by
  refine Ends.bind hinner fun ⟨l, ts₁⟩ hl => ?_
  have hlen := congrArg List.length (hsound _ _ hl)
  rw [List.length_append] at hlen
  dsimp only
  split
  · rw [List.length_cons] at hlen
    exact Ends.bind (redirs_total (by omega)) fun _ _ => .ok _
  · exact .panic _

theorem simple_total (hn : ts.length < n) : Ends (simple limit n ts) := by
  refine Ends.bind (redirs_total hn) fun ⟨rs, ts₁⟩ hrs => ?_
  have hlen := congrArg List.length (redirs_sound hrs)
  rw [List.length_append] at hlen
  exact Ends.bind (args_total (by omega)) fun _ _ => .ok _

theorem pipe_total (hlimit : 0 < limit) {inner : List Tok → Parse (Exec × List Tok)} {m : Nat}
    (hinner : ∀ ts, ts.length < m → Ends (inner ts))
    (hsound : ∀ ts e rest, inner ts = .ok (e, rest) → .opening :: ts = e.yield ++ rest ∧ e.Fits limit)
    (hn : ts.length < n) (hm : ts.length ≤ m) : Ends (pipe limit inner n ts) := by
  induction n generalizing ts with
  | zero => omega
  | succ n ih =>
    have hexec : Ends (exec limit (n + 1) inner ts) := by
      unfold exec
      split
      · exact hinner _ (by rw [List.length_cons] at hm; omega)
      · exact simple_total hn
    refine Ends.bind hexec fun ⟨e, ts₁⟩ he => ?_
    have hlen := congrArg List.length (exec_sound hlimit hsound he).1
    rw [List.length_append] at hlen
    dsimp only
    split
    · rw [List.length_cons] at hlen
      exact Ends.bind (ih (by omega) (by omega)) fun _ _ => .ok _
    · exact .ok _

theorem line_total (hlimit : 0 < limit) (hn : ts.length < n) : Ends (line limit n ts) := by
  induction n generalizing ts with
  | zero => omega
  | succ n ih =>
    have hline : ∀ (ts rest : List Tok) l, line limit n ts = .ok (l, rest) → ts = l.yield ++ rest ∧ l.Fits limit :=
      fun _ _ _ => line_sound hlimit
    have hblock : ∀ ts : List Tok, ts.length < n → Ends (block (n + 1) (line limit n) ts) := fun ts hts =>
      block_total (ih hts) (fun l rest hl => (hline _ _ _ hl).1) (by omega)
    refine Ends.bind (pipe_total hlimit hblock (fun _ _ _ => block_sound fun _ _ _ => hline _ _ _) hn
      (Nat.le_of_lt_succ hn)) fun ⟨p, ts₁⟩ hp => ?_
    have hlen := congrArg List.length (pipe_sound hlimit (fun _ _ _ => block_sound fun _ _ _ => hline _ _ _) hp).1
    rw [List.length_append] at hlen
    refine Ends.bind (amps_total (by omega)) fun ⟨k, ts₂⟩ hk => ?_
    have hlen' := congrArg List.length (amps_sound hk)
    rw [List.length_append] at hlen'
    dsimp only
    split
    · rw [List.length_cons] at hlen'
      exact Ends.bind (ih (by omega)) fun _ _ => .ok _
    · exact .ok _

end total

/-! ## It reads every derivation -/

/-- What can stand behind a part of a line. -/
def Follows (toks rest : List Tok) : Prop := ∀ t ∈ rest.head?, t ∈ toks

theorem Follows.mono {toks toks' rest : List Tok} (h : Follows toks rest) (hsub : toks ⊆ toks') :
    Follows toks' rest := fun t ht => hsub (h t ht)

theorem follows_cons {toks rest : List Tok} {t : Tok} (h : t ∈ toks) : Follows toks (t :: rest) := by
  rintro u ⟨⟩
  exact h

theorem redirs_complete {n : Nat} (rs : List Redirect) {rest : List Tok} (hrest : ∀ t ∈ rest.head?, direction? t = none)
    (hn : (rs.flatMap Redirect.yield ++ rest).length < n) :
    redirs n (rs.flatMap Redirect.yield ++ rest) = .ok (rs, rest) := by
  induction rs generalizing n with
  | nil =>
    obtain ⟨n, rfl⟩ : ∃ k, n = k + 1 := ⟨n - 1, by omega⟩
    cases rest with
    | nil => rfl
    | cons t rest =>
      rw [List.flatMap_nil, List.nil_append, redirs, hrest t rfl]
  | cons r rs ih =>
    have hyield : (r :: rs).flatMap Redirect.yield ++ rest =
        r.direction.tok :: .word r.file :: (rs.flatMap Redirect.yield ++ rest) := rfl
    have hdir : direction? r.direction.tok = some r.direction := by cases r.direction <;> rfl
    rw [hyield] at hn ⊢
    simp only [List.length_cons] at hn
    obtain ⟨n, rfl⟩ : ∃ k, n = k + 1 := ⟨n - 1, by omega⟩
    rw [redirs, hdir]
    dsimp only
    rw [ih (by omega)]
    rfl

theorem stops_cases {t : Tok} (h : t ∈ stops) : direction? t = none ∧ word? t = none ∧ t ≠ .opening := by
  have hcases : t = .bar ∨ t = .closing ∨ t = .amp ∨ t = .semi := by simpa [stops] using h
  rcases hcases with rfl | rfl | rfl | rfl <;> exact ⟨rfl, rfl, nofun⟩

/-- What stands behind redirections, inside a command or at its end. -/
theorem args_head (as : List Arg) {rest : List Tok} (hrest : Follows stops rest) :
    ∀ t ∈ (as.flatMap Arg.yield ++ rest).head?, direction? t = none ∧ t ≠ .opening := by
  cases as with
  | nil => exact fun t ht => ⟨(stops_cases (hrest t ht)).1, (stops_cases (hrest t ht)).2.2⟩
  | cons b as =>
    intro t ht
    obtain rfl : Tok.word b.word = t := Option.some.inj ht
    exact ⟨rfl, nofun⟩

theorem args_complete {limit n count : Nat} (as : List Arg) {rest : List Tok} (hrest : Follows stops rest)
    (hlimit : as ≠ [] → count + as.length < limit) (hn : (as.flatMap Arg.yield ++ rest).length < n) :
    args limit n count (as.flatMap Arg.yield ++ rest) = .ok (as, rest) := by
  induction as generalizing n count with
  | nil =>
    obtain ⟨n, rfl⟩ : ∃ k, n = k + 1 := ⟨n - 1, by omega⟩
    cases rest with
    | nil => rfl
    | cons t rest =>
      have hstop := hrest t rfl
      rw [List.flatMap_nil, List.nil_append, args, (stops_cases hstop).2.1]
      exact if_pos hstop
  | cons a as ih =>
    have hyield : (a :: as).flatMap Arg.yield ++ rest =
        .word a.word :: (a.redirs.flatMap Redirect.yield ++ (as.flatMap Arg.yield ++ rest)) := by
      rw [List.flatMap_cons, Arg.yield, List.cons_append, List.cons_append, List.append_assoc]
    have hlt := hlimit (List.cons_ne_nil a as)
    rw [hyield] at hn ⊢
    rw [List.length_cons] at hn hlt
    obtain ⟨n, rfl⟩ : ∃ k, n = k + 1 := ⟨n - 1, by omega⟩
    have hredirs := redirs_complete (n := n) a.redirs (fun t ht => (args_head as hrest t ht).1) (by omega)
    rw [List.length_append] at hn
    have hrest' : args limit n (count + 1) (as.flatMap Arg.yield ++ rest) = .ok (as, rest) :=
      ih (fun _ => by omega) (by omega)
    rw [args]
    simp only [word?, if_neg (show ¬ limit ≤ count + 1 by omega), hredirs, hrest', bind, Except.bind, pure, Except.pure]

theorem amps_complete {n : Nat} (k : Nat) {rest : List Tok} (hrest : .amp ∉ rest.head?)
    (hn : (List.replicate k Tok.amp ++ rest).length < n) : amps n (List.replicate k .amp ++ rest) = .ok (k, rest) := by
  induction k generalizing n with
  | zero =>
    obtain ⟨n, rfl⟩ : ∃ k, n = k + 1 := ⟨n - 1, by omega⟩
    unfold amps
    split
    · next heq => exact nomatch heq
    · next heq =>
      rw [List.replicate_zero, List.nil_append] at heq
      exact absurd (by rw [heq]; rfl) hrest
    · rfl
  | succ k ih =>
    obtain ⟨n, rfl⟩ : ∃ k, n = k + 1 := ⟨n - 1, by omega⟩
    rw [List.replicate_succ, List.cons_append] at hn ⊢
    rw [amps, ih (Nat.lt_of_succ_lt_succ hn)]
    rfl

/-- With no `|` behind it, a command is the last one of its pipeline. -/
theorem pipe_last {limit n : Nat} {inner : List Tok → Parse (Exec × List Tok)} {ts rest : List Tok} {e : Exec}
    (h : exec limit (n + 1) inner ts = .ok (e, rest)) (hrest : Follows [.closing, .amp, .semi] rest) :
    pipe limit inner (n + 1) ts = .ok (.last e, rest) := by
  rw [pipe, h]
  show (match rest with | .bar :: ts => _ | ts => _) = _
  split
  · exact absurd (hrest .bar rfl) (by simp)
  · rfl

theorem simple_complete {limit n : Nat} {inner : List Tok → Parse (Exec × List Tok)} {rs : List Redirect}
    {as : List Arg} {rest : List Tok} (hrest : Follows stops rest) (hlimit : as.length < limit)
    (hn : ((Exec.simple rs as).yield ++ rest).length < n) :
    exec limit n inner ((Exec.simple rs as).yield ++ rest) = .ok (.simple rs as, rest) := by
  rw [Exec.yield, List.append_assoc] at hn ⊢
  have hredirs := redirs_complete (n := n) rs (fun t ht => (args_head as hrest t ht).1) hn
  rw [List.length_append] at hn
  have hargs : args limit n 0 (as.flatMap Arg.yield ++ rest) = .ok (as, rest) :=
    args_complete as hrest (fun _ => by rwa [Nat.zero_add]) (by omega)
  have hsimple : simple limit n (rs.flatMap Redirect.yield ++ (as.flatMap Arg.yield ++ rest)) =
      .ok (.simple rs as, rest) := by
    rw [simple, hredirs]
    simp only [bind, Except.bind, hargs]
    rfl
  unfold exec
  split
  · next ts hopen =>
    cases rs with
    | nil => exact absurd rfl (args_head as hrest .opening (congrArg List.head? hopen)).2
    | cons r rs => exact absurd (List.cons.inj hopen).1 (by cases r.direction <;> nofun)
  · exact hsimple

-- the induction is on the derivation; `n` bounds the loops, and `k` the depth of blocks
mutual

theorem Line.complete {limit n : Nat} (l : Line) (hfits : l.Fits limit) {rest : List Tok}
    (hrest : Follows [.closing] rest) (hn : (l.yield ++ rest).length < n) :
    line limit n (l.yield ++ rest) = .ok (l, rest) := by
  obtain ⟨n, rfl⟩ : ∃ k, n = k + 1 := ⟨n - 1, by omega⟩
  cases l with
  | last p k =>
    have hfollow : Follows [.closing, .amp, .semi] (List.replicate k .amp ++ rest) := by
      cases k with
      | zero => exact hrest.mono (by simp)
      | succ k => exact follows_cons (by simp)
    rw [Line.yield, List.append_assoc] at hn ⊢
    have hpipe := Pipe.complete p hfits hfollow hn (Nat.le_of_lt_succ hn)
    rw [List.length_append] at hn
    have hamps : amps (n + 1) (List.replicate k .amp ++ rest) = .ok (k, rest) :=
      amps_complete k (fun ht => absurd (hrest _ ht) (by simp)) (by omega)
    rw [line, hpipe]
    simp only [bind, Except.bind, hamps]
    split
    · exact absurd (hrest .semi rfl) (by simp)
    · rfl
  | seq p k l =>
    have hfollow : Follows [.closing, .amp, .semi] (List.replicate k .amp ++ .semi :: (l.yield ++ rest)) := by
      cases k with
      | zero => exact follows_cons (by simp)
      | succ k => exact follows_cons (by simp)
    rw [Line.yield, List.append_assoc, List.append_assoc, List.cons_append] at hn ⊢
    have hpipe := Pipe.complete p hfits.1 hfollow hn (Nat.le_of_lt_succ hn)
    rw [List.length_append] at hn
    have hamps : amps (n + 1) (List.replicate k .amp ++ .semi :: (l.yield ++ rest)) =
        .ok (k, .semi :: (l.yield ++ rest)) := amps_complete k (fun ht => nomatch ht) (by omega)
    rw [List.length_append, List.length_cons] at hn
    have hline := Line.complete (n := n) l hfits.2 hrest (by omega)
    rw [line, hpipe]
    simp only [bind, Except.bind, hamps, hline]
    rfl

theorem Pipe.complete {limit n k : Nat} (p : Pipe) (hfits : p.Fits limit) {rest : List Tok}
    (hrest : Follows [.closing, .amp, .semi] rest) (hn : (p.yield ++ rest).length < n)
    (hk : (p.yield ++ rest).length ≤ k) :
    pipe limit (block (k + 1) (line limit k)) n (p.yield ++ rest) = .ok (p, rest) := by
  obtain ⟨n, rfl⟩ : ∃ k, n = k + 1 := ⟨n - 1, by omega⟩
  cases p with
  | last e => exact pipe_last (Exec.complete e hfits (hrest.mono (by simp [stops])) hn hk) hrest
  | bar e p =>
    rw [Pipe.yield, List.append_assoc, List.cons_append] at hn hk ⊢
    have hexec := Exec.complete e hfits.1 (follows_cons (by simp [stops])) hn hk
    rw [List.length_append, List.length_cons] at hn hk
    have hpipe := Pipe.complete (n := n) (k := k) p hfits.2 hrest (by omega) (by omega)
    rw [pipe, hexec]
    simp only [bind, Except.bind, hpipe]
    rfl

theorem Exec.complete {limit n k : Nat} (e : Exec) (hfits : e.Fits limit) {rest : List Tok}
    (hrest : Follows stops rest) (hn : (e.yield ++ rest).length < n) (hk : (e.yield ++ rest).length ≤ k) :
    exec limit n (block (k + 1) (line limit k)) (e.yield ++ rest) = .ok (e, rest) := by
  cases e with
  | block l rs =>
    rw [Exec.yield, List.cons_append, List.append_assoc, List.cons_append] at hk ⊢
    rw [List.length_cons] at hk
    have hline : line limit k (l.yield ++ .closing :: (rs.flatMap Redirect.yield ++ rest)) =
        .ok (l, .closing :: (rs.flatMap Redirect.yield ++ rest)) :=
      Line.complete l hfits (follows_cons (by simp)) (by omega)
    rw [List.length_append, List.length_cons] at hk
    have hredirs := redirs_complete (n := k + 1) rs (fun t ht => (stops_cases (hrest t ht)).1) (by omega)
    show block (k + 1) (line limit k) _ = _
    rw [block, hline]
    simp only [bind, Except.bind, hredirs]
    rfl
  | simple rs as => exact simple_complete hrest hfits hn

end

/-! ## There is at most one derivation -/

mutual

theorem Line.fits_length {limit : Nat} (l : Line) (h : l.yield.length < limit) : l.Fits limit := by
  cases l with
  | last p k =>
    rw [Line.yield, List.length_append] at h
    exact Pipe.fits_length p (by omega)
  | seq p k l =>
    simp only [Line.yield, List.length_append, List.length_cons] at h
    exact ⟨Pipe.fits_length p (by omega), Line.fits_length l (by omega)⟩

theorem Pipe.fits_length {limit : Nat} (p : Pipe) (h : p.yield.length < limit) : p.Fits limit := by
  cases p with
  | last e => exact Exec.fits_length e h
  | bar e p =>
    rw [Pipe.yield, List.length_append, List.length_cons] at h
    exact ⟨Exec.fits_length e (by omega), Pipe.fits_length p (by omega)⟩

theorem Exec.fits_length {limit : Nat} (e : Exec) (h : e.yield.length < limit) : e.Fits limit := by
  cases e with
  | block l rs =>
    simp only [Exec.yield, List.length_cons, List.length_append] at h
    exact Line.fits_length l (by omega)
  | simple rs as =>
    rw [Exec.yield, List.length_append] at h
    have hle : as.length ≤ (as.flatMap Arg.yield).length := by
      clear h
      induction as with
      | nil => exact Nat.le_refl 0
      | cons a as ih =>
        rw [List.flatMap_cons, List.length_append, Arg.yield, List.length_cons, List.length_cons]
        omega
    show as.length < limit
    omega

end

theorem yield_injective {l l' : Line} (h : l.yield = l'.yield) : l = l' := by
  have hfollow : Follows [.closing] [] := fun t ht => nomatch ht
  have hfits : l.Fits (l.yield.length + 1) := l.fits_length (Nat.lt_succ_self _)
  have hfits' : l'.Fits (l.yield.length + 1) := l'.fits_length (by rw [h]; exact Nat.lt_succ_self _)
  have hread := l.complete hfits hfollow (Nat.lt_succ_self _)
  have hread' := l'.complete hfits' hfollow (Nat.lt_succ_self _)
  rw [← h, hread] at hread'
  exact (Prod.mk.inj (Except.ok.inj hread')).1

end Xv6.Shell.Grammar
