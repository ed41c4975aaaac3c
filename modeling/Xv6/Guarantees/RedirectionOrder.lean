import Xv6.Guarantees.ShGrammar

/-!
# The order of redirections in sh

The parser wraps a command into its redirections from the first one on, and `runcmd` opens the
files from the outermost node inwards. The file that was named first is opened last, and stays.
-/
namespace Xv6.Guarantees.RedirectionOrder

open Xv6.Source Xv6.Source.Ulib Xv6.Source.Sh Xv6.Shell.Grammar Xv6.Shell.ShParser Xv6.Shell.ShTokens
  Xv6.Shell.ShRules Xv6.Guarantees.ShGrammar

/-! ## Simple commands and blocks in a line -/

mutual

def lineExecs : Line → List Exec
  | .last p _ => pipeExecs p
  | .seq p _ l => pipeExecs p ++ lineExecs l

def pipeExecs : Pipe → List Exec
  | .last e => execExecs e
  | .bar e p => execExecs e ++ pipeExecs p

/-- The command itself, and those in its parentheses. -/
def execExecs : Exec → List Exec
  | .block l rs => .block l rs :: lineExecs l
  | .simple rs args => [.simple rs args]

end

/-- The redirections of a command, in the order of the text. -/
def redirsOf : Exec → List Redirect
  | .block _ rs => rs
  | .simple rs args => rs ++ args.flatMap Arg.redirs

/-- The command that is redirected. -/
def innerTree : Exec → Tree
  | .block l _ => lineTree l
  | .simple _ args => .exec (args.map Arg.word)

theorem execTree_eq (e : Exec) : execTree e = wrap (innerTree e) (redirsOf e) := by
  cases e with
  | block l rs => rw [execTree, innerTree, redirsOf]
  | simple rs args => rw [execTree, innerTree, redirsOf]

/-- A node of the tree that `runcmd` can come to. -/
inductive Part (c : Cmd) : Cmd → Prop
  | here : Part c c
  | redir {a : Cmd} {r : Redir} : Part c a → Part c (.redir a r)
  | left {a b : Cmd} : Part c a → Part c (.pipe a b)
  | right {a b : Cmd} : Part c b → Part c (.pipe a b)
  | before {a b : Cmd} : Part c a → Part c (.list a b)
  | after {a b : Cmd} : Part c b → Part c (.list a b)
  | back {a : Cmd} : Part c a → Part c (.back a)

theorem Part.trans {a b c : Cmd} (h : Part a b) (h' : Part b c) : Part a c := by
  induction h' with
  | here => exact h
  | redir _ ih => exact .redir ih
  | left _ ih => exact .left ih
  | right _ ih => exact .right ih
  | before _ ih => exact .before ih
  | after _ ih => exact .after ih
  | back _ ih => exact .back ih

/-- The tree of pointers stands for the tree of words, with every word cut off. -/
structure Reads (m : Bytes) (cmd : Cmd) (t : Tree) : Prop where
  spans : Spans m cmd t
  ended : Ended m cmd

theorem Reads.redir {m w : Bytes} {cmd : Cmd} {t : Tree} {mode fd : Nat} (h : Reads m cmd (.redir t w mode fd)) :
    ∃ a r, cmd = .redir a r ∧ Reads m a t ∧ cstring m r.file = some w ∧ r.fd = fd := by
  obtain ⟨hspans, hended⟩ := h
  cases hspans with
  | redir ha hw => exact ⟨_, _, rfl, ⟨ha, hended.1⟩, hw.cstring hended.2, rfl⟩

/-! ## What runcmd does with the redirections of one command -/

/-- Standard input and output are open. -/
def Opened (files : Files) : Prop := ∃ input output rest, files = some input :: some output :: rest

/-- The descriptors that the files are opened as, from the last redirection to the first. -/
def applied (rs : List Redirect) (files : Files) : Files :=
  rs.foldr (fun r files => files.set (fd r.direction) (some (.file r.file))) files

/-- The redirections of one descriptor. -/
def onto (k : Nat) (rs : List Redirect) : List Redirect := rs.filter fun r => fd r.direction = k

section runs
variable {m : Bytes} {cmd : Cmd} {t : Tree} {files : Files}

theorem fd_cases (d : Direction) : fd d = 0 ∨ fd d = 1 := by
  cases d <;> decide

/-- The descriptor that has been closed is the lowest free one. -/
theorem openFile_closed (h : Opened files) (d : Direction) (name : Bytes) :
    openFile (files.set (fd d) none) name = some (files.set (fd d) (some (.file name))) := by
  obtain ⟨input, output, rest, rfl⟩ := h
  rcases fd_cases d with hd | hd <;> rw [hd] <;> rfl

theorem Opened.set (h : Opened files) (d : Direction) (name : Bytes) :
    Opened (files.set (fd d) (some (.file name))) := by
  obtain ⟨input, output, rest, rfl⟩ := h
  rcases fd_cases d with hd | hd <;> rw [hd] <;> exact ⟨_, _, _, rfl⟩

/-- The last redirection is the outermost node. -/
theorem Reads.runs {rs : List Redirect} (h : Reads m cmd (wrap t rs)) (hopen : Opened files) :
    ∃ a, Part a cmd ∧ Reads m a t ∧ runRedirs m rs.length files cmd = some (a, applied rs files) := by
  induction rs using List.reverseRecOn generalizing cmd files with
  | nil => exact ⟨cmd, .here, h, rfl⟩
  | append_singleton rs r ih =>
    have hwrap : wrap t (rs ++ [r]) = .redir (wrap t rs) r.file (mode r.direction) (fd r.direction) := by
      simp [wrap]
    rw [hwrap] at h
    obtain ⟨a, target, rfl, ha, hname, hfd⟩ := h.redir
    obtain ⟨b, hpart, hreads, hrun⟩ := ih ha (hopen.set r.direction r.file)
    refine ⟨b, .redir hpart, hreads, ?_⟩
    rw [List.length_append, List.length_singleton, runRedirs, hname, hfd]
    simp only [Option.bind_eq_bind, Option.bind_some, openFile_closed hopen r.direction r.file]
    rw [hrun]
    simp [applied]

/-- The redirection that was named first has the descriptor. -/
theorem applied_get (rs : List Redirect) {k : Nat} (hk : k < files.length) :
    (applied rs files)[k]? = (onto k rs).head?.elim files[k]? fun r => some (some (.file r.file)) := by
  have hlength : ∀ rs, (applied rs files).length = files.length := by
    intro rs
    induction rs with
    | nil => rfl
    | cons r rs ih => simpa [applied] using ih
  induction rs with
  | nil => rfl
  | cons r rs ih =>
    have hcons : applied (r :: rs) files = (applied rs files).set (fd r.direction) (some (.file r.file)) := rfl
    rw [hcons]
    by_cases hr : fd r.direction = k
    · simp [onto, hr, hlength, hk]
    · rw [List.getElem?_set_ne hr, ih]
      simp [onto, hr]

end runs

/-! ## Every command of a line -/

section lines
variable {m : Bytes}

theorem Reads.background {cmd : Cmd} {t : Tree} {k : Nat} (h : Reads m cmd (background k t)) :
    ∃ a, Part a cmd ∧ Reads m a t := by
  induction k generalizing t with
  | zero => exact ⟨cmd, .here, h⟩
  | succ k ih =>
    obtain ⟨a, hpart, hspans, hended⟩ := ih h
    cases hspans with
    | back ha => exact ⟨_, Part.trans (.back .here) hpart, ha, hended⟩

mutual

theorem line_parts : ∀ (l : Line) {cmd : Cmd}, Reads m cmd (lineTree l) → ∀ e ∈ lineExecs l,
    ∃ c, Part c cmd ∧ Reads m c (execTree e)
  | .last p amps, cmd, h, e, he => by
    obtain ⟨a, hpart, ha⟩ := Reads.background h
    obtain ⟨c, hc, hreads⟩ := pipe_parts p ha e he
    exact ⟨c, hc.trans hpart, hreads⟩
  | .seq p amps l, cmd, ⟨hspans, hended⟩, e, he => by
    rw [lineTree] at hspans
    cases hspans with
    | list ha hb =>
      rcases List.mem_append.mp he with he | he
      · obtain ⟨a, hpart, ha⟩ := Reads.background ⟨ha, hended.1⟩
        obtain ⟨c, hc, hreads⟩ := pipe_parts p ha e he
        exact ⟨c, .before (hc.trans hpart), hreads⟩
      · obtain ⟨c, hc, hreads⟩ := line_parts l ⟨hb, hended.2⟩ e he
        exact ⟨c, .after hc, hreads⟩

theorem pipe_parts : ∀ (p : Pipe) {cmd : Cmd}, Reads m cmd (pipelineTree p) → ∀ e ∈ pipeExecs p,
    ∃ c, Part c cmd ∧ Reads m c (execTree e)
  | .last e', cmd, h, e, he => exec_parts e' h e he
  | .bar e' p, cmd, ⟨hspans, hended⟩, e, he => by
    rw [pipelineTree] at hspans
    cases hspans with
    | pipe ha hb =>
      rcases List.mem_append.mp he with he | he
      · obtain ⟨c, hc, hreads⟩ := exec_parts e' ⟨ha, hended.1⟩ e he
        exact ⟨c, .left hc, hreads⟩
      · obtain ⟨c, hc, hreads⟩ := pipe_parts p ⟨hb, hended.2⟩ e he
        exact ⟨c, .right hc, hreads⟩

theorem exec_parts : ∀ (e' : Exec) {cmd : Cmd}, Reads m cmd (execTree e') → ∀ e ∈ execExecs e',
    ∃ c, Part c cmd ∧ Reads m c (execTree e)
  | .simple rs args, cmd, h, e, he => by
    cases List.mem_singleton.mp he
    exact ⟨cmd, .here, h⟩
  | .block l rs, cmd, h, e, he => by
    rcases List.mem_cons.mp he with rfl | he
    · exact ⟨cmd, .here, h⟩
    · have hopen : Opened [some (.old 0), some (.old 1)] := ⟨_, _, _, rfl⟩
      have hwrap : Reads m cmd (wrap (lineTree l) rs) := h
      obtain ⟨a, hpart, ha, -⟩ := hwrap.runs hopen
      obtain ⟨c, hc, hreads⟩ := line_parts l ha e he
      exact ⟨c, hc.trans hpart, hreads⟩

end

end lines

/-- Each descriptor is the file of the last redirection that names one for it, if there is one. -/
def LastWins (rs : List Redirect) (files files' : Files) : Prop :=
  ∀ k ∈ [0, 1], files'[k]? = (onto k rs).getLast?.elim files[k]? fun r => some (some (.file r.file))

theorem applied_lastWins_iff (rs : List Redirect) {files : Files} (h : Opened files) :
    LastWins rs files (applied rs files) ↔
      ∀ k ∈ [0, 1], (onto k rs).head?.map Redirect.file = (onto k rs).getLast?.map Redirect.file := by
  obtain ⟨input, output, rest, rfl⟩ := h
  apply forall₂_congr
  intro k hk
  have hlt : k < (some input :: some output :: rest).length := by
    simp only [List.mem_cons, List.not_mem_nil, or_false] at hk
    simp only [List.length_cons]
    omega
  rw [applied_get rs hlt]
  cases honto : onto k rs with
  | nil => simp
  | cons r more =>
    rw [List.getLast?_eq_some_getLast (List.cons_ne_nil r more)]
    simp

/-- Every simple command and block of a line is redirected as the text says, from left to right, if and
only if the first and the last redirection of each descriptor name the same file. -/
theorem redirections_last_wins_iff {m w m' : Bytes} {s : Int} {cmd : Cmd} {l : Line} {e : Exec} {files : Files}
    (hholds : Holds m s w) (hm : m.length < 2 ^ 32) (hparse : parsecmd m s = .ok (cmd, m'))
    (hl : l.yield = tokens w) (he : e ∈ lineExecs l) (hopen : Opened files) :
    ∃ c a files', Part c cmd ∧ strings m' c = some (execTree e) ∧
      runRedirs m' (redirsOf e).length files c = some (a, files') ∧ strings m' a = some (innerTree e) ∧
      (LastWins (redirsOf e) files files' ↔ ∀ k ∈ [0, 1],
        (onto k (redirsOf e)).head?.map Redirect.file = (onto k (redirsOf e)).getLast?.map Redirect.file) := by
  rcases parsecmd_of_line hholds hm with ⟨l', cmd', m'', hl', hparse', hspans, hcut, hended⟩ | ⟨⟨text, hpanic⟩, -⟩
  · rw [hparse'] at hparse
    cases hparse
    obtain rfl : l = l' := yield_injective (hl.trans hl'.1.symm)
    obtain ⟨c, hpart, hreads⟩ := line_parts l ⟨hspans.cut hcut, hended⟩ e he
    have hwrap := hreads
    rw [execTree_eq] at hwrap
    obtain ⟨a, -, ha, hrun⟩ := hwrap.runs hopen
    exact ⟨c, a, _, hpart, hreads.spans.strings_eq hreads.ended, hrun, ha.spans.strings_eq ha.ended,
      applied_lastWins_iff _ hopen⟩
  · rw [hpanic] at hparse
    exact nomatch hparse

/-- The line `a<x>y`, with one redirection for each descriptor. -/
def redirected : Bytes := literal ['a', '<', 'x', '>', 'y']

def redirectedExec : Exec := .simple [] [⟨literal ['a'], [⟨.input, literal ['x']⟩, ⟨.output, literal ['y']⟩]⟩]

theorem redirections_last_wins_one_each : ∃ m' c a files',
    runRedirs m' 2 [some (.old 0), some (.old 1), some (.old 2)] c = some (a, files') ∧
    strings m' a = some (.exec [literal ['a']]) ∧
    LastWins (redirsOf redirectedExec) [some (.old 0), some (.old 1), some (.old 2)] files' := by
  have hholds : Holds (redirected ++ [0]) 0 redirected := ⟨⟨[], [], rfl, rfl⟩, by decide⟩
  have hparse : ∃ cmd m', parsecmd (redirected ++ [0]) 0 = .ok (cmd, m') := ⟨_, _, rfl⟩
  obtain ⟨cmd, m', hparse⟩ := hparse
  obtain ⟨c, a, files', -, -, hrun, hinner, hiff⟩ := redirections_last_wins_iff hholds (by decide) hparse
    (show (Line.last (.last redirectedExec) 0).yield = tokens redirected from rfl) (List.mem_singleton.mpr rfl)
    (show Opened [some (.old 0), some (.old 1), some (.old 2)] from ⟨_, _, _, rfl⟩)
  exact ⟨m', c, a, files', hrun, hinner, hiff.mpr (by decide)⟩

/-- The files of a shell when it comes to the command of a line with so many redirections. -/
def filesOf (w : Bytes) (n : Nat) : Option Files :=
  match parsecmd (w ++ [0]) 0 with
  | .ok (cmd, m) => (runRedirs m n [some (.old 0), some (.old 1), some (.old 2)] cmd).map Prod.snd
  | .error _ => none

/-- The line `a>x>y`: standard output is `x`. -/
theorem first_of_two_outputs_wins : filesOf (literal ['a', '>', 'x', '>', 'y']) 2 =
    some [some (.old 0), some (.file (literal ['x'])), some (.old 2)] := by
  decide +kernel

end Xv6.Guarantees.RedirectionOrder
