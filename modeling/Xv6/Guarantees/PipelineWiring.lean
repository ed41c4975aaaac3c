import Xv6.Shell.Input
import Xv6.Shell.Schedule

/-!
# The descriptors of a pipeline

A line `c₀|c₁|...` is run by a chain of processes, each of which makes the pipe behind
one command, forks the process of that command and goes on with the rest of the line.
In all interleavings the programs find the ends of their own two pipes at descriptors
0 and 1, and no other process keeps a write end.
-/
namespace Xv6.Guarantees.PipelineWiring

open Xv6.Library.Pieces
open Xv6.Source.Ulib Xv6.Source.Proc Xv6.Source.Ysh
open Xv6.Shell

/-- A command of a pipeline: a piece without operators that is neither empty nor `exit`
and does not begin with `cd`. -/
structure Simple (c : Bytes) : Prop where
  operators : semicolon ∉ c ∧ ampersand ∉ c ∧ bar ∉ c
  present : strip space c ≠ []
  exit : strip space c ≠ exitWord
  cd : ¬ cdWord <+: c.dropWhile (· == space)

/-- The words of a command. -/
def words (c : Bytes) : List Bytes := (strip space c).splitOn space

/-- The tree of a pipeline. -/
def pipeline : List Bytes → Command
  | [] => .nop
  | [c] => .exec (words c)
  | c :: cs => .pipe (.exec (words c)) (pipeline cs)

/-- The pipe between the commands `k` and `k + 1`. -/
def pipeAt (k : Nat) : Addr := List.replicate k .right

/-- The place of command `k` of `n`. -/
def place (n k : Nat) : Addr := if k + 1 = n then pipeAt k else pipeAt k ++ [.left]

/-- Descriptors 0, 1 and 2, and no other. -/
def descriptors (f0 f1 : File Addr) : Files Addr :=
  [some f0, some f1, some (.console 2)] ++ List.replicate (NOFILE - 3) none

/-- What command `k` is to read from. -/
def source (k : Nat) : File Addr := if k = 0 then .console 0 else .readEnd (pipeAt (k - 1))

/-- What command `k` of `n` is to write to. -/
def sink (n k : Nat) : File Addr := if k + 1 = n then .console 1 else .writeEnd (pipeAt k)

/-- A process about to execute a program at a place, or executing it. -/
def Executes (P : Process Addr) (tag : Addr) : Prop :=
  (∃ argv n, P.status = .run (.exec tag argv n)) ∨ P.status = .program (some tag)

/-- No call of `close` is left in a program and in the processes it will fork. -/
def NoClose : Prog Addr → Prop
  | .close _ _ => False
  | .fork _ c n => NoClose c ∧ NoClose n
  | .pipe _ n => ∀ r w, NoClose (n r w)
  | .wait n | .exec _ _ n | .chdir _ n | .dup _ n => NoClose n
  | .ret _ | .exit | .fault | .spin => True

/-- The process has made its calls of `close` on behalf of the line. -/
def HasClosed (P : Process Addr) : Prop := ∀ p, P.status = .run p → NoClose p

theorem ofLine_simple {c : Bytes} (h : Simple c) :
    Command.ofLine (strip space c) = .exec (words c) := by
  have hcd : ¬ cdWord <+: strip space c := fun hp =>
    h.cd (hp.trans (List.rdropWhile_prefix _ _))
  have hamp : (strip space c).getLast? ≠ some ampersand := fun hl =>
    h.operators.2.1 (mem_of_mem_strip (List.mem_of_getLast? hl))
  have hsemi : semicolon ∉ strip space c := fun hm => h.operators.1 (mem_of_mem_strip hm)
  have hbar : bar ∉ strip space c := fun hm => h.operators.2.2 (mem_of_mem_strip hm)
  rw [Command.ofLine_eq h.present, (trimmed_strip space c).strip_eq, Command.ofPiece,
    if_neg h.present, if_neg h.exit, if_neg hcd, if_neg hamp, if_neg hsemi, if_neg hbar, words]

/-- A line of simple commands between bars is read as their pipeline. -/
theorem ofLine_pipeline {cs : List Bytes} (hne : cs ≠ []) (h : ∀ c ∈ cs, Simple c) :
    Command.ofLine (strip space ([bar].intercalate cs)) = pipeline cs := by
  induction cs with
  | nil => exact absurd rfl hne
  | cons c cs ih =>
    rw [List.forall_mem_cons] at h
    cases cs with
    | nil =>
      rw [List.intercalate_singleton]
      exact ofLine_simple h.1
    | cons c' cs =>
      have hsemi : semicolon ∉ [bar].intercalate (c' :: cs) :=
        not_mem_intercalate (by decide) fun c hc => (h.2 c hc).operators.1
      have hamp : ampersand ∉ [bar].intercalate (c' :: cs) :=
        not_mem_intercalate (by decide) fun c hc => (h.2 c hc).operators.2.1
      have hblank : ¬ Blank space (c ++ bar :: [bar].intercalate (c' :: cs)) :=
        not_blank_of_mem (x := bar) (by simp) (by decide)
      rw [intercalate_cons, Command.ofLine_strip hblank, Command.ofLine_pipe h.1.operators.2.2
        h.1.operators.1 hsemi h.1.cd hamp, ofLine_simple h.1, ih (by simp) h.2]
      rfl

section places
variable {n k : Nat}

theorem count_pipeAt (k : Nat) : (pipeAt k).count Side.right = k := by simp [pipeAt]

theorem count_place (n k : Nat) : (place n k).count Side.right = k := by
  rw [place]
  split <;> simp [List.count_append, count_pipeAt]

theorem pipeAt_inj {j k : Nat} (h : pipeAt j = pipeAt k) : j = k := by
  rw [← count_pipeAt j, h, count_pipeAt]

theorem place_inj {j k : Nat} (h : place n j = place n k) : j = k := by
  rw [← count_place n j, h, count_place]

theorem pipeAt_succ (k : Nat) : pipeAt k ++ [.right] = pipeAt (k + 1) := by
  rw [pipeAt, pipeAt, List.replicate_succ']

end places

section wiring
variable {o : Outcomes Addr} {cs : List Bytes}

/-- The write ends among the files of a process are those of the command it is for. -/
def Owns (n : Nat) (scope : Addr) (f : Files Addr) : Prop :=
  ∀ k, k + 1 < n → some (.writeEnd (pipeAt k)) ∈ f → place n k <+: scope

/-- What holds at every call: a program is executed with the words and the files of its
command, and write ends are in the right hands when no `close` is left. -/
def Wired (cs : List Bytes) (scope : Addr) (f : Files Addr) (p : Prog Addr) : Prop :=
  (∀ tag argv n, p = .exec tag argv n → ∃ k c, cs[k]? = some c ∧ tag = place cs.length k ∧
    argv = words c ∧ f = descriptors (source k) (sink cs.length k) ∧ tag <+: scope) ∧
  (NoClose p → Owns cs.length scope f)

theorem owns_console (n k : Nat) (scope : Addr) :
    Owns n scope (descriptors (source k) (.console 1)) := by
  intro j _ hj
  simp only [descriptors, source] at hj
  split at hj <;> simp at hj

theorem owns_sink {n k : Nat} {scope : Addr} (h : place n k <+: scope) :
    Owns n scope (descriptors (source k) (sink n k)) := by
  intro j hjn hj
  have hjk : j = k := by
    simp only [descriptors, source, sink] at hj
    split at hj <;> split at hj <;> simp at hj
    all_goals exact pipeAt_inj hj
  rw [hjk]
  exact h

theorem wired_of_owns {scope : Addr} {f : Files Addr} {p : Prog Addr}
    (hp : ∀ tag argv n, p ≠ .exec tag argv n) (h : Owns cs.length scope f) :
    Wired cs scope f p :=
  ⟨fun tag argv n he => absurd he (hp tag argv n), fun _ => h⟩

theorem wired_of_close {scope : Addr} {f : Files Addr} {p : Prog Addr}
    (hp : ∀ tag argv n, p ≠ .exec tag argv n) (h : ¬ NoClose p) : Wired cs scope f p :=
  ⟨fun tag argv n he => absurd he (hp tag argv n), fun hc => absurd hc h⟩

/-- A command is run with its files: by the process that forks the program and by the
program's own. -/
theorem exec_wired {k : Nat} {c : Bytes} (scope : Addr) (next : Bool → Prog Addr)
    (hk : cs[k]? = some c)
    (hscope : Owns cs.length scope (descriptors (source k) (sink cs.length k)))
    (hnext : ∀ scope', Owns cs.length scope' (descriptors (source k) (sink cs.length k)) →
      (next true).All o (Wired cs) scope' (descriptors (source k) (sink cs.length k))) :
    ((Command.exec (words c)).prog (place cs.length k) next).All o (Wired cs) scope
      (descriptors (source k) (sink cs.length k)) := by
  have hown : Owns cs.length (place cs.length k ++ [.exec])
      (descriptors (source k) (sink cs.length k)) := owns_sink (List.prefix_append _ _)
  simp only [Command.prog]
  split
  · refine ⟨wired_of_owns (by simp) hscope, ⟨⟨?_, fun _ => hown⟩, fun _ => ?_⟩, ?_⟩
    · intro tag argv n he
      cases he
      exact ⟨k, c, hk, rfl, rfl, rfl, List.prefix_append _ _⟩
    · exact ⟨wired_of_owns (by simp) hown, hnext _ hown⟩
    · exact ⟨wired_of_owns (by simp) hscope, hnext _ hscope⟩
  · exact wired_of_owns (by simp) hscope

/-- The files after `pipe`: its ends are at descriptors 3 and 4. -/
def piped (f0 : File Addr) (tag : Addr) : Files Addr :=
  [some f0, some (.console 1), some (.console 2), some (.readEnd tag), some (.writeEnd tag)] ++
    List.replicate (NOFILE - 5) none

theorem sysPipe_descriptors (f0 : File Addr) (tag : Addr) :
    sysPipe (descriptors f0 (.console 1)) tag = some (3, 4, piped f0 tag) := rfl

/-- `close(1); dup(fd[1]); close(fd[0]); close(fd[1])`. -/
theorem left_descriptors (f0 : File Addr) (tag : Addr) :
    sysClose (sysClose (sysDup (sysClose (piped f0 tag) 1) 4) 3) 4 = descriptors f0 (.writeEnd tag) :=
  rfl

/-- `close(0); dup(fd[0]); close(fd[0]); close(fd[1])`. -/
theorem right_descriptors (f0 : File Addr) (tag : Addr) :
    sysClose (sysClose (sysDup (sysClose (piped f0 tag) 0) 3) 3) 4 =
      descriptors (.readEnd tag) (.console 1) := rfl

/-- The four calls that put one end of a pipe at descriptor `fd`. -/
theorem closes_wired {fd fd0 fd1 used : Nat} {p : Prog Addr} {scope : Addr} {f : Files Addr}
    (h : p.All o (Wired cs) scope
      (sysClose (sysClose (sysDup (sysClose f fd) used) fd0) fd1)) :
    (Prog.close fd <| .dup used <| .close fd0 <| .close fd1 p).All o (Wired cs) scope f := by
  refine ⟨wired_of_close (by simp) id, wired_of_close (by simp) id, wired_of_close (by simp) id,
    wired_of_close (by simp) id, h⟩

/-- The rest of the line from command `k` on, run with the read end of the pipe before it.
The induction is on the commands that are left. -/
theorem pipeline_wired (hsc : ¬ o.scarce) : ∀ {rest : List Bytes} {k : Nat} {scope : Addr}
    {next : Bool → Prog Addr}, cs.drop k = rest → rest ≠ [] →
    (∀ scope', (next true).All o (Wired cs) scope' (descriptors (source k) (.console 1))) →
    ((pipeline rest).prog (pipeAt k) next).All o (Wired cs) scope
      (descriptors (source k) (.console 1)) := by
  intro rest
  induction rest with
  | nil => exact fun _ h => absurd rfl h
  | cons c rest ih =>
    intro k scope next hdrop _ hnext
    have hk : cs[k]? = some c := by
      rw [← List.head?_drop, hdrop]
      rfl
    have hlen : cs.length = k + (rest.length + 1) := by
      have hlt := (List.getElem?_eq_some_iff.mp hk).1
      have := congrArg List.length hdrop
      simp at this
      omega
    have htail : cs.drop (k + 1) = rest := by
      rw [← List.drop_drop, hdrop]
      rfl
    cases rest with
    | nil =>
      have hlast : k + 1 = cs.length := by simpa using hlen.symm
      have hsink : sink cs.length k = .console 1 := if_pos hlast
      have hplace : place cs.length k = pipeAt k := if_pos hlast
      have hrun := exec_wired (o := o) scope next hk
      rw [hsink, hplace] at hrun
      exact hrun (owns_console _ _ _) fun scope' _ => hnext scope'
    | cons c' rest =>
      have hmore : k + 1 ≠ cs.length := by simp at hlen; omega
      have hsink : sink cs.length k = .writeEnd (pipeAt k) := if_neg hmore
      have hplace : place cs.length k = pipeAt k ++ [.left] := if_neg hmore
      have hleft := exec_wired (o := o) (place cs.length k) (fun _ => .exit) hk
        (owns_sink (List.prefix_refl _)) fun scope' hown => wired_of_owns (by simp) hown
      rw [hsink, hplace] at hleft
      have hsource : descriptors (source (k + 1)) (.console 1) =
          descriptors (.readEnd (pipeAt k)) (.console 1) := rfl
      have hright : ∀ scope', ((pipeline (c' :: rest)).prog (pipeAt k ++ [.right]) fun _ => .exit).All
          o (Wired cs) scope' (descriptors (.readEnd (pipeAt k)) (.console 1)) := by
        intro scope'
        rw [pipeAt_succ, ← hsource]
        exact ih htail (by simp) fun scope'' =>
          wired_of_owns (by simp) (owns_console _ _ _)
      refine ⟨wired_of_owns (by simp) (owns_console _ _ _), ⟨wired_of_close (by simp) fun h => ?_,
        fun r w f' hp => ?_, fun r w hp => ?_⟩, wired_of_owns (by simp) (owns_console _ _ _), hnext _⟩
      · exact (h 3 4).1
      · rw [sysPipe_descriptors] at hp
        cases hp
        refine ⟨wired_of_close (by simp) fun h => h.1, closes_wired ?_, closes_wired ?_⟩
        · rw [left_descriptors]
          exact hleft
        · rw [right_descriptors]
          exact hright _
      · rcases hp with hp | hp
        · exact absurd hp hsc
        · cases hp

/-- Nothing is asked of the shell but the calls of the pipeline. -/
theorem shell_meets (hsc : ¬ o.scarce) {l : Line} (hne : cs ≠ [])
    (line : l.bytes = [bar].intercalate cs) (simple : ∀ c ∈ cs, Simple c) :
    l.shell.Meets o (Wired cs) := by
  have hread : Command.ofLine l.bytes = pipeline cs := by
    have hstrip := ofLine_pipeline hne simple
    rw [← line] at hstrip
    rw [← hstrip, Command.ofLine_strip]
    intro hb
    rw [strip_eq_nil_iff.mpr hb.2] at hstrip
    match cs, hne, hstrip with
    | [_], _, h => cases h
    | _ :: _ :: _, _, h => cases h
  simp only [Process.Meets, Line.shell, Line.run_eq, hread]
  exact pipeline_wired (k := 0) hsc rfl hne fun scope => wired_of_owns (by simp) (owns_console _ 0 _)

/-- A process that has no `close` left to make owns its write ends. -/
theorem owns_of_meets {P : Process Addr} (h : P.Meets o (Wired cs)) (hc : HasClosed P) :
    Owns cs.length P.scope P.ofile := by
  obtain ⟨parent, scope, f, st⟩ := P
  cases st with
  | run p => exact (Prog.All.here h).2 (hc p rfl)
  | program tag =>
    cases tag with
    | none => cases h
    | some tag =>
      obtain ⟨argv, n, hw⟩ := h
      obtain ⟨k, c, _, rfl, _, rfl, hscope⟩ := hw.1 tag argv n rfl
      exact owns_sink hscope
  | zombie =>
    intro k _ hk
    rw [show f = List.replicate NOFILE none from h] at hk
    simp at hk
  | reaped =>
    intro k _ hk
    rw [show f = List.replicate NOFILE none from h] at hk
    simp at hk

/-- In every state of a pipeline: a call of `exec` at the place of a command has the words
of that command; a program is executed with the ends of its own two pipes at 0 and 1,
the shell's ends at the ends of the line, the shell's 2 and nothing else; and when all
calls of `close` have been made, only the processes of a command hold the write end of
the pipe behind it. -/
theorem pipeline_descriptors (o : Outcomes Addr) (enough : ¬ o.scarce) (l : Line)
    (cs : List Bytes) (present : cs ≠ []) (line : l.bytes = [bar].intercalate cs)
    (simple : ∀ c ∈ cs, Simple c) (tr : List Nat) (s : Table Addr) (run : Reach o [l.shell] tr s) :
    (∀ P ∈ s, ∀ tag argv n, P.status = .run (.exec tag argv n) →
      ∃ k c, cs[k]? = some c ∧ tag = place cs.length k ∧ argv = words c) ∧
    (∀ P ∈ s, ∀ k, Executes P (place cs.length k) →
      P.ofile = descriptors (source k) (sink cs.length k)) ∧
    ((∀ P ∈ s, HasClosed P) → ∀ P ∈ s, ∀ k, k + 1 < cs.length →
      some (.writeEnd (pipeAt k)) ∈ P.ofile → place cs.length k <+: P.scope) := by
  have hmeets : ∀ P ∈ s, P.Meets o (Wired cs) := by
    intro P hP
    obtain ⟨j, hj⟩ := List.mem_iff_getElem?.mp hP
    refine (Reach.meets (B := fun _ => True) (fun _ _ _ _ _ _ => trivial) ?_ run j P hj).1
    intro j P hj
    rw [List.mem_singleton.mp (List.mem_of_getElem? hj)]
    exact ⟨shell_meets enough present line simple, .inr trivial⟩
  refine ⟨?_, ?_, fun hclosed P hP k hk hmem => owns_of_meets (hmeets P hP) (hclosed P hP) k hk hmem⟩
  · intro P hP tag argv n hst
    have hm := hmeets P hP
    rw [Process.Meets, hst] at hm
    obtain ⟨k, c, hk, htag, hargv, _⟩ := (Prog.All.here hm).1 tag argv n rfl
    exact ⟨k, c, hk, htag, hargv⟩
  · intro P hP k hex
    have hm := hmeets P hP
    rw [Process.Meets] at hm
    rcases hex with ⟨argv, n, hst⟩ | hst
    · rw [hst] at hm
      obtain ⟨k', c, _, htag, _, hf, _⟩ := (Prog.All.here hm).1 _ argv n rfl
      rw [place_inj htag, hf]
    · rw [hst] at hm
      obtain ⟨argv, n, hw⟩ := hm
      obtain ⟨k', c, _, htag, _, hf, _⟩ := hw.1 _ argv n rfl
      rw [place_inj htag, hf]

end wiring

/-- The line `a|b`. -/
def aBarB : Line := ⟨literal ['a', '|', 'b'], by decide, by decide⟩

/-- The line is run until both programs are. -/
def untilBothRun : List (Nat × Choice) :=
  [(0, .go), (1, .go), (1, .go), (2, .go), (2, .go), (2, .go), (2, .go), (2, .go), (3, .go),
    (1, .go), (1, .go), (1, .go), (1, .go), (1, .go), (4, .go)]

/-- The shell, the process that made the pipe, the one it forked for `a`, and the programs. -/
def bothRun : Table Addr :=
  [⟨none, [], descriptors (.console 0) (.console 1), .run (.wait (.ret true))⟩,
    ⟨some 0, [.pipe], descriptors (.readEnd []) (.console 1), .run (.wait .exit)⟩,
    ⟨some 1, [.left], descriptors (.console 0) (.writeEnd []), .run (.wait .exit)⟩,
    ⟨some 2, [.left, .exec], descriptors (.console 0) (.writeEnd []), .program (some [.left])⟩,
    ⟨some 1, [.right, .exec], descriptors (.readEnd []) (.console 1), .program (some [.right])⟩]

theorem bothRun_reach : Reach anyExec [aBarB.shell] (untilBothRun.map Prod.fst) bothRun := by
  have hshell : aBarB.shell = ⟨none, [], descriptors (.console 0) (.console 1),
      .run ((pipeline [['a'.toUInt8], ['b'.toUInt8]]).prog [] .ret)⟩ := by
    rw [Line.shell, Line.run_eq]
    rfl
  rw [hshell]
  exact perform_reach rfl

theorem bothRun_hasClosed : ∀ P ∈ bothRun, HasClosed P := by
  simp only [bothRun, List.forall_mem_cons, HasClosed]
  refine ⟨?_, ?_, ?_, ?_, ?_, by simp⟩ <;> intro p hp <;> cases hp <;> trivial

theorem pipeline_descriptors_two_commands :
    Reach anyExec [aBarB.shell] (untilBothRun.map Prod.fst) bothRun ∧
      (∀ P ∈ bothRun, P.status = .program (some [.left]) →
        P.ofile = descriptors (.console 0) (.writeEnd [])) ∧
      (∀ P ∈ bothRun, P.status = .program (some [.right]) →
        P.ofile = descriptors (.readEnd []) (.console 1)) ∧
      (∀ P ∈ bothRun, some (.writeEnd []) ∈ P.ofile → [.left] <+: P.scope) := by
  have simple : ∀ c ∈ [['a'.toUInt8], ['b'.toUInt8]], Simple c := by
    intro c hc
    rcases List.mem_pair.mp hc with rfl | rfl
    · exact ⟨by decide, by decide, by decide, by decide⟩
    · exact ⟨by decide, by decide, by decide, by decide⟩
  have h := pipeline_descriptors anyExec id aBarB _ (by simp) rfl simple _ _ bothRun_reach
  refine ⟨bothRun_reach, ?_, ?_, ?_⟩
  · exact fun P hP hst => h.2.1 P hP 0 (.inr hst)
  · exact fun P hP hst => h.2.1 P hP 1 (.inr hst)
  · exact fun P hP hmem => h.2.2 bothRun_hasClosed P hP 0 (by simp) hmem

end Xv6.Guarantees.PipelineWiring
