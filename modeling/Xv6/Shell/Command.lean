import Xv6.Library.Pieces
import Xv6.Source.Ysh

/-!
# What a line of ysh means

The command that a line stands for, read off the string alone, and the system calls
that run it. `runcmd`, which cuts the line buffer in place, makes exactly these calls.
-/
namespace Xv6.Shell

open Xv6.Library.Pieces
open Xv6.Source.Ulib Xv6.Source.Proc Xv6.Source.Ysh

/-- `blank` is a piece of spaces only, which `runcmd` does not survive. -/
inductive Command where
  | nop
  | exit
  | cd (path : Bytes)
  | back (c : Command)
  | list (a b : Command)
  | pipe (a b : Command)
  | exec (argv : List Bytes)
  | blank
  deriving DecidableEq, Repr

/-- The priorities of `runcmd` on a piece without outer spaces: `exit` and `cd` before
any operator, then an `&` at the end, the first `;`, the first `|`. -/
def Command.ofPiece (sub : Bytes → Command) (t : Bytes) : Command :=
  if t = [] then .blank
  else if t = exitWord then .exit
  else if cdWord <+: t then .cd (t.drop 3)
  else if t.getLast? = some ampersand then .back (sub t.dropLast)
  else if semicolon ∈ t then .list (sub (upTo semicolon t)) (sub (behind semicolon t))
  else if bar ∈ t then .pipe (sub (upTo bar t)) (sub (behind bar t))
  else .exec (t.splitOn space)

def Command.ofDepth : Nat → Bytes → Command
  | 0, _ => .blank
  | n + 1, w => if w = [] then .nop else .ofPiece (ofDepth n) (strip space w)

/-- The command of a line. -/
def Command.ofLine (w : Bytes) : Command := Command.ofDepth (w.length + 1) w

/-- The calls that run a command at a place, and then what `k` says. -/
def Command.prog : Command → Addr → (Bool → Prog Addr) → Prog Addr
  | .nop, _, k => k true
  | .exit, _, k => k false
  | .cd path, _, k => .chdir path (k true)
  | .back c, addr, k => .fork (addr ++ [.back]) (c.prog (addr ++ [.back]) fun _ => k true) (k true)
  | .list a b, addr, k =>
    .fork (addr ++ [.before]) (a.prog (addr ++ [.before]) fun _ => .exit)
      (.wait (b.prog (addr ++ [.after]) fun _ => k true))
  | .pipe a b, addr, k =>
    .fork (addr ++ [.pipe])
      (.pipe addr fun fd0 fd1 => .fork (addr ++ [.left])
        (.close 1 <| .dup fd1 <| .close fd0 <| .close fd1 <| a.prog (addr ++ [.left]) fun _ => .exit)
        (.close 0 <| .dup fd0 <| .close fd0 <| .close fd1 <| b.prog (addr ++ [.right]) fun _ => .exit))
      (.wait (k true))
  | .exec argv, addr, k =>
    if argv.length < maxArgs then
      .fork (addr ++ [.exec]) (.exec addr argv (.wait (k true))) (.wait (k true))
    else .fault
  | .blank, _, _ => .fault

/-- The argument lists of the simple commands in a command. -/
def Command.simple : Command → List (List Bytes)
  | .exec argv => [argv]
  | .back c => c.simple
  | .list a b | .pipe a b => a.simple ++ b.simple
  | .nop | .exit | .cd _ | .blank => []

/-- A command that stays inside the buffer and inside `argv`. -/
def Command.Fits : Command → Prop
  | .nop | .exit | .cd _ => True
  | .back c => c.Fits
  | .list a b | .pipe a b => a.Fits ∧ b.Fits
  | .exec argv => argv.length < maxArgs
  | .blank => False

section pieces
variable {t : Bytes} {sub sub' : Bytes → Command}

/-- The pieces of `t` are shorter than `t`, and so the depth does not matter. -/
theorem Command.ofPiece_congr (h : ∀ u : Bytes, u.length < t.length → sub u = sub' u) :
    Command.ofPiece sub t = Command.ofPiece sub' t := by
  unfold Command.ofPiece
  split
  · rfl
  · next hne =>
    have hpos : 0 < t.length := List.length_pos_of_ne_nil hne
    have hlast : t.dropLast.length < t.length := by
      rw [List.length_dropLast]
      omega
    rw [h _ hlast]
    by_cases hs : semicolon ∈ t
    · rw [h _ (upTo_length hs), h _ (behind_length hs)]
      simp only [hs, if_true]
    · by_cases hb : bar ∈ t
      · rw [h _ (upTo_length hb), h _ (behind_length hb)]
        simp only [hs, if_false]
      · simp only [hs, hb, if_false]

theorem Command.ofDepth_of_lt {n : Nat} {w : Bytes} (h : w.length < n) :
    Command.ofDepth n w = Command.ofLine w := by
  suffices main : ∀ (n n' : Nat) (w : Bytes), w.length < n → w.length < n' →
      Command.ofDepth n w = Command.ofDepth n' w from main n _ w h (Nat.lt_succ_self _)
  intro n
  induction n with
  | zero => intro n' w hn; omega
  | succ n ih =>
    intro n' w hn hn'
    obtain ⟨n', rfl⟩ : ∃ k, n' = k + 1 := ⟨n' - 1, by omega⟩
    have hle := strip_length_le space w
    simp only [Command.ofDepth]
    rw [Command.ofPiece_congr fun u hu => ih n' u (by omega) (by omega)]

theorem Command.ofLine_eq {w : Bytes} (h : w ≠ []) :
    Command.ofLine w = Command.ofPiece Command.ofLine (strip space w) := by
  have hle := strip_length_le space w
  rw [Command.ofLine, Command.ofDepth, if_neg h]
  exact Command.ofPiece_congr fun u hu => Command.ofDepth_of_lt (by omega)

end pieces

/-- How a piece that is not blank is read: one rule for each branch of `runcmd`. -/
inductive Reads : Bytes → Command → Prop
  | nop : Reads [] .nop
  | exit {w : Bytes} : strip space w = exitWord → Reads w .exit
  | cd {w path : Bytes} : strip space w = cdWord ++ path → Reads w (.cd path)
  | back {w u : Bytes} {c : Command} : strip space w = u ++ [ampersand] →
      ¬ cdWord <+: strip space w → Reads u c → Reads w (.back c)
  | list {w u v : Bytes} {a b : Command} : strip space w = u ++ semicolon :: v →
      semicolon ∉ u → ¬ cdWord <+: strip space w → (strip space w).getLast? ≠ some ampersand →
      Reads u a → Reads v b → Reads w (.list a b)
  | pipe {w u v : Bytes} {a b : Command} : strip space w = u ++ bar :: v → bar ∉ u →
      semicolon ∉ strip space w → ¬ cdWord <+: strip space w →
      (strip space w).getLast? ≠ some ampersand → Reads u a → Reads v b → Reads w (.pipe a b)
  | exec {w : Bytes} : strip space w ≠ [] → strip space w ≠ exitWord → bar ∉ strip space w →
      semicolon ∉ strip space w → ¬ cdWord <+: strip space w →
      (strip space w).getLast? ≠ some ampersand → Reads w (.exec ((strip space w).splitOn space))

theorem reads_ofLine {w : Bytes} (hb : ¬ Blank space w) : Reads w (Command.ofLine w) := by
  induction hn : w.length using Nat.strong_induction_on generalizing w with
  | _ n ih =>
    subst hn
    by_cases hw : w = []
    · subst hw
      exact .nop
    have hne : strip space w ≠ [] := fun h0 => hb ⟨hw, strip_eq_nil_iff.mp h0⟩
    have htrim := trimmed_strip space w
    have hle := strip_length_le space w
    rw [Command.ofLine_eq hw, Command.ofPiece, if_neg hne]
    by_cases he : strip space w = exitWord
    · rw [if_pos he]
      exact .exit he
    by_cases hc : cdWord <+: strip space w
    · obtain ⟨path, hpath⟩ := hc
      rw [if_neg he, if_pos ⟨path, hpath⟩, ← hpath]
      exact .cd hpath.symm
    rw [if_neg he, if_neg hc]
    by_cases ha : (strip space w).getLast? = some ampersand
    · obtain ⟨u, hu⟩ := List.getLast?_eq_some_iff.mp ha
      rw [if_pos ha, hu, List.dropLast_concat]
      refine .back hu hc (ih u.length ?_ ?_ rfl)
      · rw [hu, List.length_append, List.length_singleton] at hle
        omega
      · rw [hu] at htrim
        exact htrim.not_blank_first
    rw [if_neg ha]
    by_cases hs : semicolon ∈ strip space w
    · obtain ⟨u, v, huv, hu, hup, hbehind, hbu, hbv⟩ := htrim.cut hs
      have hlu := upTo_length hs
      have hlv := behind_length hs
      rw [if_pos hs]
      rw [hup] at hlu ⊢
      rw [hbehind] at hlv ⊢
      exact .list huv hu hc ha (ih u.length (by omega) hbu rfl) (ih v.length (by omega) hbv rfl)
    rw [if_neg hs]
    by_cases hp : bar ∈ strip space w
    · obtain ⟨u, v, huv, hu, hup, hbehind, hbu, hbv⟩ := htrim.cut hp
      have hlu := upTo_length hp
      have hlv := behind_length hp
      rw [if_pos hp]
      rw [hup] at hlu ⊢
      rw [hbehind] at hlv ⊢
      exact .pipe huv hu hs hc ha (ih u.length (by omega) hbu rfl) (ih v.length (by omega) hbv rfl)
    rw [if_neg hp]
    exact .exec hne he hp hs hc ha

/-- No piece of a command is blank, so that the command fits when its simple commands
have room in `argv`. -/
theorem Reads.fits_iff {w : Bytes} {t : Command} (h : Reads w t) :
    t.Fits ↔ ∀ argv ∈ t.simple, argv.length < maxArgs := by
  induction h with
  | nop => simp [Command.Fits, Command.simple]
  | exit => simp [Command.Fits, Command.simple]
  | cd => simp [Command.Fits, Command.simple]
  | back _ _ _ ih => exact ih
  | list _ _ _ _ _ _ iha ihb => simp [Command.Fits, Command.simple, iha, ihb, or_imp, forall_and]
  | pipe _ _ _ _ _ _ _ iha ihb => simp [Command.Fits, Command.simple, iha, ihb, or_imp, forall_and]
  | exec => simp [Command.Fits, Command.simple]

theorem Command.fits_ofLine {w : Bytes} : (Command.ofLine w).Fits ↔
    ¬ Blank space w ∧ ∀ argv ∈ (Command.ofLine w).simple, argv.length < maxArgs := by
  by_cases hb : Blank space w
  · rw [Command.ofLine_eq hb.1, strip_eq_nil_iff.mpr hb.2]
    simp [Command.ofPiece, Command.Fits, hb]
  · simp only [(reads_ofLine hb).fits_iff, hb, not_false_eq_true, true_and]

section operators
variable {u v w : Bytes} {c : UInt8}

/-- Outer spaces do not matter, unless there is nothing else. -/
theorem Command.ofLine_strip (h : ¬ Blank space w) :
    Command.ofLine (strip space w) = Command.ofLine w := by
  by_cases hw : w = []
  · subst hw
    rfl
  · have hne : strip space w ≠ [] := fun h0 => h ⟨hw, strip_eq_nil_iff.mp h0⟩
    rw [Command.ofLine_eq hne, Command.ofLine_eq hw, (trimmed_strip space w).strip_eq]

theorem Command.ofLine_dropWhile (w : Bytes) :
    Command.ofLine (w.dropWhile (· == space)) = Command.ofLine (strip space w) := by
  rw [← strip_dropWhile]
  refine (Command.ofLine_strip fun h => ?_).symm
  obtain ⟨x, t, ht⟩ := List.exists_cons_of_ne_nil h.1
  have hx : x = space := h.2 x (by rw [ht]; exact List.mem_cons_self)
  have hnot := List.head?_dropWhile_not (· == space) w
  rw [ht] at hnot
  simp [hx] at hnot

theorem Command.ofLine_rdropWhile (w : Bytes) :
    Command.ofLine (w.rdropWhile (· == space)) = Command.ofLine (strip space w) := by
  rw [← strip_rdropWhile]
  refine (Command.ofLine_strip fun h => ?_).symm
  have hx := h.2 _ (List.getLast_mem h.1)
  exact List.rdropWhile_last_not _ w h.1 (by simpa using hx)

/-- A word without the separator that starts two pieces starts the first. -/
theorem isPrefix_of_append_cons {q : Bytes} (hq : c ∉ q) (h : q <+: u ++ c :: v) : q <+: u := by
  rcases Nat.lt_or_ge u.length q.length with hlt | hle
  · obtain ⟨rest, hrest⟩ := h
    have hget : q[u.length]? = some c := by
      have hat := congrArg (·[u.length]?) hrest
      simpa [List.getElem?_append_left hlt] using hat
    exact absurd (List.mem_of_getElem? hget) hq
  · exact List.prefix_of_prefix_length_le h (List.prefix_append u _) hle

/-- A line with an operator in it that does not begin with `cd` or end in `&`. -/
theorem Command.ofLine_operator (hc : c ∉ [space, ampersand] ++ exitWord ++ cdWord)
    (hcd : ¬ cdWord <+: u.dropWhile (· == space)) (hamp : ampersand ∉ v) {t : Bytes}
    (ht : u.dropWhile (· == space) ++ c :: v.rdropWhile (· == space) = t) :
    Command.ofLine (u ++ c :: v) =
      if semicolon ∈ t then
        .list (Command.ofLine (upTo semicolon t)) (Command.ofLine (behind semicolon t))
      else if bar ∈ t then .pipe (Command.ofLine (upTo bar t)) (Command.ofLine (behind bar t))
      else .exec (t.splitOn space) := by
  simp only [List.mem_append, List.mem_cons, List.not_mem_nil, or_false, not_or] at hc
  obtain ⟨⟨⟨hspace, hcamp⟩, hcexit⟩, hccd⟩ := hc
  have hstrip : strip space (u ++ c :: v) = t := ht ▸ strip_append_cons hspace
  have hmem : c ∈ t := by simp [← ht]
  have hne : t ≠ [] := List.ne_nil_of_mem hmem
  have hexit : t ≠ exitWord := fun h => hcexit (h ▸ hmem)
  have hcd' : ¬ cdWord <+: t := fun h => hcd (isPrefix_of_append_cons hccd (ht ▸ h))
  have hlast : t.getLast? ≠ some ampersand := by
    intro h
    have hmem : ampersand ∈ c :: v.rdropWhile (· == space) :=
      List.mem_of_getLast? (by simpa [← ht] using h)
    rcases List.mem_cons.mp hmem with h | h
    · exact hcamp h.symm
    · exact hamp ((List.rdropWhile_prefix _ v).subset h)
  rw [Command.ofLine_eq (by simp), hstrip, Command.ofPiece, if_neg hne, if_neg hexit,
    if_neg hcd', if_neg hlast]

/-- A line with a `;`, cut at the first one. -/
theorem Command.ofLine_serial (hu : semicolon ∉ u) (hcd : ¬ cdWord <+: u.dropWhile (· == space))
    (hamp : ampersand ∉ v) : Command.ofLine (u ++ semicolon :: v) =
      .list (Command.ofLine (strip space u)) (Command.ofLine (strip space v)) := by
  have hl : semicolon ∉ u.dropWhile (· == space) := fun h => hu ((List.dropWhile_suffix _).subset h)
  rw [Command.ofLine_operator (by decide) hcd hamp rfl, if_pos (by simp), upTo_append hl,
    behind_append hl, Command.ofLine_dropWhile, Command.ofLine_rdropWhile]

/-- A line with a `|` and no `;`, cut at the first one. -/
theorem Command.ofLine_pipe (hu : bar ∉ u) (hsu : semicolon ∉ u) (hsv : semicolon ∉ v)
    (hcd : ¬ cdWord <+: u.dropWhile (· == space)) (hamp : ampersand ∉ v) :
    Command.ofLine (u ++ bar :: v) =
      .pipe (Command.ofLine (strip space u)) (Command.ofLine (strip space v)) := by
  have hl : bar ∉ u.dropWhile (· == space) := fun h => hu ((List.dropWhile_suffix _).subset h)
  have hno : semicolon ∉ u.dropWhile (· == space) ++ bar :: v.rdropWhile (· == space) := by
    simp only [List.mem_append, List.mem_cons, not_or]
    exact ⟨fun h => hsu ((List.dropWhile_suffix _).subset h), by decide,
      fun h => hsv ((List.rdropWhile_prefix _ v).subset h)⟩
  rw [Command.ofLine_operator (by decide) hcd hamp rfl, if_neg hno, if_pos (by simp),
    upTo_append hl, behind_append hl, Command.ofLine_dropWhile, Command.ofLine_rdropWhile]

end operators
end Xv6.Shell
