import Xv6.Shell.LineBuffer
import Xv6.Shell.ShParser

/-!
# The two shells read a line alike

A line of words, bars and semicolons, with spaces around them. `ysh` cuts it in place and
runs the pieces; `sh` builds a tree of it first. Both read the same pipelines of the same
argument lists from it.
-/
namespace Xv6.Guarantees.ShellsAgree

open Xv6.Library.Pieces
open Xv6.Source Xv6.Source.Ulib Xv6.Source.Proc Xv6.Source.Ysh
open Xv6.Shell Xv6.Shell.ShParser

/-- A command: its words, one space between them, and the spaces around it. -/
structure Simple where
  before : Nat
  words : List Bytes
  after : Nat
  clean : ∀ w ∈ words, w ≠ [] ∧ ∀ c ∈ w, IsWord c
  short : words.length ≤ 9
  notExit : words ≠ [exitWord]
  notCd : words.head? ≠ some (literal ['c', 'd'])

def Simple.text (c : Simple) : Bytes :=
  List.replicate c.before space ++ ([space].intercalate c.words ++ List.replicate c.after space)

def pipeText (p : List Simple) : Bytes := [bar].intercalate (p.map Simple.text)

def serialText (line : List (List Simple)) : Bytes := [semicolon].intercalate (line.map pipeText)

/-- A line of pipelines of commands that shows something. -/
structure CommandLine where
  pipelines : List (List Simple)
  nonempty : pipelines ≠ []
  pipes : ∀ p ∈ pipelines, p ≠ []
  visible : ∃ c ∈ serialText pipelines, c ≠ space

def CommandLine.text (l : CommandLine) : Bytes := serialText l.pipelines

/-- The argument lists of the commands, by pipeline. -/
def CommandLine.argvs (l : CommandLine) : List (List (List Bytes)) :=
  l.pipelines.map (·.map Simple.words)

/-- The tree that `ysh` runs, if it is one of lists, pipelines and simple commands. -/
def tree : Command → Option Tree
  | .nop => some (.exec [])
  | .exec argv => some (.exec argv)
  | .list a b => do return .list (← tree a) (← tree b)
  | .pipe a b => do return .pipe (← tree a) (← tree b)
  | .exit | .cd _ | .back _ | .blank => none

theorem ltrim_replicate (a : Nat) (w : Bytes) :
    ltrim (List.replicate a space ++ w) = ltrim w := by
  induction a with
  | zero => rfl
  | succ a ih =>
    rw [List.replicate_succ, List.cons_append, ltrim_cons_white (by decide), ih]

theorem wordEnds_cons {c : UInt8} (h : ¬ IsWord c) (w : Bytes) : WordEnds (c :: w) := h

theorem wordEnds_padded (b : Nat) {z : Bytes} (hz : WordEnds z) :
    WordEnds (List.replicate b space ++ z) := by
  cases b with
  | zero => exact hz
  | succ b => exact (by decide : ¬ IsWord space)

theorem words_padded (ws : List Bytes) (hws : ∀ w ∈ ws, w ≠ [] ∧ ∀ c ∈ w, IsWord c) {z : Bytes}
    (hz : WordEnds z) (hend : ltrim z = [] ∨ (ltrim z).headD 0 ∈ literal ['|', ';']) :
    ∀ a b : Nat, Words ws (ltrim (List.replicate a space ++
      ([space].intercalate ws ++ (List.replicate b space ++ z)))) (ltrim z) := by
  induction ws with
  | nil =>
    intro a b
    rw [ltrim_replicate, List.intercalate_nil, List.nil_append, ltrim_replicate]
    exact .nil hend
  | cons w ws ih =>
    intro a b
    rw [List.forall_mem_cons] at hws
    obtain ⟨⟨hne, hword⟩, hws⟩ := hws
    rw [ltrim_replicate]
    cases ws with
    | nil =>
      rw [List.intercalate_singleton, ltrim_word hne hword]
      refine .cons hne hword (wordEnds_padded b hz) ?_
      simpa [ltrim_replicate] using ih hws 0 b
    | cons v ws =>
      rw [intercalate_cons, List.append_assoc, List.cons_append, ltrim_word hne hword]
      exact .cons hne hword (wordEnds_cons (by decide) _) (ih hws 1 b)

theorem words_text (c : Simple) {z : Bytes} (hz : WordEnds z)
    (hend : ltrim z = [] ∨ (ltrim z).headD 0 ∈ literal ['|', ';']) :
    Words c.words (ltrim (c.text ++ z)) (ltrim z) := by
  rw [Simple.text, List.append_assoc, List.append_assoc]
  exact words_padded c.words c.clean hz hend c.before c.after

theorem pipes_text (p : List Simple) (hp : p ≠ []) {z : Bytes} (hz : WordEnds z)
    (hend : ltrim z = [] ∨ (ltrim z).headD 0 = ';'.toUInt8) :
    Pipes (p.map Simple.words) (ltrim (pipeText p ++ z)) (ltrim z) := by
  induction p with
  | nil => exact absurd rfl hp
  | cons c p ih =>
    cases p with
    | nil =>
      refine .last ?_ hend
      simpa [pipeText] using words_text c hz (hend.imp id fun h => by rw [h]; decide)
    | cons d p =>
      have hbar : ∀ v : Bytes, ltrim (bar :: v) = bar :: v := fun v => ltrim_cons (by decide)
      have hfirst := words_text c (z := bar :: (pipeText (d :: p) ++ z))
        (wordEnds_cons (by decide) _)
        (.inr (by rw [hbar]; exact (by decide : bar ∈ literal ['|', ';'])))
      rw [hbar] at hfirst
      refine .cons ?_ (ih (List.cons_ne_nil d p))
      have htext : pipeText (c :: d :: p) = c.text ++ bar :: pipeText (d :: p) :=
        intercalate_cons _ _ _
      rw [htext, List.append_assoc, List.cons_append]
      exact hfirst

/-- The end of a line that `gets` has read: a newline or nothing. -/
def LineEnd (z : Bytes) : Prop := z = [] ∨ z = ['\n'.toUInt8]

theorem serials_text (line : List (List Simple)) (hl : line ≠ []) (hp : ∀ p ∈ line, p ≠ [])
    {z : Bytes} (hz : LineEnd z) :
    Serials (line.map (·.map Simple.words)) (ltrim (serialText line ++ z)) := by
  have hends : WordEnds z ∧ ltrim z = [] := by
    rcases hz with rfl | rfl <;> exact ⟨(by decide : ¬ IsWord _), by decide⟩
  induction line with
  | nil => exact absurd rfl hl
  | cons p line ih =>
    rw [List.forall_mem_cons] at hp
    cases line with
    | nil =>
      have hlast := pipes_text p hp.1 hends.1 (.inl hends.2)
      rw [hends.2] at hlast
      exact .last (by simpa [serialText] using hlast)
    | cons q line =>
      have hsemi : ∀ v : Bytes, ltrim (semicolon :: v) = semicolon :: v :=
        fun v => ltrim_cons (by decide)
      have hfirst := pipes_text p hp.1 (z := semicolon :: (serialText (q :: line) ++ z))
        (wordEnds_cons (by decide) _) (.inr (by rw [hsemi]; rfl))
      rw [hsemi] at hfirst
      refine .cons ?_ (ih (List.cons_ne_nil q line) hp.2)
      have htext : serialText (p :: q :: line) = pipeText p ++ semicolon :: serialText (q :: line) :=
        intercalate_cons _ _ _
      rw [htext, List.append_assoc, List.cons_append]
      exact hfirst

theorem Simple.mem_text (c : Simple) {d : UInt8} (hd : d ∈ c.text) : d = space ∨ IsWord d := by
  by_contra hnot
  rw [not_or] at hnot
  simp only [Simple.text, List.mem_append, List.mem_replicate] at hd
  rcases hd with ⟨_, rfl⟩ | hd | ⟨_, rfl⟩
  · exact hnot.1 rfl
  · exact not_mem_intercalate hnot.1 (fun w hw hmem => hnot.2 ((c.clean w hw).2 d hmem)) hd
  · exact hnot.1 rfl

theorem mem_pipeText {p : List Simple} {d : UInt8} (hd : d ∈ pipeText p) :
    d = space ∨ IsWord d ∨ d = bar := by
  by_contra hnot
  simp only [not_or] at hnot
  refine not_mem_intercalate hnot.2.2 ?_ hd
  intro w hw hmem
  obtain ⟨c, _, rfl⟩ := List.mem_map.mp hw
  rcases c.mem_text hmem with h | h
  · exact hnot.1 h
  · exact hnot.2.1 h

theorem ampersand_not_mem_serialText (line : List (List Simple)) :
    ampersand ∉ serialText line := by
  refine not_mem_intercalate (by decide) ?_
  intro w hw hmem
  obtain ⟨p, _, rfl⟩ := List.mem_map.mp hw
  exact absurd (mem_pipeText hmem) (by decide)

/-- A word in front of what ends it, of which the first three bytes are `cd` and a space. -/
theorem word_eq_cd {w y : Bytes} (hw : w ≠ [] ∧ ∀ c ∈ w, IsWord c) (hy : WordEnds y)
    (h : cdWord <+: w ++ y) : w = literal ['c', 'd'] := by
  have hcd : cdWord = ['c'.toUInt8, 'd'.toUInt8, space] := by decide
  rw [hcd] at h
  obtain ⟨hne, hword⟩ := hw
  match w, hne, hword, h with
  | [a], _, _, h =>
    obtain ⟨_, hrest⟩ := List.cons_prefix_cons.mp h
    cases y with
    | nil => simp at hrest
    | cons b y =>
      have hb := (List.cons_prefix_cons.mp hrest).1
      exact absurd (hb ▸ (by decide : IsWord 'd'.toUInt8)) hy
  | [a, b], _, _, h =>
    obtain ⟨ha, hrest⟩ := List.cons_prefix_cons.mp h
    have hb := (List.cons_prefix_cons.mp hrest).1
    rw [← ha, ← hb]
    rfl
  | a :: b :: c :: w, _, hword, h =>
    have hrest := (List.cons_prefix_cons.mp (List.cons_prefix_cons.mp h).2).2
    have hc := (List.cons_prefix_cons.mp hrest).1
    have hcw := hword c (by simp)
    rw [← hc] at hcw
    exact absurd hcw (by decide)

theorem not_cd_text (c : Simple) {z : Bytes} (hz : z = [] ∨ z.headD 0 = bar) :
    ¬ cdWord <+: (c.text ++ z).dropWhile (· == space) := by
  have hends : WordEnds z := by
    rcases hz with rfl | hz
    · exact (by decide : ¬ IsWord 0)
    · rw [WordEnds, hz]
      decide
  rw [Simple.text, List.append_assoc, List.append_assoc, dropWhile_replicate_append]
  intro hpre
  cases hw : c.words with
  | nil =>
    rw [hw, List.intercalate_nil, List.nil_append, dropWhile_replicate_append] at hpre
    rcases hz with rfl | hz
    · simp [cdWord, literal] at hpre
    · cases z with
      | nil => simp [cdWord, literal] at hpre
      | cons b z =>
        have hb : b = bar := hz
        subst hb
        rw [List.dropWhile_cons_of_neg (by decide)] at hpre
        exact absurd (List.cons_prefix_cons.mp hpre).1 (by decide)
  | cons w ws =>
    have hclean := c.clean w (by simp [hw])
    have hsplit : ∃ y, [space].intercalate (w :: ws) ++ (List.replicate c.after space ++ z) =
        w ++ y ∧ WordEnds y := by
      cases ws with
      | nil => exact ⟨_, by rw [List.intercalate_singleton], wordEnds_padded c.after hends⟩
      | cons v ws =>
        refine ⟨_, by rw [intercalate_cons, List.append_assoc, List.cons_append],
          wordEnds_cons (by decide) _⟩
    obtain ⟨y, hy, hends'⟩ := hsplit
    have hhead : (w ++ y).dropWhile (· == space) = w ++ y := by
      obtain ⟨d, w, rfl⟩ := List.exists_cons_of_ne_nil hclean.1
      refine List.dropWhile_cons_of_neg ?_
      intro hd
      have hspace := hclean.2 d List.mem_cons_self
      rw [beq_iff_eq.mp hd] at hspace
      exact absurd hspace (by decide)
    rw [hw, hy, hhead] at hpre
    exact c.notCd (by rw [hw, word_eq_cd hclean hends' hpre]; rfl)

theorem not_cd_pipeText (p : List Simple) : ¬ cdWord <+: (pipeText p).dropWhile (· == space) := by
  cases p with
  | nil => decide
  | cons c p =>
    cases p with
    | nil => simpa [pipeText] using not_cd_text c (.inl rfl)
    | cons d p =>
      have htext : pipeText (c :: d :: p) = c.text ++ bar :: pipeText (d :: p) :=
        intercalate_cons _ _ _
      rw [htext]
      exact not_cd_text c (.inr rfl)

/-- The words of a command with single spaces between them have none at the ends. -/
theorem trimmed_intercalate {ws : List Bytes} (hws : ∀ w ∈ ws, w ≠ [] ∧ ∀ c ∈ w, IsWord c) :
    Trimmed space ([space].intercalate ws) := by
  have hspace : ∀ c, IsWord c → c ≠ space := fun c hc e => absurd (e ▸ hc) (by decide)
  induction ws with
  | nil => exact ⟨by simp, by simp⟩
  | cons w ws ih =>
    rw [List.forall_mem_cons] at hws
    obtain ⟨⟨hne, hword⟩, hws⟩ := hws
    obtain ⟨d, w, rfl⟩ := List.exists_cons_of_ne_nil hne
    have hd := hspace d (hword d List.mem_cons_self)
    cases ws with
    | nil =>
      rw [List.intercalate_singleton]
      refine ⟨by simpa using hd, fun hl => ?_⟩
      exact hspace _ (hword _ (List.mem_of_getLast? hl)) rfl
    | cons v ws =>
      rw [intercalate_cons]
      refine ⟨by simpa using hd, fun hl => (ih hws).2 ?_⟩
      have hv : [space].intercalate (v :: ws) ≠ [] := by
        obtain ⟨e, v, rfl⟩ := List.exists_cons_of_ne_nil (hws v List.mem_cons_self).1
        cases ws <;> simp [List.intercalate_cons_cons]
      rw [List.getLast?_append, List.getLast?_cons] at hl
      rw [List.getLast?_eq_some_getLast hv] at hl ⊢
      simpa using hl

/-- A command is read as its words, or as nothing to do where there are none. -/
theorem tree_text (c : Simple) :
    tree (Command.ofLine (strip space c.text)) = some (.exec c.words) := by
  have htrim := trimmed_intercalate c.clean
  rw [Simple.text, htrim.strip_padded]
  cases hw : c.words with
  | nil => rfl
  | cons w ws =>
    rw [← hw]
    have hsplit : ([space].intercalate c.words).splitOn space = c.words := by
      refine List.splitOn_intercalate _ (fun v hv hmem => ?_) (by simp [hw])
      exact absurd ((c.clean v hv).2 space hmem) (by decide)
    have hne : [space].intercalate c.words ≠ [] := by
      intro h0
      rw [h0] at hsplit
      have hnil := (c.clean [] (by rw [← hsplit]; simp)).1
      exact hnil rfl
    have hmem : ∀ d ∈ [space].intercalate c.words, d = space ∨ IsWord d := fun d hd =>
      c.mem_text (by simp [Simple.text, hd])
    have hexit : [space].intercalate c.words ≠ exitWord := by
      intro h
      rw [h] at hsplit
      exact c.notExit (hsplit.symm.trans (by decide))
    have hcd : ¬ cdWord <+: [space].intercalate c.words := by
      have hno := not_cd_text c (.inl rfl)
      rw [Simple.text, List.append_nil, dropWhile_replicate_append, htrim.dropWhile _ hne] at hno
      exact fun h => hno (h.trans (List.prefix_append _ _))
    have hamp : ([space].intercalate c.words).getLast? ≠ some ampersand := fun h =>
      absurd (hmem _ (List.mem_of_getLast? h)) (by decide)
    have hsemi : semicolon ∉ [space].intercalate c.words := fun h => absurd (hmem _ h) (by decide)
    have hbar : bar ∉ [space].intercalate c.words := fun h => absurd (hmem _ h) (by decide)
    rw [Command.ofLine_eq hne, htrim.strip_eq, Command.ofPiece, if_neg hne, if_neg hexit,
      if_neg hcd, if_neg hamp, if_neg hsemi, if_neg hbar, tree, hsplit]

theorem tree_pipeText (p : List Simple) (hp : p ≠ []) :
    tree (Command.ofLine (strip space (pipeText p))) = some (pipeTree (p.map Simple.words)) := by
  induction p with
  | nil => exact absurd rfl hp
  | cons c p ih =>
    cases p with
    | nil => simpa [pipeText, pipeTree] using tree_text c
    | cons d p =>
      have htext : pipeText (c :: d :: p) = c.text ++ bar :: pipeText (d :: p) :=
        intercalate_cons _ _ _
      have hblank : ¬ Blank space (c.text ++ bar :: pipeText (d :: p)) :=
        not_blank_of_mem (x := bar) (by simp) (by decide)
      have hcd : ¬ cdWord <+: c.text.dropWhile (· == space) := by
        simpa using not_cd_text c (.inl rfl)
      rw [htext, Command.ofLine_strip hblank, Command.ofLine_pipe
        (fun h => absurd (c.mem_text h) (by decide)) (fun h => absurd (c.mem_text h) (by decide))
        (fun h => absurd (mem_pipeText h) (by decide)) hcd
        (fun h => absurd (mem_pipeText h) (by decide))]
      simp only [tree, tree_text, ih (List.cons_ne_nil d p), List.map_cons, pipeTree]
      rfl

theorem tree_serialText (line : List (List Simple)) (hl : line ≠ []) (hp : ∀ p ∈ line, p ≠ []) :
    tree (Command.ofLine (strip space (serialText line))) =
      some (serialTree (line.map (·.map Simple.words))) := by
  induction line with
  | nil => exact absurd rfl hl
  | cons p line ih =>
    rw [List.forall_mem_cons] at hp
    cases line with
    | nil => simpa [serialText, serialTree] using tree_pipeText p hp.1
    | cons q line =>
      have htext : serialText (p :: q :: line) = pipeText p ++ semicolon :: serialText (q :: line) :=
        intercalate_cons _ _ _
      have hblank : ¬ Blank space (pipeText p ++ semicolon :: serialText (q :: line)) :=
        not_blank_of_mem (x := semicolon) (by simp) (by decide)
      rw [htext, Command.ofLine_strip hblank, Command.ofLine_serial
        (fun h => absurd (mem_pipeText h) (by decide)) (not_cd_pipeText p)
        (ampersand_not_mem_serialText (q :: line))]
      simp only [tree, tree_pipeText p hp.1, ih (List.cons_ne_nil q line) hp.2, List.map_cons,
        serialTree]
      rfl

/-- Wherever the line stands in the memory of either shell, `runcmd` of `ysh` makes the calls
of a command whose tree `parsecmd` of `sh` builds and leaves in its buffer. -/
theorem shells_agree (l : CommandLine) :
    ∃ c, tree c = some (serialTree l.argvs) ∧
      (∀ (m : Bytes) (p : Int) (depth : Nat) (addr : Addr) (k : Bool → Prog Addr),
        Holds m p l.text → m.length < 2 ^ 32 → l.text.length < depth →
        Ysh.runcmd depth m p addr k = c.prog addr k) ∧
      ∀ (m : Bytes) (s : Int) (z : Bytes), LineEnd z → Holds m s (l.text ++ z) →
        m.length < 2 ^ 32 →
        ∃ cmd m', Sh.parsecmd m s = .ok (cmd, m') ∧ strings m' cmd = some (serialTree l.argvs) := by
  have hblank : ¬ Blank space l.text := by
    obtain ⟨c, hmem, hc⟩ := l.visible
    exact not_blank_of_mem hmem hc
  refine ⟨Command.ofLine l.text, ?_, ?_, ?_⟩
  · rw [← Command.ofLine_strip hblank]
    exact tree_serialText l.pipelines l.nonempty l.pipes
  · intro m p depth addr k hholds hm hdepth
    rw [runcmd_of_holds depth m p l.text addr k hholds hblank hdepth hm,
      Command.ofDepth_of_lt hdepth]
  · intro m s z hz hholds hm
    refine parsecmd_serials hholds hm (serials_text l.pipelines l.nonempty l.pipes hz) ?_
    intro q hq ws hws
    obtain ⟨p, _, rfl⟩ := List.mem_map.mp hq
    obtain ⟨c, _, rfl⟩ := List.mem_map.mp hws
    exact Nat.lt_succ_of_le c.short

/-- ` ls  |wc; ` with a newline behind it. -/
def listing : CommandLine where
  pipelines := [[⟨1, [literal ['l', 's']], 2, by decide, by decide, by decide, by decide⟩,
    ⟨0, [literal ['w', 'c']], 0, by decide, by decide, by decide, by decide⟩],
    [⟨1, [], 0, by decide, by decide, by decide, by decide⟩]]
  nonempty := by decide
  pipes := by decide
  visible := ⟨'l'.toUInt8, by decide, by decide⟩

theorem shells_agree_listing : ∃ cmd m',
    Sh.parsecmd (listing.text ++ ['
'.toUInt8, 0]) 0 = .ok (cmd, m') ∧
      strings m' cmd = some (.list (.pipe (.exec [literal ['l', 's']]) (.exec [literal ['w', 'c']]))
        (.exec [])) := by
  obtain ⟨_, _, _, hsh⟩ := shells_agree listing
  refine hsh _ 0 ['
'.toUInt8] (.inr rfl) ⟨⟨[], [], ?_, rfl⟩, by decide⟩ (by decide)
  simp

end Xv6.Guarantees.ShellsAgree
