import Xv6.Shell.LineBuffer

/-!
# The words of a command

`runcmd` cuts a simple command at every space. Outer spaces are trimmed before, but between
two spaces in the middle of the line there is an empty argument.
-/
namespace Xv6.Guarantees.ArgumentWords

open Xv6.Library.Pieces
open Xv6.Source.Ulib Xv6.Source.Proc Xv6.Source.Ysh Xv6.Shell

/-- The calls that run a program with these arguments and wait for it. -/
def execCalls (argv : List Bytes) (addr : Addr) (k : Bool → Prog Addr) : Prog Addr :=
  .fork (addr ++ [.exec]) (.exec addr argv (.wait (k true))) (.wait (k true))

/-- A line with one command, which is neither `exit` nor `cd`. -/
structure Simple (w : Bytes) : Prop where
  plain : ampersand ∉ w ∧ semicolon ∉ w ∧ bar ∉ w
  first : ∀ u ∈ (words space w).head?, u ≠ exitWord ∧ u ≠ cdWord.dropLast
  count : 1 ≤ (words space w).length ∧ (words space w).length ≤ maxArgs - 1

section simple
variable {w : Bytes}

theorem Simple.strip_ne_nil (h : Simple w) : strip space w ≠ [] := by
  intro hnil
  have hcount := h.count.1
  rw [← words_strip, hnil] at hcount
  exact absurd hcount (by decide)

/-- A simple line is read as one program with its arguments. -/
theorem Simple.ofPiece (h : Simple w) (sub : Bytes → Command) :
    Command.ofPiece sub (strip space w) = .exec ((strip space w).splitOn space) := by
  have hfirst := h.first
  rw [← words_strip] at hfirst
  have hexit : strip space w ≠ exitWord := by
    intro heq
    rw [heq] at hfirst
    exact (hfirst exitWord rfl).1 rfl
  have hcd : ¬ cdWord <+: strip space w := by
    rintro ⟨path, heq⟩
    have hwords : words space (strip space w) = cdWord.dropLast :: words space path := by
      have hcut : (cdWord ++ path).splitOn space = cdWord.dropLast :: path.splitOn space :=
        splitOn_cut (c := space) (u := cdWord.dropLast) (by decide)
      rw [← heq, words, hcut]
      rfl
    rw [hwords] at hfirst
    exact (hfirst _ rfl).2 rfl
  have hamp : (strip space w).getLast? ≠ some ampersand :=
    fun heq => h.plain.1 (mem_of_mem_strip (List.mem_of_getLast? heq))
  have hsemi : semicolon ∉ strip space w := fun hmem => h.plain.2.1 (mem_of_mem_strip hmem)
  have hbar : bar ∉ strip space w := fun hmem => h.plain.2.2 (mem_of_mem_strip hmem)
  rw [Command.ofPiece, if_neg h.strip_ne_nil, if_neg hexit, if_neg hcd, if_neg hamp, if_neg hsemi,
    if_neg hbar]

end simple

/-- The arguments of a simple command are its words if and only if no two spaces follow each
other inside of it. -/
theorem exec_gets_words_iff {m w : Bytes} {p : Int} {depth : Nat} (hholds : Holds m p w)
    (hm : m.length < 2 ^ 32) (hdepth : w.length < depth) (hsimple : Simple w) (addr : Addr)
    (k : Bool → Prog Addr) :
    runcmd depth m p addr k = execCalls (words space w) addr k ↔ ¬ [space, space] <:+: strip space w := by
  have hne := hsimple.strip_ne_nil
  have hblank : ¬ Blank space w := fun hb => hne (strip_eq_nil_iff.mpr hb.2)
  have hw : w ≠ [] := by
    intro hnil
    rw [hnil] at hne
    exact hne rfl
  have hcount := hsimple.count.2
  rw [runcmd_of_holds depth m p w addr k hholds hblank hdepth hm, Command.ofDepth_of_lt hdepth,
    Command.ofLine_eq hw, hsimple.ofPiece, ← (trimmed_strip space w).splitOn_eq_words_iff hne,
    words_strip, Command.prog]
  constructor
  · intro heq
    split at heq
    · injection heq with _ hchild
      injection hchild
    · cases heq
  · intro heq
    rw [heq, if_pos (Nat.lt_of_le_of_lt hcount (by decide))]
    rfl

/-- `ls  a` with two spaces between the words. -/
def doubled : Bytes := literal ['l', 's', ' ', ' ', 'a']

theorem exec_gets_words_single_spaces :
    runcmd bufSize (literal ['l', 's', ' ', 'a', '\x00']) 0 [] .ret =
      execCalls [literal ['l', 's'], literal ['a']] [] .ret := by
  refine (exec_gets_words_iff (w := literal ['l', 's', ' ', 'a']) ⟨⟨[], [], rfl, rfl⟩, by decide⟩
    (by decide) (by decide) ⟨by decide, by decide, by decide⟩ [] .ret).mpr ?_
  decide

/-- The program gets three arguments, the one in the middle empty. -/
theorem doubled_space_empty_argument :
    runcmd bufSize (doubled ++ [0]) 0 [] .ret =
      execCalls [literal ['l', 's'], [], literal ['a']] [] .ret ∧
    words space doubled = [literal ['l', 's'], literal ['a']] ∧
    runcmd bufSize (doubled ++ [0]) 0 [] .ret ≠ execCalls (words space doubled) [] .ret := by
  have hholds : Holds (doubled ++ [0]) 0 doubled := ⟨⟨[], [], rfl, rfl⟩, by decide⟩
  have hrun : runcmd bufSize (doubled ++ [0]) 0 [] .ret =
      execCalls [literal ['l', 's'], [], literal ['a']] [] .ret := by
    rw [runcmd_line hholds (by decide) (by decide)]
    rfl
  refine ⟨hrun, by decide, fun heq => ?_⟩
  rw [hrun] at heq
  injection heq with _ hchild
  injection hchild with _ hargv
  exact absurd hargv (by decide)

end Xv6.Guarantees.ArgumentWords
