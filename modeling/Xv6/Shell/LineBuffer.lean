import Xv6.Shell.Command

/-!
# runcmd runs the command of its line

The string functions and loops of `runcmd` on a buffer that holds a string, and the
induction over its recursion: in place of the pieces of the string it has pointers
into the buffer that hold them.
-/
namespace Xv6.Shell

open Xv6.Library.Pieces
open Xv6.Source.Ulib Xv6.Source.Proc Xv6.Source.Ysh

section loops
variable {m : Bytes} {p : Int} {t u : Bytes}

@[simp] theorem access_some {β : Type} (x : β) (next : β → Prog Addr) :
    access (some x) next = next x := rfl

@[simp] theorem access_none {β : Type} (next : β → Prog Addr) : access none next = .fault := rfl

theorem leading_replicate (a : Nat) {rest : Bytes} (h : rest ≠ []) (hr : rest.head? ≠ some space) :
    leading (List.replicate a space ++ rest) = some a := by
  induction a with
  | zero =>
    obtain ⟨c, rest, rfl⟩ := List.exists_cons_of_ne_nil h
    have hc : c ≠ space := fun e => hr (by simp [e])
    simp [leading, hc]
  | succ a ih =>
    rw [List.replicate_succ, List.cons_append, leading, if_pos rfl, ih]
    rfl

theorem skip_of_holds {a : Nat} (h : Holds m p (List.replicate a space ++ u))
    (hu : u.head? ≠ some space) : skip m p = some (p + a) := by
  obtain ⟨post, hd⟩ := h.deref
  have hne : u ++ 0 :: post ≠ [] := by simp
  have hhead : (u ++ 0 :: post).head? ≠ some space := by
    cases u with
    | nil => exact fun h => absurd (Option.some.inj h) (by decide)
    | cons c u => simpa using hu
  rw [skip, hd, Option.bind_some, List.append_assoc, leading_replicate a hne hhead]
  rfl

/-- The loop that writes over the trailing spaces stops at the last other byte. -/
theorem trimDown_spec {x : UInt8} (hx : x ≠ space) (b : Nat) :
    ∀ (m : Bytes) (c : Nat), Holds m p (u ++ x :: List.replicate b space) →
      (c : Int) = p + u.length + 1 + b →
      ∃ m', trimDown c m = some m' ∧ Holds m' p (u ++ [x]) ∧ m'.length = m.length := by
  induction b with
  | zero =>
    intro m c h hc
    obtain ⟨c, rfl⟩ : ∃ k, c = k + 1 := ⟨c - 1, by have := h.nonneg; omega⟩
    have hl : load m c = some x := by
      rw [← h.load]
      congr 1
      omega
    refine ⟨m, ?_, by simpa using h, rfl⟩
    simp only [trimDown, hl, if_neg hx]
  | succ b ih =>
    intro m c h hc
    obtain ⟨c, rfl⟩ : ∃ k, c = k + 1 := ⟨c - 1, by have := h.nonneg; omega⟩
    have hsplit : u ++ x :: List.replicate (b + 1) space =
        (u ++ x :: List.replicate b space) ++ space :: [] := by
      simp [List.replicate_succ']
    rw [hsplit] at h
    have hpos : (c : Int) = p + (u ++ x :: List.replicate b space).length := by
      simp only [List.length_append, List.length_cons, List.length_replicate]
      omega
    obtain ⟨m₁, hs, h₁, _, hlen⟩ := h.cut
    obtain ⟨m', ht, h', hlen'⟩ := ih m₁ c h₁ (by omega)
    refine ⟨m', ?_, h', by omega⟩
    rw [trimDown, hpos, h.load]
    simp only [if_true, hs, Option.bind_some, ht]

/-- On a buffer that begins with spaces the loop runs out of its front. -/
theorem trimDown_blank (b : Nat) : ∀ rest : Bytes,
    trimDown b (List.replicate b space ++ rest) = none := by
  induction b with
  | zero => intro rest; rfl
  | succ b ih =>
    intro rest
    have hsplit : List.replicate (b + 1) space ++ rest = List.replicate b space ++ space :: rest := by
      simp [List.replicate_succ']
    have hl : load (List.replicate b space ++ space :: rest) b = some space := by
      have hd := deref_append (List.replicate b space) (space :: rest)
      rw [List.length_replicate] at hd
      simp [load, hd]
    have hs := store_append (c := space) (List.replicate b space) rest 0
    rw [List.length_replicate] at hs
    rw [hsplit, trimDown, hl]
    simp only [if_true, hs, Option.bind_some]
    exact ih _

theorem trim_of_holds {b : Nat} (h : Holds m p (t ++ List.replicate b space)) (ht : t ≠ [])
    (hlast : t.getLast? ≠ some space) (hm : m.length < 2 ^ 32) :
    ∃ m', trim m p = some m' ∧ Holds m' p t ∧ m'.length = m.length := by
  obtain ⟨u, x, rfl⟩ := (List.eq_nil_or_concat' t).resolve_left ht
  have hx : x ≠ space := fun e => hlast (by simp [e])
  rw [List.append_assoc, List.singleton_append] at h
  have hend := h.end_lt
  have hnn := h.nonneg
  have hmod : (u ++ x :: List.replicate b space).length % 2 ^ 32 =
      (u ++ x :: List.replicate b space).length := Nat.mod_eq_of_lt (by omega)
  simp only [trim, h.strlen, Option.bind_some, UInt32.toNat_ofNat', hmod]
  apply trimDown_spec hx b m _ h
  simp only [List.length_append, List.length_cons, List.length_replicate]
  omega

theorem lastIndex_of_holds {x : UInt8} (h : Holds m p (u ++ [x])) (hm : m.length < 2 ^ 32) :
    lastIndex m p = some (p + u.length) := by
  have hend := h.end_lt
  have hnn := h.nonneg
  simp only [List.length_append, List.length_singleton] at hend
  have hsub : (UInt32.ofNat (u ++ [x]).length - 1).toNat = u.length := by
    have h1 : (1 : UInt32) = UInt32.ofNat 1 := rfl
    rw [h1, List.length_append, List.length_singleton, ← UInt32.ofNat_sub (by omega),
      UInt32.toNat_ofNat', Nat.mod_eq_of_lt (by omega)]
    omega
  simp only [lastIndex, h.strlen, Option.map_some, hsub]

end loops

section words
variable {m : Bytes} {p : Int} {w : Bytes}

/-- What the pointers of `argv` hold, all in front of `cmd`. -/
abbrev Filled (m : Bytes) (cmd : Int) : List Int → List Bytes → Prop :=
  List.Forall₂ fun q u => Holds m q u ∧ q + u.length < cmd

theorem Filled.store {m m' : Bytes} {cmd q : Int} {c : UInt8} {argv : List Int} {ws : List Bytes}
    (h : Filled m cmd argv ws) (hq : cmd ≤ q) (hs : store m q c = some m') : Filled m' cmd argv ws :=
  h.imp fun _ _ hu => ⟨hu.1.frame (by omega) hs, hu.2⟩

/-- The loop that fills `argv` finds the words of the string, and has room for them and
the null pointer or leaves the array. -/
theorem split_spec (room : Nat) :
    ∀ (m : Bytes) (cmd : Int) (w : Bytes) (argv : List Int) (ws : List Bytes), Holds m cmd w →
      Filled m cmd argv ws →
      if (w.splitOn space).length < room then
        ∃ m' argv', split room m cmd argv = some (m', argv') ∧
          List.Forall₂ (Holds m') argv' (ws ++ w.splitOn space)
      else split room m cmd argv = none := by
  induction room with
  | zero =>
    intro m cmd w argv ws _ _
    rw [if_neg (Nat.not_lt_zero _)]
    rfl
  | succ room ih =>
    intro m cmd w argv ws h hf
    by_cases hw : space ∈ w
    · obtain ⟨u, v, rfl, hu⟩ := List.eq_append_cons_of_mem hw
      obtain ⟨m₁, hs, hl, hr, _⟩ := h.cut
      have hchr : strchr m cmd space = some (some (cmd + u.length)) := by
        rw [h.strchr (by decide), if_pos hw, idxOf_append_cons hu]
      have hf₁ : Filled m₁ (cmd + u.length + 1) (argv ++ [cmd]) (ws ++ [u]) := by
        refine List.rel_append ?_ (.cons ⟨hl, by omega⟩ .nil)
        exact (hf.store (by omega) hs).imp fun _ _ hq => ⟨hq.1, by omega⟩
      have hnext := ih m₁ (cmd + u.length + 1) v (argv ++ [cmd]) (ws ++ [u]) hr hf₁
      have hstep : split (room + 1) m cmd argv =
          split room m₁ (cmd + u.length + 1) (argv ++ [cmd]) := by
        rw [split, hchr]
        simp only [hs, Option.bind_some]
      rw [hstep, splitOn_cut hu, List.length_cons]
      simpa only [Nat.add_lt_add_iff_right, List.append_assoc, List.singleton_append] using hnext
    · have hsplit : w.splitOn space = [w] := List.splitOn_eq_singleton hw
      have hchr : strchr m cmd space = some none := by
        rw [h.strchr (by decide), if_neg hw]
      rw [hsplit, split, hchr]
      by_cases h0 : room = 0
      · simp [h0]
      · have hlt : [w].length < room + 1 := by simp; omega
        rw [if_pos hlt]
        refine ⟨m, argv ++ [cmd], by simp [h0], List.rel_append ?_ (.cons h .nil)⟩
        exact hf.imp fun _ _ hq => hq.1

theorem mapM_cstring {argv : List Int} {ws : List Bytes} (h : List.Forall₂ (Holds m) argv ws) :
    argv.mapM (cstring m) = some ws := by
  induction h with
  | nil => rfl
  | cons hq _ ih => simp [List.mapM_cons, hq.cstring, ih]

theorem arguments_of_holds (h : Holds m p w) :
    arguments m p =
      if (w.splitOn space).length < maxArgs then some (w.splitOn space) else none := by
  have hs := split_spec maxArgs m p w [] [] h .nil
  split at hs
  · next hlt =>
    obtain ⟨m', argv, hsplit, hall⟩ := hs
    rw [arguments, hsplit, if_pos hlt]
    exact mapM_cstring hall
  · next hlt => rw [arguments, hs, if_neg hlt, Option.bind_none]

end words

section runcmd
variable {m : Bytes} {p : Int} {t : Bytes} {addr : Addr} {k : Bool → Prog Addr}

/-- What the recursive calls are asked for: on a pointer to a shorter piece that is not
blank, the calls of the piece's command. -/
def Runs (run : Runner) (sub : Bytes → Command) (bound : Nat) : Prop :=
  ∀ (m : Bytes) (p : Int) (w : Bytes) (addr : Addr) (k : Bool → Prog Addr), Holds m p w →
    ¬ Blank space w → w.length < bound → m.length < 2 ^ 32 → run m p addr k = (sub w).prog addr k

/-- A string that is cut at the first `c`: two calls can go on with its pieces. -/
theorem cut_at {c : UInt8} (h : Holds m p t) (htrim : Trimmed space t) (hc : c ∈ t) :
    ∃ m', store m (p + t.idxOf c) 0 = some m' ∧ m'.length = m.length ∧
      (Holds m' p (upTo c t) ∧ ¬ Blank space (upTo c t)) ∧
      (Holds m' (p + t.idxOf c + 1) (behind c t) ∧ ¬ Blank space (behind c t)) := by
  obtain ⟨u, v, rfl, hu, hup, hbehind, hbu, hbv⟩ := htrim.cut hc
  rw [hup, hbehind, idxOf_append_cons hu]
  obtain ⟨m', hs, hl, hr, hlen⟩ := h.cut
  exact ⟨m', hs, hlen, ⟨hl, hbu⟩, hr, hbv⟩

theorem runTrimmed_of_holds {run : Runner} {sub : Bytes → Command} (ih : Runs run sub t.length)
    (h : Holds m p t) (ht : t ≠ []) (htrim : Trimmed space t) (hm : m.length < 2 ^ 32) :
    runTrimmed run m p addr k = (Command.ofPiece sub t).prog addr k := by
  obtain ⟨r, hr, hexit⟩ := h.strcmp (q := exitWord) (by decide)
  obtain ⟨r', hr', hcd⟩ := h.strncmp (q := cdWord) (by decide)
  have hr3 : strncmp m p cdWord 3 = some r' := hr'
  simp only [runTrimmed, hr, hr3, access_some, hexit, hcd, Command.ofPiece, if_neg ht]
  by_cases he : t = exitWord
  · simp only [if_pos he]
    rfl
  by_cases hc : cdWord <+: t
  · obtain ⟨path, rfl⟩ := hc
    have hpath : cstring m (p + 3) = some path := h.suffix.cstring
    have hdrop : (cdWord ++ path).drop 3 = path := rfl
    simp only [if_neg he, List.prefix_append, if_true, hpath, access_some, hdrop]
    rfl
  obtain ⟨u, x, rfl⟩ := (List.eq_nil_or_concat' t).resolve_left ht
  simp only [if_neg he, if_neg hc, h.strchr (c := semicolon) (by decide),
    h.strchr (c := bar) (by decide), lastIndex_of_holds h hm, h.load, access_some,
    List.getLast?_concat, Option.some.injEq, List.dropLast_concat]
  by_cases hx : x = ampersand
  · obtain ⟨m', hs, hu, _, hlen⟩ := h.cut
    have hrun := ih m' p u (addr ++ [.back]) (fun _ => k true) hu htrim.not_blank_first
      (by simp) (by omega)
    simp only [if_pos hx, hs, access_some, hrun]
    rfl
  simp only [if_neg hx]
  generalize u ++ [x] = t at *
  by_cases hs : semicolon ∈ t
  · obtain ⟨m', hst, hlen, hl, hr⟩ := cut_at h htrim hs
    have hrunl := ih m' p _ (addr ++ [.before]) (fun _ => .exit) hl.1 hl.2 (upTo_length hs) (by omega)
    have hrunr := ih m' _ _ (addr ++ [.after]) (fun _ => k true) hr.1 hr.2 (behind_length hs) (by omega)
    simp only [if_pos hs, hst, access_some, hrunl, hrunr]
    rfl
  by_cases hb : bar ∈ t
  · obtain ⟨m', hst, hlen, hl, hr⟩ := cut_at h htrim hb
    have hrunl := ih m' p _ (addr ++ [.left]) (fun _ => .exit) hl.1 hl.2 (upTo_length hb) (by omega)
    have hrunr := ih m' _ _ (addr ++ [.right]) (fun _ => .exit) hr.1 hr.2 (behind_length hb) (by omega)
    simp only [if_neg hs, if_pos hb, hst, access_some, hrunl, hrunr]
    rfl
  simp only [if_neg hs, if_neg hb, arguments_of_holds h, Command.prog]
  split <;> rfl

/-- `runcmd` on a piece of the line. The induction is on the depth: the pieces that the
recursive calls get are shorter. -/
theorem runcmd_of_holds (n : Nat) : Runs (runcmd n) (Command.ofDepth n) n := by
  induction n with
  | zero => intro m p w addr k _ _ hw; omega
  | succ n ih =>
    intro m p w addr k h hb hw hm
    cases w with
    | nil =>
      simp only [runcmd, h.load_nil, access_some, if_true, Command.ofDepth]
      rfl
    | cons c w =>
      have hc : c ≠ 0 := by
        rintro rfl
        exact h.clean List.mem_cons_self
      have hload := h.load_here
      obtain ⟨a, b, hpad⟩ := strip_spec space (c :: w)
      have hle := strip_length_le space (c :: w)
      have htrim := trimmed_strip space (c :: w)
      have hne : strip space (c :: w) ≠ [] := fun h0 => hb ⟨by simp, strip_eq_nil_iff.mp h0⟩
      simp only [Command.ofDepth, reduceCtorEq, if_false]
      generalize strip space (c :: w) = t at *
      rw [hpad] at h
      have hhead : (t ++ List.replicate b space).head? ≠ some space := by
        rw [List.head?_append_of_ne_nil _ hne]
        exact htrim.1
      have ht := h.suffix
      rw [List.length_replicate] at ht
      obtain ⟨m', htr, ht', hlen⟩ := trim_of_holds ht hne htrim.2 hm
      simp only [runcmd, hload, access_some, if_neg hc, skip_of_holds h hhead, htr]
      refine runTrimmed_of_holds ?_ ht' hne htrim (by omega)
      exact fun m p w addr k h hb hlt => ih m p w addr k h hb (by omega)

/-- At the start of the buffer the trimming loop leaves it on a blank line. -/
theorem runcmd_blank {n : Nat} {w : Bytes} (h : Holds m 0 w) (hb : Blank space w) :
    runcmd (n + 1) m 0 addr k = .fault := by
  obtain ⟨b, rfl⟩ : ∃ b, w = List.replicate b space := ⟨w.length, List.eq_replicate_of_mem hb.2⟩
  cases b with
  | zero => exact absurd rfl hb.1
  | succ b =>
    have hload : load m 0 = some space := h.load_here
    have hpad : Holds m 0 (List.replicate (b + 1) space ++ []) := by simpa using h
    have hskip := skip_of_holds hpad (by simp)
    have hend := hpad.suffix
    have htrim : trim m (0 + (b + 1 : Nat)) = none := by
      rw [List.length_replicate] at hend
      obtain ⟨⟨pre, post, rfl, hpre⟩, _⟩ := h
      obtain rfl : pre = [] := List.eq_nil_of_length_eq_zero (by omega)
      have hpos : (0 + ((b + 1 : Nat) : Int) + ((UInt32.ofNat 0).toNat : Int)).toNat = b + 1 := by
        rw [UInt32.toNat_ofNat']
        omega
      rw [trim, hend.strlen, Option.bind_some, List.length_nil, hpos]
      exact trimDown_blank (b + 1) _
    simp only [runcmd, hload, access_some, hskip, htrim, access_none]
    rfl

/-- `runcmd` on a whole line: the calls of the command that the line stands for. -/
theorem runcmd_line {w : Bytes} (h : Holds m 0 w) (hw : w.length < bufSize)
    (hm : m.length < 2 ^ 32) : runcmd bufSize m 0 addr k = (Command.ofLine w).prog addr k := by
  by_cases hb : Blank space w
  · rw [Command.ofLine_eq hb.1, strip_eq_nil_iff.mpr hb.2, Command.ofPiece, if_pos rfl]
    exact runcmd_blank h hb
  · rw [← Command.ofDepth_of_lt hw]
    exact runcmd_of_holds bufSize m 0 w addr k h hb hw hm

end runcmd
end Xv6.Shell
