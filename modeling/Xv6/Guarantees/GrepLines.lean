import Xv6.Library.Pieces
import Xv6.Source.Grep

/-!
# grep's lines do not depend on its reads

The buffer holds a part of a line between two reads. Each read adds to it, the lines that are complete
are matched and written, and what is left is moved to the front. A line of 1023 bytes fills the buffer.
-/
namespace Xv6.Guarantees.GrepLines

open Xv6.Library.Pieces Xv6.Source.Ulib Xv6.Source.Grep

/-- The lines that are complete, without their newlines. -/
def complete (w : Bytes) : List Bytes := (w.splitOn newline).dropLast

/-- What stands behind the last newline. -/
def rest (w : Bytes) : Bytes := (w.splitOn newline).getLastD []

/-- What grep writes for these lines. -/
def matching (pattern : Bytes) (ls : List Bytes) : List Bytes := (ls.filter (matchRe pattern)).map (· ++ [newline])

section cutting
variable {u v w : Bytes}

theorem complete_line (h : newline ∉ u) : complete (u ++ newline :: v) = u :: complete v := by
  rw [complete, splitOn_cut h, List.dropLast_cons_of_ne_nil (List.splitOn_ne_nil _ _), complete]

theorem rest_line (h : newline ∉ u) : rest (u ++ newline :: v) = rest v := by
  have hne : v.splitOn newline ≠ [] := List.splitOn_ne_nil _ _
  simp [rest, splitOn_cut h, List.getLast?_cons, List.getLast?_eq_some_getLast hne]

theorem complete_open (h : newline ∉ w) : complete w = [] := by
  rw [complete, List.splitOn_eq_singleton h]
  rfl

theorem rest_open (h : newline ∉ w) : rest w = w := by
  rw [rest, List.splitOn_eq_singleton h]
  rfl

/-- A text has no newline, or a first line. -/
theorem open_or_line (w : Bytes) : newline ∉ w ∨ ∃ u v, w = u ++ newline :: v ∧ newline ∉ u := by
  by_cases h : newline ∈ w
  · exact .inr (List.eq_append_cons_of_mem h)
  · exact .inl h

theorem rest_spec (w : Bytes) : newline ∉ rest w ∧ rest w <:+ w := by
  induction hn : w.length using Nat.strong_induction_on generalizing w with
  | _ n ih =>
    subst hn
    rcases open_or_line w with h | ⟨u, v, rfl, hu⟩
    · rw [rest_open h]
      exact ⟨h, List.suffix_refl w⟩
    · obtain ⟨hnot, hsuffix⟩ := ih v.length (by simp; omega) v rfl
      rw [rest_line hu]
      exact ⟨hnot, (hsuffix.trans (List.suffix_cons ..)).trans (List.suffix_append ..)⟩

/-- Reading on behind a part of the text. -/
theorem complete_append (w x : Bytes) : complete (w ++ x) = complete w ++ complete (rest w ++ x) ∧
    rest (w ++ x) = rest (rest w ++ x) := by
  induction hn : w.length using Nat.strong_induction_on generalizing w with
  | _ n ih =>
    subst hn
    rcases open_or_line w with h | ⟨u, v, rfl, hu⟩
    · rw [complete_open h, rest_open h]
      exact ⟨rfl, rfl⟩
    · obtain ⟨hc, hr⟩ := ih v.length (by simp; omega) v rfl
      rw [List.append_assoc, List.cons_append, complete_line hu, complete_line hu, rest_line hu, rest_line hu, hc, hr]
      exact ⟨rfl, rfl⟩

/-- The start of a text of complete lines is a part of the first of them. -/
theorem part_le {n : Nat} (h : newline ∉ u) (hrest : rest (u ++ v) = []) (hshort : ∀ l ∈ complete (u ++ v), l.length < n)
    (hne : u ≠ []) : u.length < n := by
  rcases open_or_line (u ++ v) with hopen | ⟨x, y, heq, hx⟩
  · rw [rest_open hopen] at hrest
    exact absurd (List.append_eq_nil_iff.mp hrest).1 hne
  · have hline := hshort x (by rw [heq, complete_line hx]; exact List.mem_cons_self)
    suffices hle : u.length ≤ x.length by omega
    by_contra hlt
    have hget : (u ++ v)[x.length]? = some newline := by rw [heq]; simp
    rw [List.getElem?_append_left (by omega)] at hget
    exact h (List.mem_of_getElem? hget)

end cutting

section buffer
variable {buf : Bytes} {p : Int} {w pattern : Bytes}

/-- Taking back the NUL at the end of a line. -/
theorem store_back {u v : Bytes} (h : Holds buf p (u ++ newline :: v)) {cut : Bytes}
    (hs : store buf (p + u.length) 0 = some cut) : store cut (p + u.length) newline = some buf := by
  obtain ⟨⟨pre, post, rfl, rfl⟩, -⟩ := h
  have hcut := store_append (c := newline) (pre ++ u) (v ++ 0 :: post) 0
  have hback := store_append (c := 0) (pre ++ u) (v ++ 0 :: post) newline
  simp only [List.length_append, Int.natCast_add, List.append_assoc, List.cons_append] at hcut hback hs
  rw [hcut] at hs
  cases hs
  simpa using hback

theorem lines_spec (pattern : Bytes) (rounds : Nat) : ∀ (buf : Bytes) (p : Int) (w : Bytes), Holds buf p w → w.length < rounds →
    ∃ buf', lines pattern rounds buf p =
        some (buf', p + ((w.length : Int) - (rest w).length), matching pattern (complete w)) ∧
      Holds buf' (p + ((w.length : Int) - (rest w).length)) (rest w) ∧ buf'.length = buf.length := by
  induction rounds with
  | zero => intro buf p w _ h; omega
  | succ rounds ih =>
    intro buf p w h hw
    rcases open_or_line w with hopen | ⟨u, v, rfl, hu⟩
    · rw [rest_open hopen, complete_open hopen, Int.sub_self, Int.add_zero]
      refine ⟨buf, ?_, h, rfl⟩
      rw [lines, h.strchr (by decide), if_neg hopen]
      rfl
    · obtain ⟨cut, hs, htext, hnext, hlen⟩ := h.cut
      have hmem : newline ∈ u ++ newline :: v := by simp
      have hidx : (u ++ newline :: v).idxOf newline = u.length := by simp [List.idxOf_append_of_notMem hu]
      have hend : p + (((u ++ newline :: v).length : Int) - (rest v).length) =
          p + u.length + 1 + ((v.length : Int) - (rest v).length) := by
        simp
        omega
      have hlt : v.length < rounds := by
        simp at hw
        omega
      rw [complete_line hu, rest_line hu, hend]
      simp only [lines, h.strchr (by decide : newline ≠ 0), if_pos hmem, hidx, hs, Option.bind_some, htext.cstring]
      by_cases hmatch : matchRe pattern u = true
      · have hback := store_back h hs
        have hv : Holds buf (p + u.length + 1) v := by
          have h' : Holds buf p ((u ++ [newline]) ++ v) := by simpa using h
          have := h'.suffix
          rwa [List.length_append, Int.natCast_add, ← Int.add_assoc] at this
        obtain ⟨post, hd⟩ := h.deref
        obtain ⟨buf', hlines, hholds, hlen'⟩ := ih buf _ v hv hlt
        refine ⟨buf', ?_, hholds, hlen'⟩
        have hout : (p + u.length + 1 - p).toNat = (u ++ [newline]).length := by simp; omega
        rw [if_pos hmatch, hback, Option.bind_some, hd, Option.bind_some, hlines, hout]
        simp [matching, hmatch, List.take_append, List.take_of_length_le]
      · obtain ⟨buf', hlines, hholds, hlen'⟩ := ih cut _ v hnext hlt
        refine ⟨buf', ?_, hholds, hlen'.trans hlen⟩
        rw [if_neg hmatch, hlines]
        simp [matching, hmatch]

/-- `read` fills the place behind the part of a line, and the NUL goes behind it. -/
theorem fill_spec (chunk : Bytes) : ∀ (part free : Bytes), chunk.length ≤ free.length →
    fill (part ++ free) part.length chunk = some (part ++ (chunk ++ free.drop chunk.length)) := by
  induction chunk with
  | nil => simp [fill]
  | cons c chunk ih =>
    intro part free h
    cases free with
    | nil => simp at h
    | cons x free =>
      have hnext := ih (part ++ [c]) free (by simpa using h)
      rw [List.length_append, Int.natCast_add] at hnext
      simpa [fill, store_append] using hnext

theorem filled_holds {part free chunk : Bytes} (hroom : chunk.length < free.length) (hclean : (0 : UInt8) ∉ part ++ chunk) :
    ∃ buf buf', fill (part ++ free) part.length chunk = some buf ∧
      store buf (part.length + chunk.length : Nat) 0 = some buf' ∧ Holds buf' 0 (part ++ chunk) ∧
      buf'.length = (part ++ free).length := by
  obtain ⟨x, post, hpost⟩ := List.exists_cons_of_ne_nil
    (show free.drop chunk.length ≠ [] by simpa [List.drop_eq_nil_iff] using hroom)
  have hstore := store_append (c := x) (part ++ chunk) post 0
  rw [List.length_append, List.append_assoc] at hstore
  refine ⟨_, (part ++ chunk) ++ 0 :: post, fill_spec chunk part free (by omega), ?_, ⟨⟨[], post, by simp, rfl⟩, hclean⟩, ?_⟩
  · rw [hpost, hstore]
  · have hlen := congrArg List.length hpost
    simp at hlen ⊢
    omega

/-- The rest of the lines is moved to the front. -/
theorem moved_front {q : Nat} (h : Holds buf q w) : ∃ free, memmove buf 0 q w.length = some (w ++ free) ∧
    (w ++ free).length = buf.length := by
  have hend := h.end_lt
  obtain ⟨buf', hmove, hcopied⟩ := @memmove_copied buf 0 q w.length (by omega) (by omega)
  obtain ⟨⟨pre, post, rfl, hq⟩, -⟩ := h
  obtain rfl : q = pre.length := by omega
  have hfront : buf'.take w.length = w := by
    apply List.ext_getElem?
    intro i
    rw [List.getElem?_take]
    split
    · rw [hcopied.get i, if_pos (by omega), List.getElem?_append_right (by omega), List.getElem?_append_left (by omega)]
      congr 1
      omega
    · rw [List.getElem?_eq_none (by omega)]
  have hsplit := List.take_append_drop w.length buf'
  rw [hfront] at hsplit
  exact ⟨buf'.drop w.length, by rw [hsplit]; exact hmove, by rw [hsplit]; exact hcopied.length⟩

end buffer

section file
variable {pattern : Bytes} {more : Nat → Nat}

/-- The part of a line in the buffer and the input behind it are a text of complete lines, each of
which fits the buffer. -/
structure Readable (part input : Bytes) : Prop where
  clean : (0 : UInt8) ∉ part ++ input
  opened : newline ∉ part
  ends : rest (part ++ input) = []
  short : ∀ l ∈ complete (part ++ input), l.length + 1 < bufSize

theorem Readable.read {part chunk input : Bytes} (h : Readable part (chunk ++ input)) :
    Readable (rest (part ++ chunk)) input ∧ complete (part ++ (chunk ++ input)) =
      complete (part ++ chunk) ++ complete (rest (part ++ chunk) ++ input) := by
  obtain ⟨hc, hr⟩ := complete_append (part ++ chunk) input
  rw [List.append_assoc] at hc hr
  obtain ⟨hopen, hsuffix⟩ := rest_spec (part ++ chunk)
  refine ⟨⟨fun h0 => h.clean ?_, hopen, by rw [← hr]; exact h.ends, fun l hl => h.short l ?_⟩, hc⟩
  · rw [← List.append_assoc]
    exact (List.mem_append.mp h0).elim (fun h0 => List.mem_append_left _ (hsuffix.subset h0)) (List.mem_append_right _)
  · rw [hc]
    exact List.mem_append_right _ hl

theorem Readable.room {part input : Bytes} (h : Readable part input) : part.length + 1 < bufSize := by
  by_cases hne : part = []
  · subst hne
    decide
  · have := part_le (n := bufSize - 1) h.opened h.ends (fun l hl => by have := h.short l hl; omega) hne
    omega

theorem grepLoop_spec (pattern : Bytes) (more : Nat → Nat) (rounds : Nat) : ∀ (part free input : Bytes), (part ++ free).length = bufSize →
    Readable part input → input.length < rounds →
    grepLoop pattern more rounds (part ++ free) part.length input =
      some (matching pattern (complete (part ++ input))) := by
  induction rounds with
  | zero => intro part free input _ _ h; omega
  | succ rounds ih =>
    intro part free input hbuf hread hin
    have hroom := hread.room
    obtain ⟨chunk, input', hsplit, hchunk⟩ : ∃ chunk input', read (more rounds) (bufSize - part.length - 1) input =
        (chunk, input') ∧ input = chunk ++ input' ∧ chunk.length ≤ bufSize - part.length - 1 ∧ (chunk = [] → input = []) := by
      refine ⟨_, _, List.splitAt_eq .., (List.take_append_drop ..).symm, ?_, ?_⟩
      · rw [List.length_take]
        omega
      · intro h
        have hlen := congrArg List.length h
        rw [List.length_take, List.length_nil] at hlen
        exact List.eq_nil_of_length_eq_zero (by omega)
    obtain ⟨rfl, hle, hnil⟩ := hchunk
    rw [grepLoop, hsplit]
    dsimp only
    by_cases hc : chunk = []
    · have hends := hread.ends
      rw [hnil hc, List.append_nil, rest_open hread.opened] at hends
      rw [hnil hc, hends, List.append_nil, complete_open (by simp), if_pos hc]
      rfl
    · obtain ⟨hnext, hlines⟩ := hread.read
      have hclean : (0 : UInt8) ∉ part ++ chunk := fun h0 =>
        hread.clean (by rw [← List.append_assoc]; exact List.mem_append_left _ h0)
      have hfree : chunk.length < free.length := by
        rw [List.length_append] at hbuf
        omega
      obtain ⟨buf₀, buf₁, hfill, hstore, hholds, hlen₁⟩ := filled_holds hfree hclean
      obtain ⟨buf₂, hloop, hholds₂, hlen₂⟩ := lines_spec pattern (part.length + chunk.length + 1) buf₁ 0 _
        hholds (by simp)
      have hle' := (rest_spec (part ++ chunk)).2.length_le
      have hq : (0 + (((part ++ chunk).length : Int) - (rest (part ++ chunk)).length)) =
          ((part ++ chunk).length - (rest (part ++ chunk)).length : Nat) := by omega
      rw [hq] at hloop hholds₂
      have hrest : ((part.length + chunk.length : Nat) : Int) -
          ((part ++ chunk).length - (rest (part ++ chunk)).length : Nat) = (rest (part ++ chunk)).length := by
        rw [← List.length_append]
        omega
      obtain ⟨free', hmove, hlen₃⟩ := moved_front hholds₂
      have hgo := ih _ free' input' (by omega) hnext (by
        have := List.length_pos_of_ne_nil hc
        rw [List.length_append] at hin
        omega)
      rw [if_neg hc, hfill, Option.bind_some, hstore, Option.bind_some, hloop, Option.bind_some]
      dsimp only
      rw [hrest, hmove, Option.bind_some, Int.toNat_natCast, hgo, hlines]
      simp [matching]

theorem complete_lines (ls : List Bytes) (h : ∀ l ∈ ls, newline ∉ l) :
    complete (ls.flatMap (· ++ [newline])) = ls ∧ rest (ls.flatMap (· ++ [newline])) = [] := by
  induction ls with
  | nil => exact ⟨complete_open (by simp), rest_open (by simp)⟩
  | cons l ls ih =>
    obtain ⟨hl, hls⟩ := List.forall_mem_cons.mp h
    obtain ⟨hc, hr⟩ := ih hls
    rw [List.flatMap_cons, List.append_assoc, List.singleton_append, complete_line hl, rest_line hl, hc, hr]
    exact ⟨rfl, rfl⟩

/-- grep writes the matching lines in order, however the calls of `read` cut the input. -/
theorem grep_writes_matching_lines (pattern : Bytes) (more : Nat → Nat) (buf : Bytes) (hbuf : buf.length = bufSize)
    (ls : List Bytes) (hls : ∀ l ∈ ls, newline ∉ l ∧ (0 : UInt8) ∉ l ∧ l.length + 1 < bufSize) :
    grep pattern more buf (ls.flatMap (· ++ [newline])) =
      some ((ls.filter (matchRe pattern)).map (· ++ [newline])) := by
  obtain ⟨hc, hr⟩ := complete_lines ls fun l hl => (hls l hl).1
  have hread : Readable [] (ls.flatMap (· ++ [newline])) := by
    refine ⟨?_, by simp, hr, ?_⟩
    · intro h0
      obtain ⟨l, hl, h0⟩ := List.mem_flatMap.mp h0
      rcases List.mem_append.mp h0 with h0 | h0
      · exact (hls l hl).2.1 h0
      · exact absurd (List.mem_singleton.mp h0) (by decide)
    · rw [List.nil_append, hc]
      exact fun l hl => (hls l hl).2.2
  have hloop := grepLoop_spec pattern more _ [] buf _ hbuf hread (Nat.lt_succ_self _)
  rw [List.nil_append, List.nil_append, hc] at hloop
  exact hloop

end file

/-- The lines `ab` and `c`, read byte by byte, and the pattern `b$`. -/
theorem grep_writes_matching_lines_bytewise :
    grep (literal ['b', '$']) (fun _ => 0) (List.replicate bufSize 0) (literal ['a', 'b', '\n', 'c', '\n']) =
      some [literal ['a', 'b', '\n']] := by
  have h := grep_writes_matching_lines (literal ['b', '$']) (fun _ => 0) (List.replicate bufSize 0)
    List.length_replicate [literal ['a', 'b'], literal ['c']] (by decide)
  exact h.trans (by decide)

end Xv6.Guarantees.GrepLines
