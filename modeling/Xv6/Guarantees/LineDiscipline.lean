import Xv6.Console.Turns
import Xv6.Library.Transition

/-!
# The console's line discipline

Whatever is typed, and whatever readers wait and take in between, the console delivers the text of
the line editor, in order, each part once. A read returns at most one line, and a ^D makes one
read return nothing. The indices may wrap, and start anywhere.
-/
namespace Xv6.Guarantees.LineDiscipline

open Xv6.Library Xv6.Source.Console Xv6.Console

variable {Reader : Type}

/-- What the editor sees of a step. -/
def follow (ed : Editor) : Label Reader → Editor
  | .input c => ed.type c
  | .read .. => ed
  | .turn _ taken _ => ed.take taken.length

def editorOf (tr : List (Label Reader)) : Editor := tr.foldl follow .empty

/-- What readers have taken, in this order. -/
def itemsOf (tr : List (Label Reader)) : List Item :=
  tr.flatMap fun
    | .turn _ taken _ => taken
    | _ => []

variable [DecidableEq Reader]

/-- The bytes that have been copied to a reader, and those that its finished calls have returned. -/
def receivedBy (t : Reader) (tr : List (Label Reader)) : List UInt8 :=
  tr.flatMap fun
    | .turn u taken _ => if u = t then bytesOf taken else []
    | _ => []

def returnedTo (t : Reader) (tr : List (Label Reader)) : List UInt8 :=
  tr.flatMap fun
    | .turn u _ (some got) => if u = t then got else []
    | _ => []

def pendingOf (t : Reader) (s : State Reader) : List UInt8 := (s.call t).elim [] Call.got

/-- The console after the steps in `tr`, with its indices at `i` in the beginning. -/
structure Disciplined (i : BitVec 32) (tr : List (Label Reader)) (s : State Reader) : Prop where
  r_eq : s.cons.r = i + BitVec.ofNat 32 (editorOf tr).taken
  w_eq : s.cons.w = i + BitVec.ofNat 32 (editorOf tr).text.length
  e_eq : s.cons.e = i + BitVec.ofNat 32 ((editorOf tr).text.length + (editorOf tr).line.length)
  order : (s.cons.w - s.cons.r).toNat ≤ (s.cons.e - s.cons.r).toNat ∧ (s.cons.e - s.cons.r).toNat ≤ INPUT_BUF_SIZE
  /-- What has been taken is the beginning of the committed text; a ^D in it is an end of file, any other
  character is a byte that a reader has got. -/
  delivered : (itemsOf tr).map charOf = (editorOf tr).text.take (editorOf tr).taken
  items : ∀ x ∈ itemsOf tr, x = .eof ∨ ∃ c, c ≠ C 'D' ∧ x = .byte c
  received : ∀ t, receivedBy t tr = returnedTo t tr ++ pendingOf t s
  line : ∀ t taken got, .turn t taken (some got) ∈ tr → newline ∉ got.dropLast
  eof : ∀ t taken ret, .turn t taken ret ∈ tr → (.eof ∈ taken ↔ ret = some []) ∧ (.eof ∈ taken → taken = [.eof])
  /-- A reader goes to sleep when all of the committed text has been taken. -/
  sleeps : ∀ t taken, tr.getLast? = some (.turn t taken none) → (editorOf tr).taken = (editorOf tr).text.length

/-- What the steps in `tr` have recorded, in a form that goes through each step. -/
structure History (i : BitVec 32) (tr : List (Label Reader)) (s : State Reader) : Prop where
  rel : Rel i (editorOf tr) s.cons
  /-- A call that waits has got less than it asked for, and no complete line. -/
  waiting : ∀ t call, s.call t = some call → call.got.length < call.target ∧ newline ∉ call.got
  delivered : (itemsOf tr).map charOf = (editorOf tr).text.take (editorOf tr).taken
  items : ∀ x ∈ itemsOf tr, x = .eof ∨ ∃ c, c ≠ C 'D' ∧ x = .byte c
  received : ∀ t, receivedBy t tr = returnedTo t tr ++ pendingOf t s
  line : ∀ t taken got, .turn t taken (some got) ∈ tr → newline ∉ got.dropLast
  eof : ∀ t taken ret, .turn t taken ret ∈ tr → (.eof ∈ taken ↔ ret = some []) ∧ (.eof ∈ taken → taken = [.eof])
  sleeps : ∀ t taken, tr.getLast? = some (.turn t taken none) → (editorOf tr).taken = (editorOf tr).text.length

/-- Nothing typed, nobody reading. -/
def Idle (i : BitVec 32) (s : State Reader) : Prop :=
  s.cons.r = i ∧ s.cons.w = i ∧ s.cons.e = i ∧ ∀ t, s.call t = none

omit [DecidableEq Reader] in
theorem editorOf_snoc (tr : List (Label Reader)) (l : Label Reader) : editorOf (tr ++ [l]) = follow (editorOf tr) l := by
  rw [editorOf, List.foldl_append]
  rfl

theorem order_of_rel {i : BitVec 32} {ed : Editor} {s : Cons} (h : Rel i ed s) :
    (s.w - s.r).toNat ≤ (s.e - s.r).toNat ∧ (s.e - s.r).toNat ≤ INPUT_BUF_SIZE := by
  have hle := h.waiting_le
  have hlt := size_lt
  have hw : (s.w - s.r).toNat = ed.text.length - ed.taken := by
    rw [h.w_of_r, BitVec.add_comm, BitVec.add_sub_cancel, BitVec.toNat_ofNat]
    rw [Editor.waiting] at hle
    exact Nat.mod_eq_of_lt (by omega)
  rw [hw, h.waiting_eq]
  refine ⟨?_, hle⟩
  rw [Editor.waiting]
  omega

/-- Typing only adds to the text. -/
theorem text_type (ed : Editor) (c : UInt8) :
    (ed.type c).taken = ed.taken ∧ ∃ more, (ed.type c).text = ed.text ++ more := by
  have hput : ∀ c, (ed.put c).taken = ed.taken ∧ ∃ more, (ed.put c).text = ed.text ++ more := by
    intro c
    rw [Editor.put]
    split
    · exact ⟨rfl, _, rfl⟩
    · exact ⟨rfl, [], (List.append_nil _).symm⟩
  have hsame : ∃ more, ed.text = ed.text ++ more := ⟨[], (List.append_nil _).symm⟩
  rw [Editor.type]
  split_ifs
  · exact ⟨rfl, hsame⟩
  · exact ⟨rfl, hsame⟩
  · exact ⟨rfl, hsame⟩
  · exact ⟨rfl, hsame⟩
  · exact hput _
  · exact hput _

section Steps

variable {i : BitVec 32} {tr : List (Label Reader)} {s s' : State Reader} {t : Reader}

/-- A step that is no turn records nothing. -/
theorem History.quiet {l : Label Reader} (h : History i tr s) (hl : ∀ t taken ret, l ≠ .turn t taken ret)
    (hrel : Rel i (editorOf (tr ++ [l])) s'.cons)
    (hwaiting : ∀ t call, s'.call t = some call → call.got.length < call.target ∧ newline ∉ call.got)
    (hpending : ∀ t, pendingOf t s' = pendingOf t s)
    (htext : (editorOf (tr ++ [l])).text.take (editorOf (tr ++ [l])).taken =
      (editorOf tr).text.take (editorOf tr).taken) : History i (tr ++ [l]) s' := by
  have hmem : ∀ t taken ret, .turn t taken ret ∈ tr ++ [l] → .turn t taken ret ∈ tr := by
    intro t taken ret hin
    rcases List.mem_append.1 hin with hin | hlast
    · exact hin
    · exact absurd (List.mem_singleton.1 hlast).symm (hl t taken ret)
  have hitems : itemsOf (tr ++ [l]) = itemsOf tr := by
    rw [itemsOf, List.flatMap_append]
    cases l with
    | turn t taken ret => exact absurd rfl (hl t taken ret)
    | _ => exact List.append_nil _
  refine ⟨hrel, hwaiting, ?_, ?_, fun t => ?_, fun t taken got hin => h.line t taken got (hmem _ _ _ hin),
    fun t taken ret hin => h.eof t taken ret (hmem _ _ _ hin), fun t taken hlast => ?_⟩
  · rw [hitems, htext]
    exact h.delivered
  · rw [hitems]
    exact h.items
  · have hreceived := h.received t
    rw [hpending t, receivedBy, returnedTo, List.flatMap_append, List.flatMap_append]
    cases l with
    | turn t taken ret => exact absurd rfl (hl t taken ret)
    | _ => simpa [receivedBy, returnedTo] using hreceived
  · rw [List.getLast?_concat] at hlast
    exact absurd (Option.some.inj hlast) (hl t taken none)

theorem History.received_turn {call : Call} {r : Turn} (h : History i tr s) (hcall : s.call t = some call)
    (htakes : Takes i (editorOf tr) call.target call.got r)
    (hcalls : s'.call = Function.update s.call t (if r.done then none else some { call with got := r.got }))
    (u : Reader) :
    receivedBy u (tr ++ [.turn t r.taken (if r.done then some r.got else none)]) =
      returnedTo u (tr ++ [.turn t r.taken (if r.done then some r.got else none)]) ++ pendingOf u s' := by
  have hold := h.received u
  have hreceived : receivedBy u (tr ++ [.turn t r.taken (if r.done then some r.got else none)]) =
      receivedBy u tr ++ if t = u then bytesOf r.taken else [] := by
    rw [receivedBy, List.flatMap_append, List.flatMap_singleton]
    rfl
  have hreturned : returnedTo u (tr ++ [.turn t r.taken (if r.done then some r.got else none)]) =
      returnedTo u tr ++ if t = u ∧ r.done = true then r.got else [] := by
    rw [returnedTo, List.flatMap_append, List.flatMap_singleton]
    by_cases hdone : r.done = true <;> simp [hdone, returnedTo]
  rw [hreceived, hreturned, hold, pendingOf, pendingOf, hcalls]
  by_cases heq : t = u
  · subst heq
    rw [Function.update_self, hcall]
    by_cases hdone : r.done = true <;> simp [hdone, htakes.got_eq]
  · rw [Function.update_of_ne (Ne.symm heq)]
    simp [heq]

/-- A turn takes the next part of the text, and adds to what its reader has got. -/
theorem History.turn {call : Call} {r : Turn} (h : History i tr s) (hcall : s.call t = some call)
    (htakes : Takes i (editorOf tr) call.target call.got r) (hcons : s'.cons = r.cons)
    (hcalls : s'.call = Function.update s.call t (if r.done then none else some { call with got := r.got })) :
    History i (tr ++ [.turn t r.taken (if r.done then some r.got else none)]) s' := by
  have heditor : editorOf (tr ++ [.turn t r.taken (if r.done then some r.got else none)]) =
      (editorOf tr).take r.taken.length := editorOf_snoc tr _
  have hitems : itemsOf (tr ++ [.turn t r.taken (if r.done then some r.got else none)]) =
      itemsOf tr ++ r.taken := by
    rw [itemsOf, List.flatMap_append, List.flatMap_singleton]
    rfl
  have hno := (h.waiting t call hcall).2
  refine ⟨?_, fun u other hu => ?_, ?_, fun x hx => ?_, fun u => ?_, fun u taken got hin => ?_,
    fun u taken ret hin => ?_, fun u taken hlast => ?_⟩
  · rw [heditor, hcons]
    exact htakes.rel
  · rw [hcalls] at hu
    by_cases heq : u = t
    · rw [heq, Function.update_self] at hu
      by_cases hdone : r.done = true
      · rw [if_pos hdone] at hu
        cases hu
      · rw [if_neg hdone] at hu
        cases hu
        have hfalse := Bool.eq_false_iff.2 hdone
        exact ⟨htakes.more hfalse, (htakes.line hno).2 hfalse⟩
    · rw [Function.update_of_ne heq] at hu
      exact h.waiting u other hu
  · rw [hitems, heditor, List.map_append, h.delivered, htakes.chars, Editor.take, ← List.take_add]
  · rw [hitems] at hx
    rcases List.mem_append.1 hx with hold | hnew
    · exact h.items x hold
    · exact htakes.item x hnew
  · exact h.received_turn hcall htakes hcalls u
  · rcases List.mem_append.1 hin with hold | hlast
    · exact h.line u taken got hold
    · have heq := List.mem_singleton.1 hlast
      simp only [Label.turn.injEq] at heq
      obtain ⟨-, -, hret⟩ := heq
      split at hret
      · cases hret
        exact (htakes.line hno).1
      · cases hret
  · rcases List.mem_append.1 hin with hold | hlast
    · exact h.eof u taken ret hold
    · have heq := List.mem_singleton.1 hlast
      simp only [Label.turn.injEq] at heq
      obtain ⟨-, rfl, rfl⟩ := heq
      refine ⟨⟨fun heof => ?_, fun hret => ?_⟩, fun heof => (htakes.eof heof).1⟩
      · rw [if_pos (htakes.eof heof).2.2, (htakes.eof heof).2.1]
      · split at hret
        · next hdone => exact htakes.empty hdone (Option.some.inj hret)
        · cases hret
  · rw [List.getLast?_concat] at hlast
    have heq := Option.some.inj hlast
    simp only [Label.turn.injEq] at heq
    obtain ⟨-, -, hret⟩ := heq
    split at hret
    · cases hret
    · next hdone =>
      rw [heditor]
      have hdrop := htakes.rel.r_eq_w_iff.1 (htakes.sleeps (Bool.eq_false_iff.2 hdone))
      have hle := htakes.rel.taken_le
      rw [List.drop_eq_nil_iff] at hdrop
      exact Nat.le_antisymm hle hdrop

end Steps

theorem Idle.history {i : BitVec 32} {s : State Reader} (h : Idle i s) : History i [] s := by
  obtain ⟨hr, hw, he, hcall⟩ := h
  refine ⟨?_, fun t call ht => ?_, rfl, fun x hx => (nomatch hx), fun t => ?_, fun t taken got hin => (nomatch hin),
    fun t taken ret hin => (nomatch hin), fun t taken hlast => (nomatch hlast)⟩
  · refine ⟨⟨Nat.le_refl _, ?_, ?_, ?_⟩, fun hmem => nomatch hmem⟩
    · rw [hr]
      exact (BitVec.add_zero i).symm
    · rw [hw]
      exact (BitVec.add_zero i).symm
    · rw [hr, he]
      exact Fifo.Holds.nil
  · rw [hcall t] at ht
    exact nomatch ht
  · rw [pendingOf, hcall t]
    rfl

theorem History.step {i : BitVec 32} {tr : List (Label Reader)} {s s' : State Reader} {l : Label Reader}
    (h : History i tr s) (hstep : Step s l s') : History i (tr ++ [l]) s' := by
  cases hstep with
  | input c =>
    obtain ⟨htaken, more, htext⟩ := text_type (editorOf tr) c
    refine h.quiet (fun t taken ret hl => nomatch hl) ?_ h.waiting (fun t => rfl) ?_
    · rw [editorOf_snoc]
      exact h.rel.type c
    · rw [editorOf_snoc]
      show ((editorOf tr).type c).text.take ((editorOf tr).type c).taken = _
      rw [htaken, htext, List.take_append_of_le_length h.rel.taken_le]
  | read t n hnone hpos =>
    refine h.quiet (fun t taken ret hl => nomatch hl) ?_ (fun u call hu => ?_) (fun u => ?_) ?_
    · rw [editorOf_snoc]
      exact h.rel
    · by_cases heq : u = t
      · simp only [heq, Function.update_self] at hu
        cases hu
        exact ⟨hpos, fun hmem => nomatch hmem⟩
      · simp only [Function.update_of_ne heq] at hu
        exact h.waiting u call hu
    · rw [pendingOf, pendingOf]
      by_cases heq : u = t
      · simp only [heq, Function.update_self, hnone]
        rfl
      · simp only [Function.update_of_ne heq]
    · rw [editorOf_snoc]
      rfl
  | sleep t call r hcall hturn hdone =>
    have hmore := (h.waiting t call hcall).1
    have htakes : Takes i (editorOf tr) call.target call.got r := by
      rw [← hturn]
      exact turn_takes h.rel (by omega) (by omega)
    have hnext : History i _ { s with
        cons := r.cons
        call := Function.update s.call t (some { call with got := r.got }) } :=
      h.turn hcall htakes rfl (by rw [if_neg (by simp [hdone])])
    rwa [if_neg (by simp [hdone])] at hnext
  | ret t call r hcall hturn hdone =>
    have hmore := (h.waiting t call hcall).1
    have htakes : Takes i (editorOf tr) call.target call.got r := by
      rw [← hturn]
      exact turn_takes h.rel (by omega) (by omega)
    have hnext : History i _ { s with
        cons := r.cons
        call := Function.update s.call t none } :=
      h.turn hcall htakes rfl (by rw [if_pos hdone])
    rwa [if_pos hdone] at hnext

/-- A line that ends with a carriage return, read while the indices wrap. -/
def typedLine : List (Label Unit) :=
  [.input 97, .input carriageReturn, .read () 5, .turn () [.byte 97, .byte newline] (some [97, newline])]

/-- The console at the end of its 32-bit indices. -/
def beforeWrap : State Unit := ⟨⟨fun _ => 0, 0xffffffff, 0xffffffff, 0xffffffff⟩, fun _ => none⟩

theorem typedLine_run : ∃ s, Transition.Run Step beforeWrap typedLine s := by
  have htyped := (Transition.Run.nil.snoc (Step.input beforeWrap 97)).snoc (Step.input _ carriageReturn)
  have hasked := htyped.snoc (Step.read _ () 5 rfl (by decide))
  exact ⟨_, hasked.snoc (Step.ret _ () ⟨5, []⟩ _ rfl rfl rfl)⟩

end Xv6.Guarantees.LineDiscipline
