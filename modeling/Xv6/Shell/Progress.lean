import Xv6.Shell.Command

/-!
# Running a command to its end

How a process that is about to run a command can come to what stands behind it: its
children are run to their ends and reaped, one after the other, and the processes
that were there before keep their entries.
-/
namespace Xv6.Shell

open Xv6.Library.Transition
open Xv6.Source Xv6.Source.Proc Xv6.Source.Ysh

section leads
variable {α : Type} {o : Outcomes α} {s s' s'' : Table α} {b i : Nat}

/-- A process is forked after its parent. -/
def Ordered (s : Table α) : Prop :=
  ∀ (j : Nat) (P : Process α), s[j]? = some P → ∀ q, P.parent = some q → q < j

theorem Ordered.reach {tr : List Nat} (ord : Ordered s) (h : Reach o s tr s') : Ordered s' := by
  refine Reach.every (J := fun j P => ∀ q, P.parent = some q → q < j) ord ?_ ?_ ?_ h
  · intro i j P P' hP hp
    cases hp with
    | orphan => exact fun q hq => by cases hq
    | _ => exact hP
  · intro j P P' hP ha
    cases ha <;> exact hP
  · intro j k parent scope f scope' c n hjk _ q hq
    cases hq
    exact hjk

/-- A run that leaves the first `b` entries alone, up to that of process `i`. -/
structure Leads (o : Outcomes α) (b i : Nat) (s s' : Table α) : Prop where
  run : ∃ tr, Reach o s tr s'
  grows : s.length ≤ s'.length
  frame : ∀ j, j < b → j ≠ i → s'[j]? = s[j]?

namespace Leads

theorem refl : Leads o b i s s := ⟨⟨[], .nil⟩, Nat.le_refl _, fun _ _ _ => rfl⟩

theorem trans (h : Leads o b i s s') (h' : Leads o b i s' s'') : Leads o b i s s'' := by
  obtain ⟨tr, hrun⟩ := h.run
  obtain ⟨tr', hrun'⟩ := h'.run
  refine ⟨⟨tr ++ tr', hrun.append hrun'⟩, Nat.le_trans h.grows h'.grows, fun j hj hji => ?_⟩
  rw [h'.frame j hj hji, h.frame j hj hji]

theorem ordered (h : Leads o b i s s') (ord : Ordered s) : Ordered s' := by
  obtain ⟨tr, hrun⟩ := h.run
  exact ord.reach hrun

theorem mono {b' : Nat} (h : Leads o b i s s') (hb : b' ≤ b) : Leads o b' i s s' :=
  ⟨h.run, h.grows, fun j hj hji => h.frame j (Nat.lt_of_lt_of_le hj hb) hji⟩

/-- What a younger process does leaves the older ones alone. -/
theorem of_child {b' c : Nat} (h : Leads o b' c s s') (hb : b ≤ b') (hc : b ≤ c) :
    Leads o b i s s' := by
  refine ⟨h.run, h.grows, fun j hj _ => h.frame j (Nat.lt_of_lt_of_le hj hb) ?_⟩
  omega

theorem of_set {P : Process α} (h : Step o s i (s.set i P)) : Leads o b i s (s.set i P) := by
  refine ⟨⟨[i], Run.nil.snoc h⟩, by simp, fun j _ hji => ?_⟩
  rw [List.getElem?_set_ne (Ne.symm hji)]

end Leads

variable {parent : Option Nat} {scope : α} {f : Files α}

theorem set_self {P P' : Process α} (h : s[i]? = some P) : (s.set i P')[i]? = some P' := by
  rw [List.getElem?_set_self (lt_of_getElem? h)]

/-- A call of process `i`. -/
theorem leads_call {f' : Files α} {p : Prog α} {st : Status α}
    (hi : s[i]? = some ⟨parent, scope, f, .run p⟩) (hl : Local o f p st f') :
    ∃ s', Leads o b i s s' ∧ s'.length = s.length ∧ s'[i]? = some ⟨parent, scope, f', st⟩ :=
  ⟨_, .of_set (.call hi hl), by simp, set_self hi⟩

/-- Process `i` forks; the child is the new last entry. -/
theorem leads_fork {scope' : α} {c n : Prog α}
    (hi : s[i]? = some ⟨parent, scope, f, .run (.fork scope' c n)⟩) :
    ∃ s', Leads o s.length i s s' ∧ s'.length = s.length + 1 ∧
      s'[i]? = some ⟨parent, scope, f, .run n⟩ ∧
      s'[s.length]? = some ⟨some i, scope', f, .run c⟩ := by
  have hlt := lt_of_getElem? hi
  refine ⟨_, ⟨⟨[i], Run.nil.snoc (.fork hi)⟩, by simp, fun j hj hji => ?_⟩, by simp, ?_, ?_⟩
  · rw [List.getElem?_append_left (by simpa using hj), List.getElem?_set_ne (Ne.symm hji)]
  · rw [List.getElem?_append_left (by simpa using hlt), List.getElem?_set_self hlt]
  · rw [List.getElem?_append_right (by simp)]
    simp

/-- The entries of older processes are the same after an `exit`. -/
theorem exit_frame {c j : Nat} (ord : Ordered s) (hj : j < c) : (exit s c)[j]? = s[j]? := by
  rw [exit, List.getElem?_mapIdx]
  cases hP : s[j]? with
  | none => rfl
  | some P =>
    have hparent : P.parent ≠ some c := fun h => by
      have := ord j P hP c h
      omega
    simp [Nat.ne_of_lt hj, hparent]

/-- A child that can end is run to its end and taken by the `wait` of its parent. -/
theorem leads_wait {c : Nat} {scope' : α} {f' : Files α} {st : Status α} {n : Prog α}
    (ord : Ordered s) (hi : s[i]? = some ⟨parent, scope, f, .run (.wait n)⟩)
    (hc : s[c]? = some ⟨some i, scope', f', st⟩) (hends : st.ends) :
    ∃ s', Leads o c i s s' ∧ s'[i]? = some ⟨parent, scope, f, .run n⟩ := by
  have hic : i < c := ord c _ hc i rfl
  have hi₁ : (exit s c)[i]? = some ⟨parent, scope, f, .run (.wait n)⟩ := by
    rw [exit_frame ord hic, hi]
  have hc₁ : (exit s c)[c]? = some ⟨some i, scope', List.replicate NOFILE none, .zombie⟩ := by
    rw [exit, List.getElem?_mapIdx, hc]
    simp
  refine ⟨_, ⟨⟨[c, i], (Run.nil.snoc (.exit hc hends)).snoc (.reap hi₁ hc₁)⟩, ?_, ?_⟩, ?_⟩
  · simp [exit]
  · intro j hj hji
    rw [List.getElem?_set_ne (by omega), List.getElem?_set_ne (Ne.symm hji), exit_frame ord hj]
  · rw [List.getElem?_set_ne (by omega), set_self hi₁]

/-- A process without children gets nothing from `wait`. -/
theorem leads_noChild {n : Prog α} (hi : s[i]? = some ⟨parent, scope, f, .run (.wait n)⟩)
    (hnone : ∀ P ∈ s, P.parent ≠ some i) :
    ∃ s', Leads o b i s s' ∧ s'[i]? = some ⟨parent, scope, f, .run n⟩ :=
  ⟨_, .of_set (.noChild hi fun P hP h => absurd h (hnone P hP)), set_self hi⟩

end leads

section commands
variable {o : Outcomes Addr} {s : Table Addr} {i : Nat} {parent : Option Nat} {scope addr : Addr}
  {f : Files Addr} {k : Bool → Prog Addr}

/-- Every process that is about to run the command, with an end in sight behind it, can
come there. -/
def Completes (o : Outcomes Addr) (t : Command) : Prop :=
  ∀ (s : Table Addr) (i : Nat) (parent : Option Nat) (scope addr : Addr) (f : Files Addr)
    (k : Bool → Prog Addr), Ordered s → (Status.run (k true)).ends →
    s[i]? = some ⟨parent, scope, f, .run (t.prog addr k)⟩ →
    ∃ s', Leads o s.length i s s' ∧
      s'[i]? = some ⟨parent, scope, f, .run (k (decide (t ≠ .exit)))⟩

/-- The four calls that put one end of a pipe in place. -/
theorem leads_closes {fd used fd0 fd1 : Nat} {p : Prog Addr} {b : Nat}
    (hi : s[i]? = some ⟨parent, scope, f,
      .run (.close fd <| .dup used <| .close fd0 <| .close fd1 p)⟩) :
    ∃ s' f', Leads o b i s s' ∧ s'.length = s.length ∧
      s'[i]? = some ⟨parent, scope, f', .run p⟩ := by
  obtain ⟨s₁, h₁, hl₁, hi₁⟩ := leads_call (b := b) hi (.close (o := o))
  obtain ⟨s₂, h₂, hl₂, hi₂⟩ := leads_call (b := b) hi₁ (.dup (o := o))
  obtain ⟨s₃, h₃, hl₃, hi₃⟩ := leads_call (b := b) hi₂ (.close (o := o))
  obtain ⟨s₄, h₄, hl₄, hi₄⟩ := leads_call (b := b) hi₃ (.close (o := o))
  exact ⟨s₄, _, ((h₁.trans h₂).trans h₃).trans h₄, by omega, hi₄⟩

/-- A pipe comes to the point where its two sides are run, each in a process of its own. -/
theorem leads_pipe {a b : Command}
    (hi : s[i]? = some ⟨parent, scope, f, .run ((Command.pipe a b).prog addr k)⟩) :
    ∃ s' f' f'', Leads o s.length i s s' ∧ s'.length = s.length + 2 ∧
      s'[i]? = some ⟨parent, scope, f, .run (.wait (k true))⟩ ∧
      s'[s.length]? = some ⟨some i, addr ++ [.pipe], f',
        .run (b.prog (addr ++ [.right]) fun _ => .exit)⟩ ∧
      s'[s.length + 1]? = some ⟨some s.length, addr ++ [.left], f'',
        .run (a.prog (addr ++ [.left]) fun _ => .exit)⟩ := by
  have hlt := lt_of_getElem? hi
  obtain ⟨s₁, h₁, hl₁, hi₁, hc₁⟩ := leads_fork (o := o) hi
  obtain ⟨s₂, r, w, f₂, h₂, hl₂, hc₂⟩ : ∃ s₂ r w f₂, Leads o s₁.length s.length s₁ s₂ ∧
      s₂.length = s₁.length ∧ s₂[s.length]? = some ⟨some i, addr ++ [.pipe], f₂, .run
        (.fork (addr ++ [.left])
          (.close 1 <| .dup w <| .close r <| .close w <| a.prog (addr ++ [.left]) fun _ => .exit)
          (.close 0 <| .dup r <| .close r <| .close w <| b.prog (addr ++ [.right]) fun _ => .exit))⟩ := by
    cases hp : sysPipe f addr with
    | none =>
      obtain ⟨s₂, h₂, hl₂, hc₂⟩ := leads_call (o := o) hc₁ (.pipeFail (r := 0) (w := 0) (.inr hp))
      exact ⟨s₂, 0, 0, f, h₂, hl₂, hc₂⟩
    | some ends =>
      obtain ⟨r, w, f₂⟩ := ends
      obtain ⟨s₂, h₂, hl₂, hc₂⟩ := leads_call (o := o) hc₁ (.pipe hp)
      exact ⟨s₂, r, w, f₂, h₂, hl₂, hc₂⟩
  obtain ⟨s₃, h₃, hl₃, hc₃, hg₃⟩ := leads_fork (o := o) hc₂
  obtain ⟨s₄, f₄, h₄, hl₄, hc₄⟩ := leads_closes (o := o) (b := s₃.length) hc₃
  rw [show s₂.length = s.length + 1 by omega] at hg₃ h₃ hl₃
  have hg₄ : s₄[s.length + 1]? = _ := (h₄.frame _ (by omega) (by omega)).trans hg₃
  obtain ⟨s₅, f₅, h₅, hl₅, hg₅⟩ := leads_closes (o := o) (b := s₄.length) hg₄
  have hi₅ : s₅[i]? = _ := (h₅.frame i (by omega) (by omega)).trans
    ((h₄.frame i (by omega) (by omega)).trans ((h₃.frame i (by omega) (by omega)).trans
      ((h₂.frame i (by omega) (by omega)).trans hi₁)))
  have hc₅ : s₅[s.length]? = _ := (h₅.frame _ (by omega) (by omega)).trans hc₄
  refine ⟨s₅, f₄, f₅, ?_, by omega, hi₅, hc₅, hg₅⟩
  exact (((h₁.trans (h₂.of_child (by omega) (Nat.le_refl _))).trans
    (h₃.of_child (by omega) (Nat.le_refl _))).trans (h₄.of_child (by omega) (Nat.le_refl _))).trans
    (h₅.of_child (by omega) (by omega))

/-- A list comes to its second part when the first can be completed. -/
theorem leads_list {a b : Command} (ha : Completes o a) (ord : Ordered s)
    (hi : s[i]? = some ⟨parent, scope, f, .run ((Command.list a b).prog addr k)⟩) :
    ∃ s', Leads o s.length i s s' ∧
      s'[i]? = some ⟨parent, scope, f, .run (b.prog (addr ++ [.after]) fun _ => k true)⟩ := by
  have hlt := lt_of_getElem? hi
  obtain ⟨s₁, h₁, hl₁, hi₁, hc₁⟩ := leads_fork (o := o) hi
  have ord₁ := h₁.ordered ord
  obtain ⟨s₂, h₂, hc₂⟩ := ha s₁ _ _ _ _ _ _ ord₁ rfl hc₁
  have hi₂ : s₂[i]? = _ := (h₂.frame i (by omega) (by omega)).trans hi₁
  obtain ⟨s₃, h₃, hi₃⟩ := leads_wait (o := o) (h₂.ordered ord₁) hi₂ hc₂ rfl
  exact ⟨s₃, (h₁.trans (h₂.of_child (by omega) (Nat.le_refl _))).trans h₃, hi₃⟩

/-- Behind a failed `exec` the youngest process has no child to wait for. -/
theorem leads_failedExec {b : Nat} {tag : Addr} {argv : List Ulib.Bytes} {p : Prog Addr}
    (ord : Ordered s) (hlast : s.length = i + 1)
    (hi : s[i]? = some ⟨parent, scope, f, .run (.exec tag argv (.wait p))⟩)
    (hfail : o.exec tag false) :
    ∃ s', Leads o b i s s' ∧ s'[i]? = some ⟨parent, scope, f, .run p⟩ := by
  obtain ⟨s₁, h₁, hl₁, hi₁⟩ := leads_call (b := b) hi (.execFail hfail)
  have hnone : ∀ P ∈ s₁, P.parent ≠ some i := by
    intro P hP hpar
    obtain ⟨j, hj⟩ := List.mem_iff_getElem?.mp hP
    have hlt := h₁.ordered ord j P hj i hpar
    have hjl := lt_of_getElem? hj
    omega
  obtain ⟨s₂, h₂, hi₂⟩ := leads_noChild (o := o) (b := b) hi₁ hnone
  exact ⟨s₂, h₁.trans h₂, hi₂⟩

/-- A command that fits can be completed, whichever of its calls of `exec` fail. -/
theorem completes_of_fits (hexec : ∀ tag, o.exec tag true ∨ o.exec tag false) :
    ∀ t : Command, t.Fits → Completes o t := by
  intro t
  induction t with
  | nop => exact fun _ s i _ _ _ _ _ _ _ hi => ⟨s, .refl, hi⟩
  | exit => exact fun _ s i _ _ _ _ _ _ _ hi => ⟨s, .refl, hi⟩
  | cd path =>
    intro _ s i _ _ _ _ _ _ _ hi
    obtain ⟨s₁, h₁, _, hi₁⟩ := leads_call (o := o) hi .chdir
    exact ⟨s₁, h₁, hi₁⟩
  | back c _ =>
    intro _ s i _ _ _ _ _ _ _ hi
    obtain ⟨s₁, h₁, _, hi₁, _⟩ := leads_fork (o := o) hi
    exact ⟨s₁, h₁, hi₁⟩
  | list a b iha ihb =>
    intro ht s i parent scope addr f k ord hk hi
    obtain ⟨s₁, h₁, hi₁⟩ := leads_list (iha ht.1) ord hi
    obtain ⟨s₂, h₂, hi₂⟩ := ihb ht.2 s₁ i _ _ _ _ (fun _ => k true) (h₁.ordered ord) hk hi₁
    exact ⟨s₂, h₁.trans (h₂.mono h₁.grows), hi₂⟩
  | pipe a b _ ihb =>
    intro ht s i parent scope addr f k ord hk hi
    have hlt := lt_of_getElem? hi
    obtain ⟨s₁, f', f'', h₁, hl₁, hi₁, hc₁, _⟩ := leads_pipe (o := o) hi
    have ord₁ := h₁.ordered ord
    obtain ⟨s₂, h₂, hc₂⟩ := ihb ht.2 s₁ _ _ _ _ _ _ ord₁ rfl hc₁
    have hi₂ : s₂[i]? = _ := (h₂.frame i (by omega) (by omega)).trans hi₁
    obtain ⟨s₃, h₃, hi₃⟩ := leads_wait (o := o) (h₂.ordered ord₁) hi₂ hc₂ rfl
    exact ⟨s₃, (h₁.trans (h₂.of_child (by omega) (Nat.le_refl _))).trans h₃, hi₃⟩
  | exec argv =>
    intro ht s i parent scope addr f k ord hk hi
    have hlt := lt_of_getElem? hi
    have hroom : argv.length < maxArgs := ht
    rw [Command.prog, if_pos hroom] at hi
    obtain ⟨s₁, h₁, hl₁, hi₁, hc₁⟩ := leads_fork (o := o) hi
    have ord₁ := h₁.ordered ord
    obtain ⟨s₂, st, h₂, hc₂, hends⟩ : ∃ s₂ st, Leads o s₁.length s.length s₁ s₂ ∧
        s₂[s.length]? = some ⟨some i, addr ++ [.exec], f, st⟩ ∧ st.ends := by
      rcases hexec addr with h | h
      · obtain ⟨s₂, h₂, _, hc₂⟩ := leads_call (o := o) hc₁ (.execOk h)
        exact ⟨s₂, _, h₂, hc₂, rfl⟩
      · obtain ⟨s₂, h₂, hc₂⟩ := leads_failedExec ord₁ hl₁ hc₁ h
        exact ⟨s₂, _, h₂, hc₂, hk⟩
    have hi₂ : s₂[i]? = _ := (h₂.frame i (by omega) (by omega)).trans hi₁
    obtain ⟨s₃, h₃, hi₃⟩ := leads_wait (o := o) (h₂.ordered ord₁) hi₂ hc₂ hends
    exact ⟨s₃, (h₁.trans (h₂.of_child (by omega) (Nat.le_refl _))).trans h₃, hi₃⟩
  | blank => exact fun h => absurd h id

end commands
end Xv6.Shell
