import Xv6.Kernel.BlockLayer

/-!
# Schedules of the block layer

A schedule names, step by step, which process runs and what it does. `perform` runs
it; what it computes is a run of the block layer.
-/
namespace Xv6.Kernel.BlockLayer
open Xv6.Source Xv6.Library.Transition Xv6.Kernel.FlatLog

variable {n : Nat}

/-- What a process does next. Buffers are named by their position among those held. -/
inductive Action (n : Nat) where
  | bget (p : Fin n) (b : UInt32)
  | acquiresleep (p : Fin n)
  | fill (p : Fin n)
  | brelse (p : Fin n) (k : Nat)
  | unref (p : Fin n)
  | store (p : Fin n) (k : Nat) (d : Block)
  | logWrite (p : Fin n) (k : Nat)
  | beginOp (p : Fin n)
  | endOp (p : Fin n)
  | log (p : Fin n)

instance (s : State n) (p : Fin n) : Decidable (s.Ready p) :=
  inferInstanceAs (Decidable (_ ∧ _))

instance (s : State n) (p : Fin n) : Decidable (s.User p) :=
  inferInstanceAs (Decidable (_ ∧ _))

/-- `State.Reads`, computed. -/
def State.reads (g : Geometry) (s : State n) (p : Fin n) (b : UInt32) : Bool :=
  match (s.proc p).pc with
  | .log c => decide ((code g s.lh c).1 = .bread b)
  | .out | .inOp => !s.booting
  | _ => false

theorem State.reads_sound {g : Geometry} {s : State n} {p : Fin n} {b : UInt32}
    (h : s.reads g p b = true) : s.Reads g p b := by
  unfold State.reads at h
  split at h
  · next c hc =>
    refine Or.inr ⟨c, (code g s.lh c).2, hc, ?_⟩
    rw [← of_decide_eq_true h]
  · next hc => exact Or.inl ⟨by simpa using h, Or.inl hc⟩
  · next hc => exact Or.inl ⟨by simpa using h, Or.inr hc⟩
  · cases h

def act (g : Geometry) (s : State n) : Action n → Option (Label n × State n)
  | .bget p b =>
    if s.Ready p ∧ s.reads g p b = true then
      match s.cache.bget ROOTDEV b with
      | some (some (i, cache)) => some (.tau, { s with cache := cache }.setCall p (.getting i b))
      | some none => some (.panic .noBuffers, { s with panicked := some .noBuffers })
      | none => none
    else none
  | .acquiresleep p =>
    match (s.proc p).call with
    | .getting i b =>
      if s.panicked = none ∧ (s.cache.buf i).lock = none then some (.tau, s.acquiresleep p i b)
      else none
    | _ => none
  | .fill p =>
    match (s.proc p).call with
    | .locked i b =>
      if s.panicked = none ∧ ((s.cache.buf i).valid = true ∨ b.toNat < FSSIZE) then
        some (.bread p b (s.contents i), s.fill g p i)
      else none
    | _ => none
  | .brelse p k =>
    match (s.proc p).held[k]? with
    | some i =>
      if s.Ready p ∧ s.User p ∧ s.blockno i ∉ (s.proc p).dirty then s.brelse p k (s.proc p).pc
      else none
    | none => none
  | .unref p =>
    match (s.proc p).call with
    | .releasing i =>
      if s.panicked = none then some (.tau, { s with cache := s.cache.brelse i }.setCall p .idle)
      else none
    | _ => none
  | .store p k d =>
    match (s.proc p).held[k]? with
    | some i =>
      if s.Ready p ∧ (s.proc p).pc = .inOp then
        some (.store p (s.blockno i) d, (s.setData i d).setProc p
          { s.proc p with dirty := s.blockno i :: (s.proc p).dirty })
      else none
    | none => none
  | .logWrite p k =>
    match (s.proc p).held[k]? with
    | some i =>
      if s.Ready p ∧ (s.proc p).pc = .inOp then
        some (.logWrite p (s.blockno i), s.logWrite g p i)
      else none
    | none => none
  | .beginOp p =>
    if s.Ready p ∧ s.booting = false ∧ ((s.proc p).pc = .out ∨ (s.proc p).pc = .entering) then
      if admits s.committing s.lh s.outstanding then
        some (.beginOp p, { s with outstanding := s.outstanding + 1 }.goto p .inOp)
      else some (.tau, s.goto p .sleeping)
    else none
  | .endOp p =>
    if s.Ready p ∧ (s.proc p).pc = .inOp ∧ (s.proc p).dirty = [] then some (.endOp p, s.endOp p)
    else none
  | .log p =>
    match (s.proc p).pc with
    | .log c => if s.Ready p then s.exec p c (code g s.lh c).2 (code g s.lh c).1 else none
    | _ => none

def perform (g : Geometry) (s : State n) : List (Action n) → Option (List (Label n) × State n)
  | [] => some ([], s)
  | α :: rest => do
    let (l, s') ← act g s α
    let (tr, t) ← perform g s' rest
    some (l :: tr, t)

theorem act_sound {g : Geometry} {s s' : State n} {α : Action n} {l : Label n}
    (h : act g s α = some (l, s')) : Step g s l s' := by
  cases α with
  | bget p b =>
    simp only [act] at h
    split at h
    · next hready =>
      split at h
      · next hget => cases h; exact .bget s p b _ _ hready.1 (State.reads_sound hready.2) hget
      · next hget => cases h; exact .noBuffers s p b hready.1 (State.reads_sound hready.2) hget
      · cases h
    · cases h
  | acquiresleep p =>
    simp only [act] at h
    split at h
    · next hcall =>
      split at h
      · next hfree => cases h; exact .acquiresleep s p _ _ hfree.1 hcall hfree.2
      · cases h
    · cases h
  | fill p =>
    simp only [act] at h
    split at h
    · next hcall =>
      split at h
      · next hdisk => cases h; exact .fill s p _ _ hdisk.1 hcall hdisk.2
      · cases h
    · cases h
  | brelse p k =>
    simp only [act] at h
    split at h
    · next i hk =>
      split at h
      · next huser =>
        refine .brelse s s' p k l huser.1 huser.2.1 ?_ h
        intro j hj
        rw [hk] at hj
        cases hj
        exact huser.2.2
      · cases h
    · cases h
  | unref p =>
    simp only [act] at h
    split at h
    · next hcall =>
      split at h
      · next hlive => cases h; exact .unref s p _ hlive hcall
      · cases h
    · cases h
  | store p k d =>
    simp only [act] at h
    split at h
    · next hk =>
      split at h
      · next hin => cases h; exact .store s p _ d hin.1 hin.2 (List.mem_of_getElem? hk)
      · cases h
    · cases h
  | logWrite p k =>
    simp only [act] at h
    split at h
    · next hk =>
      split at h
      · next hin => cases h; exact .logWrite s p _ hin.1 hin.2 (List.mem_of_getElem? hk)
      · cases h
    · cases h
  | beginOp p =>
    simp only [act] at h
    split at h
    · next hcall =>
      split at h
      · next hadm => cases h; exact .beginOp s p hcall.1 hcall.2.1 hcall.2.2 hadm
      · next hadm =>
        cases h
        exact .sleep s p hcall.1 hcall.2.1 hcall.2.2 (by simpa using hadm)
    · cases h
  | endOp p =>
    simp only [act] at h
    split at h
    · next hin => cases h; exact .endOp s p hin.1 hin.2.1 hin.2.2
    · cases h
  | log p =>
    simp only [act] at h
    split at h
    · next hpc =>
      split at h
      · next hready => exact .log s s' p _ _ _ l hready hpc rfl h
      · cases h
    · cases h

theorem perform_run {g : Geometry} {schedule : List (Action n)} {s t : State n} {tr : List (Label n)}
    (h : perform g s schedule = some (tr, t)) : Run (Step g) s tr t := by
  induction schedule generalizing s tr with
  | nil =>
    cases h
    exact .nil
  | cons α rest ih =>
    simp only [perform, Option.bind_eq_bind, Option.bind_eq_some_iff, Option.some.injEq,
      Prod.mk.injEq, Prod.exists] at h
    obtain ⟨l, s', hact, tr', t', hrest, rfl, rfl⟩ := h
    exact (ih hrest).cons (act_sound hact)

/-- A schedule that can be performed leads to a state with what it computes. -/
theorem perform_reaches {g : Geometry} {s : State n} (schedule : List (Action n))
    (ok : List (Label n) × State n → Bool) (h : (perform g s schedule).any ok = true) :
    ∃ tr t, Run (Step g) s tr t ∧ ok (tr, t) = true := by
  cases hrun : perform g s schedule with
  | none => simp [hrun] at h
  | some r =>
    rw [hrun] at h
    exact ⟨r.1, r.2, perform_run hrun, h⟩

/-- `bread(ROOTDEV, b)`, with the waits in it. -/
def breads (p : Fin n) (b : UInt32) : List (Action n) := [.bget p b, .acquiresleep p, .fill p]

/-- `brelse` of the buffer at position `k`. -/
def brelses (p : Fin n) (k : Nat) : List (Action n) := [.brelse p k, .unref p]

/-- `recover_from_log` on an empty log. -/
def recoversEmpty (g : Geometry) (p : Fin n) : List (Action n) := List.flatten
  [breads p g.start, [.log p, .log p, .unref p, .log p, .log p],
    breads p g.start, [.log p, .log p, .log p, .unref p, .log p]]

end Xv6.Kernel.BlockLayer
