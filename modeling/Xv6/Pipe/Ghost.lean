import Xv6.Source.Pipe

/-!
# What the users of a pipe know

The ghost state of a process in `pipewrite`, `piperead`, `pipeclose` or `kill`: the locks it
holds, the fields of the pipe while it holds the pipe's lock, the channel it has begun to
wait on, and the wakeups it still owes. The invariant has three parts, about the locks,
about sleepers and about the bytes, and there is one rule for each step of the code.
-/
namespace Xv6.Pipe

open Xv6.Library Xv6.Library.Thread Xv6.Source.Pipe

/-- A process that sleeps on the channel has nothing to do. -/
def Blocked (f : Fields) : Chan → Prop
  | .nread => f.nread = f.nwrite ∧ f.writeopen = true
  | .nwrite => f.nwrite = f.nread + BitVec.ofNat 32 PIPESIZE ∧ f.readopen = true

structure Local where
  /-- The fields of the pipe, if its lock is held. -/
  held : Option Fields
  /-- The process whose lock is held. -/
  plock : Option Slot
  /-- The channel of a `sleep` that has released the pipe's lock. -/
  waits : Option Chan
  /-- Processes on this channel may have got something to do since the lock was acquired. -/
  owes : Chan → Bool
  /-- Processes that do not wait on the channel, found so since the lock was acquired. -/
  seen : Chan → List Slot
  unsaid : Bool
  /-- The number of a call of `pipewrite`, what it writes, and how much it has stored. -/
  call : Option (Nat × (Nat → Option UInt8) × Nat)
  /-- Bytes that have been taken and not yet been returned. -/
  got : List UInt8

/-- A process outside the calls. Its last call of `pipewrite` is still known. -/
structure Local.Quiet (ℓ : Local) : Prop where
  held : ℓ.held = none
  plock : ℓ.plock = none
  waits : ℓ.waits = none
  owes : ∀ c, ℓ.owes c = false
  got : ℓ.got = []

abbrev Ghost := Slot → Local

/-- From the release of the pipe's lock in `sleep` on, until it is woken. -/
def Waits (s : State) (g : Ghost) (t : Slot) (c : Chan) : Prop :=
  s.state t = .sleeping c ∨ (g t).waits = some c ∧ (g t).plock = some t

structure Locks (s : State) (g : Ghost) : Prop where
  lock : ∀ t, s.lock = some t ↔ (g t).held ≠ none
  fields : ∀ t f, (g t).held = some f → f = s.fields
  plock : ∀ p t, s.plock p = some t ↔ (g t).plock = some p

structure Sleepers (s : State) (g : Ghost) : Prop where
  waits : ∀ t c, s.state t = .sleeping c → (g t).waits = some c
  apart : ∀ t, (g t).waits ≠ none → (g t).held = none
  owes : ∀ t c, (g t).owes c = true → (g t).held ≠ none
  blocked : ∀ c, (∀ t, (g t).owes c = false) → ∀ t, Waits s g t c → Blocked s.fields c
  seen : ∀ u c p, p ∈ (g u).seen c → (g u).held ≠ none → ¬ Waits s g p c
  unsaid : ∀ t, s.unsaid t = (g t).unsaid

/-- The bytes that a call of `pipewrite` has stored. -/
def storedBy (s : State) (call : Nat) : List Stored := s.accepted.filter fun e => e.call = call

structure Stream (s : State) (g : Ghost) : Prop where
  /-- Everything stored has been returned, or taken by the process that holds the lock, or is
  in the buffer. -/
  bytes : ∃ got q, (∀ t, (g t).held ≠ none → (g t).got = got) ∧ (s.lock = none → got = []) ∧
    Fifo.Holds s.data s.fields.nread s.fields.nwrite q ∧
    s.accepted.map Stored.byte = s.returned ++ got ++ q
  quiet : ∀ t, (g t).held = none → (g t).got = []
  known : ∀ e ∈ s.accepted, e.call < s.calls.length
  order : ∀ c src, s.calls[c]? = some src →
    (storedBy s c).map (fun e => some e.byte) = (List.range (storedBy s c).length).map src
  call : ∀ t c src i, (g t).call = some (c, src, i) →
    s.calls[c]? = some src ∧ (storedBy s c).length = i
  apart : ∀ t u c, ((g t).call.map Prod.fst) = some c → ((g u).call.map Prod.fst) = some c → t = u

/-- What is asked about a run: the stream of bytes, for which the addresses given to `copyin`
and `copyout` have to be valid, or that nobody sleeps who has something to do. -/
structure Mode where
  stream : Prop
  sleepers : Prop

/-- `pipewrite` does not find its process killed when it has stored bytes that it has not
announced. -/
def Announced (t : Slot) (op : Op) (s : State) : Prop :=
  ∀ p, op = .getKilled p → s.unsaid t = true → s.killed p = false

/-- `piperead` of a positive number of bytes returns none only at the end of the stream. -/
def EndOfStream (op : Op) (s : State) : Prop :=
  ∀ n, op = .report n [] → 0 < n → s.fields.nread = s.fields.nwrite ∧ s.fields.writeopen = false

def logic (m : Mode) : Logic Slot State Op Ghost Local where
  loc t g := g t
  inv s g := Locks s g ∧ (m.sleepers → Sleepers s g) ∧ (m.stream → Stream s g)
  guard t op s := m.sleepers → Announced t op s
  panics _ := False
  step _ op s _ := m.stream → EndOfStream op s

/-! ## The locks -/

variable {t : Slot} {ℓ : Local} {s s' : State} {g : Ghost}

theorem Locks.unique (h : Locks s g) {u : Slot} (ht : (g t).held ≠ none) (hu : (g u).held ≠ none) :
    u = t := by
  have hlock := (h.lock t).mpr ht
  rw [(h.lock u).mpr hu] at hlock
  exact Option.some.inj hlock

theorem Locks.free (h : Locks s g) (hlock : s.lock = none) (u : Slot) : (g u).held = none := by
  by_contra hheld
  exact nomatch hlock.symm.trans ((h.lock u).mpr hheld)

/-- A step that changes no lock and no field of the pipe. -/
theorem Locks.same (h : Locks s g) (hlock : s'.lock = s.lock) (hplock : s'.plock = s.plock)
    (hfields : s'.fields = s.fields) (hheld : ℓ.held = (g t).held) (hp : ℓ.plock = (g t).plock) :
    Locks s' (Function.update g t ℓ) where
  lock u := by
    have hu := h.lock u
    by_cases hut : u = t
    · subst hut
      rwa [hlock, Function.update_self, hheld]
    · rwa [hlock, Function.update_of_ne hut]
  fields u f hf := by
    rw [hfields]
    by_cases hut : u = t
    · subst hut
      rw [Function.update_self, hheld] at hf
      exact h.fields u f hf
    · rw [Function.update_of_ne hut] at hf
      exact h.fields u f hf
  plock q u := by
    have hu := h.plock q u
    by_cases hut : u = t
    · subst hut
      rwa [hplock, Function.update_self, hp]
    · rwa [hplock, Function.update_of_ne hut]

/-- The process that holds the pipe's lock changes its fields. -/
theorem Locks.change (h : Locks s g) (hheld : (g t).held ≠ none) (hlock : s'.lock = s.lock)
    (hplock : s'.plock = s.plock) (hnew : ℓ.held = some s'.fields) (hp : ℓ.plock = (g t).plock) :
    Locks s' (Function.update g t ℓ) where
  lock u := by
    have hu := h.lock u
    by_cases hut : u = t
    · subst hut
      simpa [hlock, hnew, hheld] using hu
    · rwa [hlock, Function.update_of_ne hut]
  fields u f hf := by
    by_cases hut : u = t
    · subst hut
      rw [Function.update_self, hnew] at hf
      exact (Option.some.inj hf).symm
    · rw [Function.update_of_ne hut] at hf
      exact absurd (h.unique hheld (by simp [hf])) hut
  plock q u := by
    have hu := h.plock q u
    by_cases hut : u = t
    · subst hut
      rwa [hplock, Function.update_self, hp]
    · rwa [hplock, Function.update_of_ne hut]

/-- The pipe's lock is acquired or released. -/
theorem Locks.setLock (h : Locks s g) (hlock : s.lock = none ∨ s.lock = some t)
    (hplock : s'.plock = s.plock) (hfields : s'.fields = s.fields) (hp : ℓ.plock = (g t).plock)
    (hnew : s'.lock = some t ∧ ℓ.held = some s.fields ∨ s'.lock = none ∧ ℓ.held = none) :
    Locks s' (Function.update g t ℓ) := by
  have hother : ∀ u, u ≠ t → (g u).held = none := by
    intro u hut
    by_contra hheld
    have hlu := (h.lock u).mpr hheld
    rcases hlock with hlock | hlock
    · exact nomatch hlu.symm.trans hlock
    · exact hut (Option.some.inj (hlu.symm.trans hlock))
  constructor
  · intro u
    simp only [Function.update_apply]
    grind
  · intro u f
    simp only [Function.update_apply]
    grind
  · intro q u
    have hold := h.plock q u
    by_cases hut : u = t
    · subst hut
      rwa [hplock, Function.update_self, hp]
    · rwa [hplock, Function.update_of_ne hut]

/-- The lock of a process is acquired or released. -/
theorem Locks.setPlock (h : Locks s g) {p : Slot} (hlock : s'.lock = s.lock)
    (hfields : s'.fields = s.fields) (hheld : ℓ.held = (g t).held)
    (hnew : (g t).plock = none ∧ s.plock p = none ∧ ℓ.plock = some p ∧
        s'.plock = Function.update s.plock p (some t) ∨
      (g t).plock = some p ∧ ℓ.plock = none ∧ s'.plock = Function.update s.plock p none) :
    Locks s' (Function.update g t ℓ) := by
  have hlocks := h.lock
  have hknown := h.fields
  have hplocks := h.plock
  constructor
  all_goals simp only [Function.update_apply]
  · grind
  · grind
  · intro q u
    have hold := hplocks q u
    have hmine := hplocks q t
    have htheirs := hplocks p u
    rcases hnew with ⟨hnone, hfree, hp, hs⟩ | ⟨hsome, hp, hs⟩
    all_goals
      rw [hs, Function.update_apply]
      grind

/-! ## Sleepers -/

/-- A process that holds the pipe's lock does not wait. -/
theorem Sleepers.not_waits (h : Sleepers s g) (hheld : (g t).held ≠ none) (c : Chan) :
    ¬ Waits s g t c := by
  have hnone : (g t).waits = none := by
    by_contra hw
    exact hheld (h.apart t hw)
  rintro (hstate | ⟨hw, -⟩)
  · exact nomatch hnone.symm.trans (h.waits t c hstate)
  · exact nomatch hnone.symm.trans hw

/-- A step after which nobody waits who did not wait before. The pipe and its lock are as
they were. -/
theorem Sleepers.same (h : Sleepers s g) (hfields : s'.fields = s.fields)
    (hunsaid : s'.unsaid = Function.update s.unsaid t ℓ.unsaid)
    (hheld : ℓ.held = (g t).held) (howes : ℓ.owes = (g t).owes)
    (hwaits : ∀ p c, Waits s' (Function.update g t ℓ) p c → Waits s g p c)
    (hknown : ∀ p c, s'.state p = .sleeping c → (Function.update g t ℓ p).waits = some c)
    (hapart : ℓ.waits ≠ none → ℓ.held = none)
    (hseen : ∀ c, ∀ p ∈ ℓ.seen c, p ∈ (g t).seen c ∨ ¬ Waits s' (Function.update g t ℓ) p c) :
    Sleepers s' (Function.update g t ℓ) where
  waits := hknown
  apart u := by
    by_cases hut : u = t
    · subst hut
      simpa using hapart
    · simpa [Function.update_of_ne hut] using h.apart u
  owes u c := by
    by_cases hut : u = t
    · subst hut
      simpa [howes, hheld] using h.owes u c
    · simpa [Function.update_of_ne hut] using h.owes u c
  blocked c hall p hp := by
    rw [hfields]
    refine h.blocked c (fun u => ?_) p (hwaits p c hp)
    have hu := hall u
    by_cases hut : u = t
    · subst hut
      simpa [howes] using hu
    · simpa [Function.update_of_ne hut] using hu
  seen u c p hmem hu hp := by
    by_cases hut : u = t
    · subst hut
      rw [Function.update_self] at hmem hu
      rcases hseen c p hmem with hold | hnot
      · exact h.seen u c p hold (hheld ▸ hu) (hwaits p c hp)
      · exact hnot hp
    · rw [Function.update_of_ne hut] at hmem hu
      exact h.seen u c p hmem hu (hwaits p c hp)
  unsaid u := by
    rw [hunsaid]
    by_cases hut : u = t
    · subst hut
      simp
    · simpa [Function.update_of_ne hut] using h.unsaid u

/-- The process that holds the pipe's lock changes the pipe. It owes a wakeup on each channel
whose sleepers may have got something to do. -/
theorem Sleepers.change (h : Sleepers s g) (hheld : (g t).held ≠ none)
    (hstate : s'.state = s.state) (hunsaid : s'.unsaid = Function.update s.unsaid t ℓ.unsaid)
    (hnew : ℓ.held ≠ none) (hplock : ℓ.plock = (g t).plock) (hw : ℓ.waits = (g t).waits)
    (hseen : ℓ.seen = (g t).seen)
    (howes : ∀ c, ℓ.owes c = false → (g t).owes c = false ∧
      (Blocked s.fields c → Blocked s'.fields c)) :
    Sleepers s' (Function.update g t ℓ) := by
  have hwaits : ∀ p c, Waits s' (Function.update g t ℓ) p c ↔ Waits s g p c := by
    intro p c
    by_cases hpt : p = t
    · subst hpt
      simp [Waits, hstate, hw, hplock]
    · simp [Waits, hstate, Function.update_of_ne hpt]
  have hnone : (g t).waits = none := by
    by_contra hwt
    exact hheld (h.apart t hwt)
  constructor
  · intro u c hu
    rw [hstate] at hu
    have hold := h.waits u c hu
    by_cases hut : u = t
    · subst hut
      simpa [hw] using hold
    · simpa [Function.update_of_ne hut] using hold
  · intro u hu
    by_cases hut : u = t
    · subst hut
      simp [hw, hnone] at hu
    · rw [Function.update_of_ne hut] at hu ⊢
      exact h.apart u hu
  · intro u c hu
    by_cases hut : u = t
    · subst hut
      simpa using hnew
    · rw [Function.update_of_ne hut] at hu ⊢
      exact h.owes u c hu
  · intro c hall p hp
    obtain ⟨hold, hkeep⟩ := howes c (by simpa using hall t)
    refine hkeep (h.blocked c (fun u => ?_) p ((hwaits p c).mp hp))
    by_cases hut : u = t
    · rwa [hut]
    · simpa [Function.update_of_ne hut] using hall u
  · intro u c p hmem hu hp
    rw [hwaits] at hp
    by_cases hut : u = t
    · subst hut
      rw [Function.update_self, hseen] at hmem
      exact h.seen u c p hmem hheld hp
    · rw [Function.update_of_ne hut] at hmem hu
      exact h.seen u c p hmem hu hp
  · intro u
    rw [hunsaid]
    by_cases hut : u = t
    · subst hut
      simp
    · simpa [Function.update_of_ne hut] using h.unsaid u

/-- The pipe's lock is acquired. -/
theorem Sleepers.acquire (h : Sleepers s g) (hfree : ∀ u, (g u).held = none)
    (hw : (g t).waits = none) {f : Fields} :
    Sleepers { s with lock := some t }
      (Function.update g t { g t with held := some f, seen := fun _ => [] }) := by
  have hwaits := h.waits
  have hapart := h.apart
  have howes := h.owes
  have hblocked := h.blocked
  have hunsaid := h.unsaid
  constructor
  all_goals
    simp only [Waits, Function.update_apply] at *
    grind

/-- The pipe's lock is released, by a process that has paid the wakeups it owed. Inside
`sleep` the process waits from here on. -/
theorem Sleepers.release (h : Sleepers s g) (hlocks : Locks s g) (hheld : (g t).held ≠ none)
    (hpaid : ∀ c, (g t).owes c = true → ∀ p, p ≠ t → p ∈ (g t).seen c) {w : Option Chan}
    (hw : ∀ c, w = some c → Blocked s.fields c) :
    Sleepers { s with lock := none }
      (Function.update g t { g t with held := none, owes := fun _ => false, waits := w }) := by
  have hnot := h.not_waits hheld
  have hnostate : ∀ c, s.state t ≠ .sleeping c := fun c hc => hnot c (Or.inl hc)
  have hothers : ∀ u c, u ≠ t → (g u).owes c = false := by
    intro u c hut
    by_contra howes
    exact hut (hlocks.unique hheld (h.owes u c (by simpa using howes)))
  constructor
  · intro u c hu
    by_cases hut : u = t
    · subst hut
      exact absurd hu (hnostate c)
    · rw [Function.update_of_ne hut]
      exact h.waits u c hu
  · intro u hu
    by_cases hut : u = t
    · subst hut
      simp
    · rw [Function.update_of_ne hut] at hu ⊢
      exact h.apart u hu
  · intro u c hu
    by_cases hut : u = t
    · subst hut
      simp at hu
    · rw [Function.update_of_ne hut] at hu ⊢
      exact h.owes u c hu
  · intro c _ p hp
    by_cases hpt : p = t
    · subst hpt
      rcases hp with hp | ⟨hp, -⟩
      · exact absurd hp (hnostate c)
      · exact hw c (by simpa using hp)
    · have hold : Waits s g p c := by simpa [Waits, Function.update_of_ne hpt] using hp
      cases hown : (g t).owes c with
      | true => exact absurd hold (h.seen t c p (hpaid c hown p hpt) hheld)
      | false =>
        refine h.blocked c (fun u => ?_) p hold
        by_cases hut : u = t
        · rwa [hut]
        · exact hothers u c hut
  · intro u c p hmem hu
    by_cases hut : u = t
    · subst hut
      simp at hu
    · rw [Function.update_of_ne hut] at hu
      exact absurd (hlocks.unique hheld hu) hut
  · intro u
    have hold := h.unsaid u
    by_cases hut : u = t
    · subst hut
      simpa using hold
    · simpa [Function.update_of_ne hut] using hold

end Xv6.Pipe
