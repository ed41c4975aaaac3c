import Xv6.Pipe.Ghost

/-!
# The bytes of a pipe

The part of the invariant about bytes through each step that touches them: a call of
`pipewrite` begins, a byte is stored or taken, the bytes taken are returned, and the lock
under which they were taken is released.
-/
namespace Xv6.Pipe

open Xv6.Library Xv6.Source.Pipe

variable {t : Slot} {ℓ : Local} {s s' : State} {g : Ghost}

theorem pipesize_dvd : PIPESIZE ∣ 2 ^ 32 := by decide

theorem pipesize_lt : PIPESIZE < 2 ^ 32 := by decide

/-- The parts of the state that are about bytes are the same. -/
structure SameBytes (s s' : State) : Prop where
  data : s'.data = s.data
  nread : s'.fields.nread = s.fields.nread
  nwrite : s'.fields.nwrite = s.fields.nwrite
  calls : s'.calls = s.calls
  accepted : s'.accepted = s.accepted
  returned : s'.returned = s.returned

/-- The process that moves has taken nothing that is not returned; or it does not move the
pipe's lock. -/
theorem Stream.same (h : Stream s g) (hlocks : Locks s g) (hs : SameBytes s s')
    (hgot : ℓ.got = (g t).got) (hcall : ℓ.call = (g t).call)
    (hmove : s'.lock = s.lock ∧ (ℓ.held = none ↔ (g t).held = none) ∨
      (s.lock = none ∨ s.lock = some t) ∧ (g t).got = []) :
    Stream s' (Function.update g t ℓ) := by
  have hby : ∀ c, storedBy s' c = storedBy s c := fun c => by rw [storedBy, storedBy, hs.accepted]
  constructor
  · obtain ⟨got, q, hholder, hfree, hq, hbytes⟩ := h.bytes
    rw [hs.data, hs.nread, hs.nwrite, hs.accepted, hs.returned]
    rcases hmove with ⟨hlock, hheld⟩ | ⟨hlock, hnil⟩
    · refine ⟨got, q, fun u hu => ?_, hlock ▸ hfree, hq, hbytes⟩
      by_cases hut : u = t
      · subst hut
        rw [Function.update_self] at hu ⊢
        exact hgot.trans (hholder u (mt hheld.mpr hu))
      · rw [Function.update_of_ne hut] at hu ⊢
        exact hholder u hu
    · have hempty : got = [] := by
        rcases hlock with hlock | hlock
        · exact hfree hlock
        · exact (hholder t ((hlocks.lock t).mp hlock)).symm.trans hnil
      refine ⟨got, q, fun u hu => ?_, fun _ => hempty, hq, hbytes⟩
      by_cases hut : u = t
      · subst hut
        rw [Function.update_self, hgot, hnil, hempty]
      · rw [Function.update_of_ne hut] at hu ⊢
        exact hholder u hu
  · intro u hu
    by_cases hut : u = t
    · subst hut
      rw [Function.update_self] at hu ⊢
      rcases hmove with ⟨-, hheld⟩ | ⟨-, hnil⟩
      · exact hgot.trans (h.quiet u (hheld.mp hu))
      · exact hgot.trans hnil
    · rw [Function.update_of_ne hut] at hu ⊢
      exact h.quiet u hu
  · rw [hs.accepted, hs.calls]
    exact h.known
  · intro c src hc
    rw [hby]
    exact h.order c src (hs.calls ▸ hc)
  · intro u c src i hc
    rw [hby, hs.calls]
    by_cases hut : u = t
    · subst hut
      rw [Function.update_self, hcall] at hc
      exact h.call u c src i hc
    · rw [Function.update_of_ne hut] at hc
      exact h.call u c src i hc
  · intro u v c hu hv
    have hcalls : ∀ u, (Function.update g t ℓ u).call = (g u).call := by
      intro u
      by_cases hut : u = t
      · subst hut
        rw [Function.update_self, hcall]
      · rw [Function.update_of_ne hut]
    rw [hcalls] at hu hv
    exact h.apart u v c hu hv

/-- A new call of `pipewrite` has stored nothing. -/
theorem Stream.storedBy_new (h : Stream s g) : storedBy s s.calls.length = [] := by
  rw [storedBy, List.filter_eq_nil_iff]
  intro e he
  have hlt := h.known e he
  simp
  omega

theorem Stream.begin (h : Stream s g) (src : Nat → Option UInt8) :
    Stream { s with calls := s.calls ++ [src] }
      (Function.update g t { g t with call := some (s.calls.length, src, 0) }) := by
  have hnew := h.storedBy_new
  have hby : ∀ c, storedBy { s with calls := s.calls ++ [src] } c = storedBy s c := fun _ => rfl
  have hkeep : ∀ (c : Nat) src', s.calls[c]? = some src' → (s.calls ++ [src])[c]? = some src' := by
    intro c src' hc
    rw [List.getElem?_append_left (List.getElem?_eq_some_iff.mp hc).1]
    exact hc
  have hlast : ∀ u c src' i, (g u).call = some (c, src', i) → c < s.calls.length := by
    intro u c src' i hu
    exact (List.getElem?_eq_some_iff.mp (h.call u c src' i hu).1).1
  constructor
  · obtain ⟨got, q, hholder, hrest⟩ := h.bytes
    refine ⟨got, q, fun u hu => ?_, hrest⟩
    have hold := hholder u
    by_cases hut : u = t
    · subst hut
      rw [Function.update_self] at hu ⊢
      exact hold hu
    · rw [Function.update_of_ne hut] at hu ⊢
      exact hold hu
  · intro u hu
    by_cases hut : u = t
    · subst hut
      rw [Function.update_self] at hu ⊢
      exact h.quiet u hu
    · rw [Function.update_of_ne hut] at hu ⊢
      exact h.quiet u hu
  · intro e he
    have hlt := h.known e he
    simp only [List.length_append, List.length_singleton]
    omega
  · intro c src' hc
    rw [hby]
    by_cases hcn : c = s.calls.length
    · subst hcn
      simp [hnew]
    · have hlt := (List.getElem?_eq_some_iff.mp hc).1
      simp only [List.length_append, List.length_singleton] at hlt
      rw [List.getElem?_append_left (by omega)] at hc
      exact h.order c src' hc
  · intro u c src' i hu
    rw [hby]
    by_cases hut : u = t
    · subst hut
      rw [Function.update_self] at hu
      cases hu
      simp [hnew]
    · rw [Function.update_of_ne hut] at hu
      obtain ⟨hc, hi⟩ := h.call u c src' i hu
      exact ⟨hkeep c src' hc, hi⟩
  · have hother : ∀ u, u ≠ t → ((g u).call.map Prod.fst) ≠ some s.calls.length := by
      intro u _ hu
      obtain ⟨⟨c, src', i⟩, hc, heq⟩ := Option.map_eq_some_iff.mp hu
      have hlt := hlast u c src' i hc
      dsimp only at heq
      omega
    intro u v c hu hv
    by_cases hut : u = t <;> by_cases hvt : v = t
    · rw [hut, hvt]
    · rw [hut, Function.update_self] at hu
      rw [Function.update_of_ne hvt] at hv
      cases hu
      exact absurd hv (hother v hvt)
    · rw [hvt, Function.update_self] at hv
      rw [Function.update_of_ne hut] at hu
      cases hv
      exact absurd hu (hother u hut)
    · rw [Function.update_of_ne hut] at hu
      rw [Function.update_of_ne hvt] at hv
      exact h.apart u v c hu hv

/-- The process that holds the lock has taken `got` and the buffer holds `q`. -/
theorem Stream.bytes_of_held (h : Stream s g) (hheld : (g t).held ≠ none) :
    ∃ q, Fifo.Holds s.data s.fields.nread s.fields.nwrite q ∧
      s.accepted.map Stored.byte = s.returned ++ (g t).got ++ q := by
  obtain ⟨got, q, hholder, -, hq, hbytes⟩ := h.bytes
  rw [hholder t hheld]
  exact ⟨q, hq, hbytes⟩

theorem storedBy_snoc (s : State) (e : Stored) (c : Nat) :
    (s.accepted ++ [e]).filter (fun e => e.call = c) =
      storedBy s c ++ if e.call = c then [e] else [] := by
  rw [List.filter_append, storedBy, List.filter_singleton]
  simp

/-- A byte is stored by the process that holds the lock, in a buffer that is not full. -/
theorem Stream.put (h : Stream s g) (hlocks : Locks s g) (hheld : (g t).held ≠ none)
    (hroom : s.fields.nwrite ≠ s.fields.nread + BitVec.ofNat 32 PIPESIZE) {c i : Nat}
    {src : Nat → Option UInt8} {ch : UInt8} (hcall : (g t).call = some (c, src, i))
    (hsrc : src i = some ch)
    (hdata : s'.data = Function.update s.data (Fifo.cell PIPESIZE s.fields.nwrite) ch)
    (hfields : s'.fields = { s.fields with nwrite := s.fields.nwrite + 1 })
    (hcalls : s'.calls = s.calls) (hacc : s'.accepted = s.accepted ++ [⟨c, i, ch⟩])
    (hret : s'.returned = s.returned) (hlock : s'.lock = s.lock)
    (hheld' : ℓ.held ≠ none) (hgot : ℓ.got = (g t).got) (hcall' : ℓ.call = some (c, src, i + 1)) :
    Stream s' (Function.update g t ℓ) := by
  obtain ⟨hmine, hlen⟩ := h.call t c src i hcall
  have hby : ∀ c', storedBy s' c' = storedBy s c' ++ if c = c' then [⟨c, i, ch⟩] else [] := by
    intro c'
    rw [storedBy, hacc, storedBy_snoc]
  constructor
  · obtain ⟨q, hq, hbytes⟩ := h.bytes_of_held hheld
    have hlt : q.length < PIPESIZE := by
      refine lt_of_le_of_ne hq.length fun heq => hroom ?_
      rw [hq.full_iff pipesize_lt]
      exact heq
    refine ⟨(g t).got, q ++ [ch], fun u hu => ?_, fun hnone => ?_, ?_, ?_⟩
    · by_cases hut : u = t
      · subst hut
        rw [Function.update_self, hgot]
      · rw [Function.update_of_ne hut] at hu
        exact absurd (hlocks.unique hheld hu) hut
    · rw [hlock, (hlocks.lock t).mpr hheld] at hnone
      exact nomatch hnone
    · rw [hdata, hfields]
      exact hq.push pipesize_dvd hlt ch
    · rw [hacc, hret, List.map_append, hbytes]
      simp
  · intro u hu
    by_cases hut : u = t
    · subst hut
      exact absurd (by simpa using hu) hheld'
    · rw [Function.update_of_ne hut] at hu ⊢
      exact h.quiet u hu
  · intro e he
    rw [hacc, List.mem_append, List.mem_singleton] at he
    rw [hcalls]
    rcases he with he | rfl
    · exact h.known e he
    · exact (List.getElem?_eq_some_iff.mp hmine).1
  · intro c' src' hc'
    rw [hcalls] at hc'
    have hold := h.order c' src' hc'
    rw [hby]
    by_cases hcc : c = c'
    · subst hcc
      rw [hmine] at hc'
      cases hc'
      rw [if_pos rfl, List.map_append, hold, List.length_append, List.length_singleton,
        List.range_succ, List.map_append, hlen]
      simp [hsrc]
    · simpa [hcc] using hold
  · intro u c' src' j hu
    rw [hcalls, hby]
    by_cases hut : u = t
    · subst hut
      rw [Function.update_self, hcall'] at hu
      cases hu
      exact ⟨hmine, by simp [hlen]⟩
    · rw [Function.update_of_ne hut] at hu
      have hne : c ≠ c' := by
        rintro rfl
        exact hut (h.apart u t c (by simp [hu]) (by simp [hcall]))
      simpa [hne] using h.call u c' src' j hu
  · have hfst : ∀ u, (Function.update g t ℓ u).call.map Prod.fst = (g u).call.map Prod.fst := by
      intro u
      by_cases hut : u = t
      · subst hut
        rw [Function.update_self, hcall', hcall]
        rfl
      · rw [Function.update_of_ne hut]
    intro u v c' hu hv
    rw [hfst] at hu hv
    exact h.apart u v c' hu hv

/-- Bytes are only moved between the buffer, the process that holds the lock, and what has
been returned. -/
theorem Stream.shift (h : Stream s g) (hlocks : Locks s g) (hheld : (g t).held ≠ none)
    (hcalls : s'.calls = s.calls) (hacc : s'.accepted = s.accepted) (hlock : s'.lock = s.lock)
    (hheld' : ℓ.held ≠ none) (hcall : ℓ.call = (g t).call)
    (hbytes : ∃ q, Fifo.Holds s'.data s'.fields.nread s'.fields.nwrite q ∧
      s.accepted.map Stored.byte = s'.returned ++ ℓ.got ++ q) :
    Stream s' (Function.update g t ℓ) := by
  have hby : ∀ c, storedBy s' c = storedBy s c := fun c => by rw [storedBy, storedBy, hacc]
  have hsame : ∀ u, (Function.update g t ℓ u).call = (g u).call := by
    intro u
    by_cases hut : u = t
    · subst hut
      rw [Function.update_self, hcall]
    · rw [Function.update_of_ne hut]
  constructor
  · obtain ⟨q, hq, hmap⟩ := hbytes
    refine ⟨ℓ.got, q, fun u hu => ?_, fun hnone => ?_, hq, hacc ▸ hmap⟩
    · by_cases hut : u = t
      · subst hut
        rw [Function.update_self]
      · rw [Function.update_of_ne hut] at hu
        exact absurd (hlocks.unique hheld hu) hut
    · rw [hlock, (hlocks.lock t).mpr hheld] at hnone
      exact nomatch hnone
  · intro u hu
    by_cases hut : u = t
    · subst hut
      exact absurd (by simpa using hu) hheld'
    · rw [Function.update_of_ne hut] at hu ⊢
      exact h.quiet u hu
  · rw [hacc, hcalls]
    exact h.known
  · intro c src hc
    rw [hby]
    exact h.order c src (hcalls ▸ hc)
  · intro u c src i hu
    rw [hby, hcalls]
    exact h.call u c src i (hsame u ▸ hu)
  · intro u v c hu hv
    rw [hsame] at hu hv
    exact h.apart u v c hu hv

end Xv6.Pipe
