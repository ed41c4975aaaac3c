import Mathlib.Control.Basic

/-!
# Programs that end

A program over a state that can also stop with a fault. `Ends` says that it does not: it returns,
and what it returns and the state it leaves satisfy a postcondition.
-/
namespace Xv6.Library.Total

variable {σ ε α β : Type}

def Ends (p : StateT σ (Except ε) α) (s : σ) (post : α → σ → Prop) : Prop :=
  ∃ a s', p s = .ok (a, s') ∧ post a s'

variable {p : StateT σ (Except ε) α} {f : α → StateT σ (Except ε) β} {s : σ}

theorem bind_ok {a : α} {s' : σ} (h : p s = .ok (a, s')) : (p >>= f) s = f a s' := by
  show (p s >>= fun x => f x.1 x.2) = _
  rw [h]
  rfl

theorem Ends.ret {a : α} {post : α → σ → Prop} (h : post a s) :
    Ends (pure a : StateT σ (Except ε) α) s post :=
  ⟨a, s, rfl, h⟩

theorem Ends.of_eq {a : α} {s' : σ} {post : α → σ → Prop} (hp : p s = .ok (a, s')) (h : post a s') :
    Ends p s post :=
  ⟨a, s', hp, h⟩

theorem Ends.mono {post post' : α → σ → Prop} (h : Ends p s post)
    (himp : ∀ a s', post a s' → post' a s') : Ends p s post' := by
  obtain ⟨a, s', hp, hpost⟩ := h
  exact ⟨a, s', hp, himp a s' hpost⟩

theorem Ends.bind {mid : α → σ → Prop} {post : β → σ → Prop} (h : Ends p s mid)
    (hf : ∀ a s', mid a s' → Ends (f a) s' post) : Ends (p >>= f) s post := by
  obtain ⟨a, s', hp, hmid⟩ := h
  obtain ⟨b, s'', hf', hpost⟩ := hf a s' hmid
  exact ⟨b, s'', (bind_ok hp).trans hf', hpost⟩

/-- After a program whose result is known. -/
theorem Ends.step {a : α} {s' : σ} {post : β → σ → Prop} (hp : p s = .ok (a, s')) (h : Ends (f a) s' post) :
    Ends (p >>= f) s post := by
  rw [Ends, bind_ok hp]
  exact h

end Xv6.Library.Total
