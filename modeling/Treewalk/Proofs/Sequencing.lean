import Treewalk.Table

/-! # Sequencing

    A computation with a state and failures, cut at its first step: what the
    whole does is read off what the first step does. -/

namespace Treewalk

variable {ε σ α β : Type} {x : EStateM ε σ α} {s s' : σ}

theorem bind_of_ok {a : α} (h : x s = .ok a s') (f : α → EStateM ε σ β) :
    (x >>= f) s = f a s' := by
  show EStateM.bind x f s = f a s'
  simp only [EStateM.bind, h]

theorem bind_of_error {e : ε} (h : x s = .error e s') (f : α → EStateM ε σ β) :
    (x >>= f) s = .error e s' := by
  show EStateM.bind x f s = .error e s'
  simp only [EStateM.bind, h]

theorem ok_of_bind_ok {b : β} {f : α → EStateM ε σ β} (h : (x >>= f) s = .ok b s') :
    ∃ a s₁, x s = .ok a s₁ ∧ f a s₁ = .ok b s' := by
  cases hx : x s with
  | ok a s₁ =>
    rw [bind_of_ok hx] at h
    exact ⟨a, s₁, rfl, h⟩
  | error e s₁ =>
    rw [bind_of_error hx] at h
    cases h

theorem map_of_ok {a : α} (h : x s = .ok a s') (f : α → β) : (f <$> x) s = .ok (f a) s' := by
  show EStateM.map f x s = .ok (f a) s'
  simp only [EStateM.map, h]

theorem map_of_error {e : ε} (h : x s = .error e s') (f : α → β) :
    (f <$> x) s = .error e s' := by
  show EStateM.map f x s = .error e s'
  simp only [EStateM.map, h]

end Treewalk
