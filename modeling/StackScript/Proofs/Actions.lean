/-!
# Sequences of actions

The compiler, the machine and the evaluator are all sequences of actions that change a state and may
fail. What a sequence does follows from what its first action does.
-/

namespace StackScript

variable {ε σ α β : Type} {x : EStateM ε σ α} {f : α → EStateM ε σ β} {s s' : σ}

/-- The second action starts where the first one ended. -/
theorem bind_of_ok {a : α} (h : x s = .ok a s') : (x >>= f) s = f a s' := by
  change EStateM.bind x f s = f a s'
  simp [EStateM.bind, h]

/-- A failure skips the second action. -/
theorem bind_of_error {e : ε} (h : x s = .error e s') : (x >>= f) s = .error e s' := by
  change EStateM.bind x f s = .error e s'
  simp [EStateM.bind, h]

/-- A sequence succeeds exactly if its parts do. -/
theorem bind_eq_ok {b : β} :
    (x >>= f) s = .ok b s' ↔ ∃ a t, x s = .ok a t ∧ f a t = .ok b s' := by
  cases hx : x s with
  | error e t => simp [bind_of_error hx]
  | ok a t =>
    rw [bind_of_ok hx]
    constructor
    · intro h
      exact ⟨a, t, rfl, h⟩
    · rintro ⟨_, _, hat, h⟩
      cases hat
      exact h

theorem get_apply (s : σ) : (get : EStateM ε σ σ) s = .ok s s := rfl

theorem modifyGet_apply (g : σ → α × σ) (s : σ) :
    (modifyGet g : EStateM ε σ α) s = .ok (g s).1 (g s).2 := rfl

theorem modify_apply (g : σ → σ) (s : σ) : (modify g : EStateM ε σ PUnit) s = .ok () (g s) := rfl

theorem discard_of_ok {a : α} (h : x s = .ok a s') : discard x s = .ok () s' := by
  change EStateM.map _ x s = .ok () s'
  simp [EStateM.map, h]

theorem discard_of_error {e : ε} (h : x s = .error e s') : discard x s = .error e s' := by
  change EStateM.map _ x s = .error e s'
  simp [EStateM.map, h]

/-- Actions that do the same can be followed by the same. -/
theorem bind_apply_congr {y : EStateM ε σ α} (h : x s = y s') : (x >>= f) s = (y >>= f) s' := by
  change EStateM.bind x f s = EStateM.bind y f s'
  simp [EStateM.bind, h]

end StackScript
