import Mathlib

/-!
# Computations that may fail

A sequence of steps in `Except` that succeeds has succeeded at every step. That is
all a proof about the successful runs of a program needs to take it apart
(`E2fsprogs.bind_eq_ok`).
-/

namespace E2fsprogs

variable {ε α β : Type}

theorem ok_bind (a : α) (f : α → Except ε β) : (Except.ok a >>= f) = f a := rfl

theorem bind_eq_ok {x : Except ε α} {f : α → Except ε β} {r : β} :
    (x >>= f) = .ok r ↔ ∃ a, x = .ok a ∧ f a = .ok r := by
  cases x with
  | error e =>
    constructor
    · intro h
      cases h
    · rintro ⟨a, ha, -⟩
      cases ha
  | ok a =>
    constructor
    · exact fun h => ⟨a, rfl, h⟩
    · rintro ⟨b, hb, h⟩
      cases hb
      exact h

theorem pure_eq_ok {a r : α} : (pure a : Except ε α) = .ok r ↔ a = r := by
  constructor
  · intro h
    cases h
    rfl
  · rintro rfl
    rfl

/-- A failing branch that is not taken. -/
theorem ite_error_eq_ok {p : Prop} [Decidable p] {e : ε} {x : Except ε α} {r : α} :
    (if p then .error e else x) = .ok r ↔ ¬p ∧ x = .ok r := by
  by_cases h : p
  · simp [h]
  · simp [h]

end E2fsprogs
