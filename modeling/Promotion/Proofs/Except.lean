/-!
# `Promotion.Proofs.Except`: results that are there

Reading goes step by step, and each step can fail. A result that is there was made
from the results of all steps.

* `map_eq_ok_iff`, `bind_eq_ok_iff`: the step before is told by its result.
* `eq_ok_of_toOption`: a result by what is left when errors are forgotten.
-/

set_option autoImplicit false

namespace Promotion

variable {ε α β : Type}

/-- A result that was worked on is there when it was there before. -/
theorem map_eq_ok_iff {f : α → β} {r : Except ε α} {b : β} :
    r.map f = .ok b ↔ ∃ a, r = .ok a ∧ f a = b := by
  cases r <;> simp [Except.map]

/-- Two steps give a result when the first one gives one from which the second one gives
it. -/
theorem bind_eq_ok_iff {f : α → Except ε β} {r : Except ε α} {b : β} :
    (r >>= f) = .ok b ↔ ∃ a, r = .ok a ∧ f a = .ok b := by
  cases r <;> simp [Bind.bind, Except.bind]

/-- A result that is left when errors are forgotten was there. -/
theorem eq_ok_of_toOption {r : Except ε α} {a : α} (h : r.toOption = some a) : r = .ok a := by
  cases r with
  | error e => cases h
  | ok b => exact congrArg _ (Option.some.inj h)

end Promotion
