/-!
# Results that may be failures

A result that goes through further steps succeeds exactly if it and all the steps do, and a change
of its value neither makes nor mends a failure.
-/

set_option autoImplicit false
set_option relaxedAutoImplicit false

namespace CommandScript

section Results

variable {ε α β : Type} {result : Except ε α} {value : β}

theorem map_eq_ok_iff {f : α → β} :
    f <$> result = .ok value ↔ ∃ before, result = .ok before ∧ f before = value := by
  cases result with
  | error failure => simp [Functor.map, Except.map]
  | ok before => simp [Functor.map, Except.map]

theorem map_eq_error_iff {f : α → β} {failure : ε} :
    f <$> result = .error failure ↔ result = .error failure := by
  cases result with
  | error other => simp [Functor.map, Except.map]
  | ok before => simp [Functor.map, Except.map]

theorem bind_eq_ok_iff {f : α → Except ε β} :
    result >>= f = .ok value ↔ ∃ before, result = .ok before ∧ f before = .ok value := by
  cases result with
  | error failure => simp [bind, Except.bind]
  | ok before => simp [bind, Except.bind]

theorem mapError_map {δ : Type} (f : α → β) (g : ε → δ) :
    (f <$> result).mapError g = f <$> result.mapError g := by
  cases result <;> rfl

end Results

end CommandScript
