/-!
# Answers that are there

What is known of the parts of a computation that has come to an answer.
-/

set_option autoImplicit false

namespace PageInliner

variable {ε η α β : Type}

theorem bind_eq_ok {first : Except ε α} {next : α → Except ε β} {result : β}
    (made : first >>= next = .ok result) : ∃ value, first = .ok value ∧ next value = .ok result := by
  cases first with
  | error error => cases made
  | ok value => exact ⟨value, rfl, made⟩

theorem map_eq_ok {answer : Except ε α} {change : α → β} {result : β}
    (made : answer.map change = .ok result) : ∃ value, answer = .ok value ∧ change value = result := by
  cases answer with
  | error error => cases made
  | ok value =>
    cases made
    exact ⟨value, rfl, rfl⟩

theorem exists_eq_of_isOk {answer : Except ε Unit × α} (succeeds : answer.1.isOk = true) :
    ∃ after, answer = (.ok (), after) := by
  obtain ⟨result, after⟩ := answer
  cases result with
  | error error => cases succeeds
  | ok _ => exact ⟨after, rfl⟩

theorem mapError_eq_ok {answer : Except ε α} {change : ε → η} {result : α}
    (made : answer.mapError change = .ok result) : answer = .ok result := by
  cases answer with
  | error error => cases made
  | ok value =>
    cases made
    rfl

end PageInliner
