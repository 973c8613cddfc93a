/-! # Steps that can fail

A result that was reached through a step shows that the step succeeded. -/

namespace FlatMemory

theorem exists_of_map_eq_ok {α β ε : Type} {f : α → β} {result : Except ε α} {b : β}
    (mapped : result.map f = .ok b) : ∃ a, result = .ok a ∧ f a = b := by
  cases result with
  | error error => simp [Except.map] at mapped
  | ok a => exact ⟨a, rfl, Except.ok.inj mapped⟩

theorem exists_of_bind_eq_ok {α β ε : Type} {result : Except ε α} {f : α → Except ε β} {b : β}
    (bound : (result >>= f) = .ok b) : ∃ a, result = .ok a ∧ f a = .ok b := by
  cases result with
  | error error => simp [bind, Except.bind] at bound
  | ok a => exact ⟨a, rfl, bound⟩

end FlatMemory
