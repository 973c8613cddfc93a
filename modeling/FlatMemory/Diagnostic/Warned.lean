import FlatMemory.Diagnostic.Failure

/-! # Results with warnings

A computation that may warn and may fail.  The warnings given before a failure are kept. -/

namespace FlatMemory

structure Warned (α : Type) where
  warnings : List Diagnostic
  result : Except Failure α

namespace Warned

variable {α β : Type}

def ofResult (result : Except Failure α) : Warned α := ⟨[], result⟩

def bind (first : Warned α) (next : α → Warned β) : Warned β :=
  match first.result with
  | .error failure => ⟨first.warnings, .error failure⟩
  | .ok a => ⟨first.warnings ++ (next a).warnings, (next a).result⟩

instance : Monad Warned where
  pure a := ⟨[], .ok a⟩
  bind := bind

def warn (diagnostic : Diagnostic) : Warned Unit := ⟨[diagnostic], .ok ()⟩

def fail (failure : Failure) : Warned α := ⟨[], .error failure⟩

end Warned

end FlatMemory
