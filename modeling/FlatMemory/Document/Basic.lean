import FlatMemory.Types.Declaration

/-! # Documents

A source after its definition blocks have been taken out: the residual text, the declarations with
the place where each stood, and where copying went on after each run of blocks. -/

namespace FlatMemory

/-- The residual text from `offset` on starts at the source line `line`. -/
structure Resume where
  offset : Nat
  line : Nat
  deriving DecidableEq, Repr

structure Document where
  file : String
  residual : Text
  resumes : List Resume
  declarations : List Declaration
  deriving DecidableEq, Repr

/-- Source line of the residual text at a byte offset: that of the last resume point up to it, plus
the line breaks in between.  An offset past the end or inside a character counts no line break. -/
def Document.residualLine (document : Document) (offset : Nat) : Nat :=
  let reached := document.resumes.takeWhile fun resume => resume.offset ≤ offset
  let ⟨start, line⟩ := reached.getLastD ⟨0, 1⟩
  line + Text.lineBreaks ((document.residual.slice? start offset).getD [])

end FlatMemory
