import FlatMemory.Session.ClassTag
import FlatMemory.Session.Containment
import FlatMemory.Session.Dispatch
import FlatMemory.Session.Layout
import FlatMemory.Session.Resolution

/-! # Analysis of a program

Names are resolved, cycles refused, types laid out, classes tagged and dispatch tables built.  The
first failure ends the analysis. -/

namespace FlatMemory

namespace Analysis

def all : Analysis Unit := do
  resolveTypes
  checkCycles
  layoutTypes
  assignTags
  buildDispatchers

end Analysis

/-- Analyse a session.  The session is returned also when it fails. -/
def Session.analyze (session : Session) : Except Failure Unit × Session :=
  match Analysis.all.run session with
  | .ok () analysed => (.ok (), analysed)
  | .error failure reached => (.error failure, reached)

end FlatMemory
