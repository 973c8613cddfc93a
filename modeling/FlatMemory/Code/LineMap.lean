import FlatMemory.Text.Basic

/-! # Source lines of pasted text

Pasted text mixes copied source with generated code.  A line map is a list of runs in the order of
their offsets.  Inside a source run the line advances with every line feed; inside a fixed run every
position is on the line of the definition that the code was generated for.

A lookup counts lines in a word of 32 bits. -/

namespace FlatMemory

inductive Flow where
  | source
  | fixed
  deriving DecidableEq, Repr

structure Run where
  offset : Nat
  line : Nat
  flow : Flow
  deriving DecidableEq, Repr

namespace Run

def initial : Run := ⟨0, 1, .source⟩

/-- Line of a position that the run reaches, by the line feeds in between and without a bound.
Positions past the end of the text are on its last line. -/
def lineAt (run : Run) (text : Text) (position : Nat) : Nat :=
  match run.flow with
  | .fixed => run.line
  | .source => run.line + text.lineBreaksBetween run.offset position 0

end Run

structure LineMap where
  runs : List Run
  deriving DecidableEq, Repr

namespace LineMap

/-- Plain text that starts at line 1. -/
def plain : LineMap := ⟨[Run.initial]⟩

/-- Text that is on one line until told otherwise. -/
def fixed (line : Nat) : LineMap := ⟨[⟨0, line, .fixed⟩]⟩

/-- Add a run at the end.  It takes the place of a last run that does not start before it. -/
def pushRun : List Run → Run → List Run
  | [], run => [run]
  | [last], run => if last.offset ≥ run.offset then [run] else [last, run]
  | first :: second :: later, run => first :: pushRun (second :: later) run

def push (map : LineMap) (run : Run) : LineMap := ⟨pushRun map.runs run⟩

def sourceFrom (map : LineMap) (offset line : Nat) : LineMap := map.push ⟨offset, line, .source⟩

def fixedFrom (map : LineMap) (offset line : Nat) : LineMap := map.push ⟨offset, line, .fixed⟩

/-- Append the runs of a text that is inserted at an offset. -/
def splice (map : LineMap) (offset : Nat) (inner : LineMap) : LineMap :=
  inner.runs.foldl (fun map run => map.push { run with offset := offset + run.offset }) map

def runAt (map : LineMap) (position : Nat) : Run :=
  (map.runs.takeWhile fun run => run.offset ≤ position).getLastD Run.initial

def lineAt (map : LineMap) (text : Text) (position : Nat) : Nat :=
  (map.runAt position).lineAt text position

end LineMap

/-- A place in a line map from which later positions are found without starting over. -/
structure LineCursor where
  later : List Run
  position : Nat
  line : UInt32
  flow : Flow
  deriving DecidableEq, Repr

namespace LineCursor

def start (map : LineMap) : LineCursor := ⟨map.runs, 0, 1, .source⟩

/-- Enter every run that starts up to a position. -/
def enter (position : Nat) (cursor : LineCursor) : List Run → LineCursor
  | [] => { cursor with later := [] }
  | run :: later =>
    if run.offset ≤ position then
      enter position ⟨later, run.offset, UInt32.ofNat run.line, run.flow⟩ later
    else { cursor with later := run :: later }

/-- Line feeds between two positions, at most as many as a line number can be. -/
def feedsBetween (text : Text) (start stop : Nat) : UInt32 :=
  UInt32.ofNat (min (text.lineBreaksBetween start stop 0) (UInt32.size - 1))

/-- Line of a position, and the cursor there.  Going back starts over. -/
def moveTo (map : LineMap) (text : Text) (cursor : LineCursor) (position : Nat) :
    UInt32 × LineCursor :=
  let begun := if position < cursor.position then start map else cursor
  let entered := enter position begun begun.later
  let line := match entered.flow with
    | .fixed => entered.line
    | .source => entered.line + feedsBetween text entered.position position
  (line, { entered with position := position, line := line })

def lines (map : LineMap) (text : Text) : LineCursor → List Nat → List UInt32
  | _, [] => []
  | cursor, position :: positions =>
    let (line, moved) := moveTo map text cursor position
    line :: lines map text moved positions

end LineCursor

def LineMap.linesAt (map : LineMap) (text : Text) (positions : List Nat) : List Nat :=
  ((LineCursor.start map).lines map text positions).map UInt32.toNat

/-- Offsets of the starts of the lines of a text: zero, and behind each line feed. -/
def Text.lineStarts (text : Text) : List Nat := 0 :: behindBreaks 0 text
where
  behindBreaks (offset : Nat) : Text → List Nat
    | [] => []
    | c :: cs =>
      let next := offset + c.utf8Size
      if c = '\n' then next :: behindBreaks next cs else behindBreaks next cs

end FlatMemory
