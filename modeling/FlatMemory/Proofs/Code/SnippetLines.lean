import FlatMemory.Proofs.Code.Generated
import FlatMemory.Proofs.Code.LineMap

/-! # Lines of generated code

The code of a type is a sequence of parts: lines made up for the definition, and functions that hold
the body of a declared method.  Made-up text is on the line of the definition.  From the opening brace
of a declared body through the semicolon behind it, lines count up from that of the brace in the
source. -/

namespace FlatMemory

open List

inductive CodePart where
  | lines (text : Text)
  | function (target : String) (method : Method) (body : Text)
  deriving DecidableEq, Repr

namespace CodePart

def head : CodePart → Text
  | lines text => text
  | function target method _ => '\n' :: (Snippet.functionHead target method).toList

def tail : CodePart → Text
  | lines _ => []
  | function _ _ body => Snippet.braced body ++ [';']

def tailLine : CodePart → Nat
  | lines _ => 0
  | function _ method _ => method.line

def isFunction : CodePart → Bool
  | lines _ => false
  | function .. => true

def written (parts : List CodePart) : Text := parts.flatMap fun part => part.head ++ part.tail

theorem written_append (first second : List CodePart) :
    written (first ++ second) = written first ++ written second := by
  simp [written]

theorem written_singleton (part : CodePart) : written [part] = part.head ++ part.tail := by
  simp [written]

/-- `lineAt` answers for the bytes of the parts: made-up text is on the line `home`, and tails count
up from their own line. -/
def Lined (home : Nat) (parts : List CodePart) (lineAt : Nat → Nat) : Prop :=
  ∀ earlier part later, parts = earlier ++ part :: later →
    (∀ position < part.head.byteLength,
      lineAt ((written earlier).byteLength + position) = home) ∧
    ∀ position < part.tail.byteLength,
      lineAt ((written earlier).byteLength + (part.head.byteLength + position)) =
        part.tailLine + part.tail.lineBreaksBetween 0 position 0

theorem Lined.congr {home : Nat} {parts : List CodePart} {before after : Nat → Nat}
    (lined : Lined home parts before)
    (kept : ∀ position < (written parts).byteLength, after position = before position) :
    Lined home parts after := by
  rintro earlier part later rfl
  obtain ⟨heads, tails⟩ := lined earlier part later rfl
  have room : (written (earlier ++ part :: later)).byteLength =
      (written earlier).byteLength + (part.head.byteLength + part.tail.byteLength +
        (written later).byteLength) := by
    rw [← singleton_append, written_append, written_append, written_singleton]
    simp [Nat.add_assoc]
  refine ⟨fun position inside => ?_, fun position inside => ?_⟩
  · rw [kept _ (by omega), heads position inside]
  · rw [kept _ (by omega), tails position inside]

theorem Lined.snoc {home : Nat} {parts : List CodePart} {last : CodePart} {lineAt : Nat → Nat}
    (lined : Lined home parts lineAt)
    (head : ∀ position < last.head.byteLength,
      lineAt ((written parts).byteLength + position) = home)
    (tail : ∀ position < last.tail.byteLength,
      lineAt ((written parts).byteLength + (last.head.byteLength + position)) =
        last.tailLine + last.tail.lineBreaksBetween 0 position 0) :
    Lined home (parts ++ [last]) lineAt := by
  intro earlier part later split
  rcases eq_nil_or_concat later with rfl | ⟨later, other, rfl⟩
  · obtain ⟨rfl, same⟩ := append_inj' split rfl
    cases same
    exact ⟨head, tail⟩
  · rw [concat_eq_append, ← cons_append, ← append_assoc] at split
    obtain ⟨rfl, _⟩ := append_inj' split rfl
    exact lined earlier part later rfl

end CodePart

theorem LineMap.lineAt_append (map : LineMap) {text : Text} (more : Text) {position : Nat}
    (inside : position ≤ text.byteLength) :
    map.lineAt (text ++ more) position = map.lineAt text position := by
  unfold lineAt Run.lineAt
  rw [Text.lineBreaksBetween_front more inside]

theorem Run.lineAt_of_fixed {run : Run} {line : Nat} (fixed : run.flow = .fixed ∧ run.line = line)
    (text : Text) (position : Nat) : run.lineAt text position = line := by
  unfold lineAt
  rw [fixed.1]
  exact fixed.2

/-- A snippet is made of parts, its lines are those of the parts, and text that is added to it is
on the line of the definition. -/
structure Snippet.Consists (snippet : Snippet) (parts : List CodePart) : Prop where
  text : snippet.text = CodePart.written parts
  spans : snippet.lines.Spans snippet.text.byteLength
  goesOn : ∀ position, snippet.text.byteLength ≤ position →
    (snippet.lines.runAt position).flow = .fixed ∧
      (snippet.lines.runAt position).line = snippet.home
  lined : CodePart.Lined snippet.home parts (snippet.lines.lineAt snippet.text)

namespace Snippet

theorem consists_ofLine (home : Nat) (line : String) :
    (ofLine home line).Consists [.lines line.toList] := by
  have fixed : ∀ position, (LineMap.fixed home).runAt position = ⟨0, home, .fixed⟩ := by
    intro position
    simp [LineMap.fixed, LineMap.runAt]
  refine ⟨?_, ⟨rfl, pairwise_singleton _ _, by simp [ofLine, LineMap.fixed]⟩, ?_, ?_⟩
  · simp [ofLine, CodePart.written, CodePart.head, CodePart.tail]
  · intro position _
    rw [ofLine, fixed]
    exact ⟨rfl, rfl⟩
  · rw [← nil_append [CodePart.lines line.toList]]
    refine CodePart.Lined.snoc ?_ ?_ ?_
    · intro earlier part later split
      simp at split
    · intro position _
      have here := fixed ((CodePart.written []).byteLength + position)
      exact Run.lineAt_of_fixed (by rw [ofLine, here]; exact ⟨rfl, rfl⟩) _ _
    · intro position inside
      cases inside

namespace Consists

variable {snippet : Snippet} {parts : List CodePart}

theorem addLine (consists : snippet.Consists parts) (line : String) :
    (snippet.addLine line).Consists (parts ++ [.lines ('\n' :: line.toList)]) := by
  have longer : (snippet.addLine line).text.byteLength =
      snippet.text.byteLength + Text.byteLength ('\n' :: line.toList) := by
    simp [Snippet.addLine]
  refine ⟨?_, consists.spans.mono (by omega), fun position inside => ?_, ?_⟩
  · rw [CodePart.written_append, CodePart.written_singleton, ← consists.text]
    simp [Snippet.addLine, CodePart.head, CodePart.tail]
  · exact consists.goesOn position (by omega)
  · refine (consists.lined.congr fun position inside => ?_).snoc (fun position inside => ?_) ?_
    · rw [← consists.text] at inside
      exact snippet.lines.lineAt_append _ (Nat.le_of_lt inside)
    · rw [← consists.text]
      exact Run.lineAt_of_fixed (consists.goesOn _ (Nat.le_add_right _ _)) _ _
    · intro position inside
      cases inside

theorem addFunction (consists : snippet.Consists parts) (target : String) (method : Method)
    (body : Text) :
    (snippet.addFunction target method body).Consists (parts ++ [.function target method body]) := by
  -- The run of the body starts at its brace and the run behind it at the end of the text.
  obtain ⟨opened, isOpened⟩ : ∃ opened,
      opened = snippet.text ++ (CodePart.function target method body).head := ⟨_, rfl⟩
  obtain ⟨closed, isClosed⟩ : ∃ closed,
      closed = opened ++ (CodePart.function target method body).tail := ⟨_, rfl⟩
  have closes : (snippet.addFunction target method body).text = closed := by
    rw [isClosed, isOpened]
    exact append_assoc _ (braced body) [';']
  have runs : (snippet.addFunction target method body).lines =
      (snippet.lines.push ⟨opened.byteLength, method.line, .source⟩).push
        ⟨closed.byteLength, snippet.home, .fixed⟩ := by
    rw [← closes, isOpened]
    rfl
  have toOpened : snippet.lines.Spans opened.byteLength := consists.spans.mono (by simp [isOpened])
  have toClosed : (snippet.lines.push ⟨opened.byteLength, method.line, .source⟩).Spans
      closed.byteLength := by
    refine LineMap.Spans.mono (LineMap.Spans.push ?_) (?_ : opened.byteLength ≤ _)
    · exact toOpened
    · simp [isClosed]
  have runAt : ∀ position, (snippet.addFunction target method body).lines.runAt position =
      if closed.byteLength ≤ position then ⟨closed.byteLength, snippet.home, .fixed⟩
      else if opened.byteLength ≤ position then ⟨opened.byteLength, method.line, .source⟩
      else snippet.lines.runAt position := by
    intro position
    rw [runs, LineMap.runAt_push toClosed, LineMap.runAt_push toOpened]
  refine ⟨?_, ?_, ?_, ?_⟩
  · rw [CodePart.written_append, CodePart.written_singleton, ← consists.text, closes, isClosed,
      isOpened, append_assoc]
  · rw [closes, runs]
    exact LineMap.Spans.push toClosed
  · intro position behind
    rw [closes] at behind
    rw [runAt, if_pos behind]
    exact ⟨rfl, rfl⟩
  · have room : closed.byteLength = opened.byteLength +
        (CodePart.function target method body).tail.byteLength := by
      rw [isClosed, Text.byteLength_append]
    have start : opened.byteLength = (CodePart.written parts).byteLength +
        (CodePart.function target method body).head.byteLength := by
      rw [isOpened, consists.text, Text.byteLength_append]
    refine (consists.lined.congr fun position inside => ?_).snoc (fun position inside => ?_)
      (fun position inside => ?_)
    · rw [LineMap.lineAt, runAt, if_neg (by omega), if_neg (by omega), closes, isClosed, isOpened,
        append_assoc]
      rw [← consists.text] at inside
      exact snippet.lines.lineAt_append _ (Nat.le_of_lt inside)
    · rw [LineMap.lineAt, runAt, if_neg (by omega), if_neg (by omega)]
      refine Run.lineAt_of_fixed (consists.goesOn _ ?_) _ _
      rw [consists.text]
      exact Nat.le_add_right _ _
    · rw [← Nat.add_assoc, ← start, LineMap.lineAt, runAt, if_neg (by omega), if_pos (by omega),
        closes, isClosed]
      exact Run.lineAt_source opened _ method.line position

end Consists

end Snippet

/-! ### The code of a type -/

namespace Generate

def Writes (session : Session) (type : UserType) (method : Method) (part : CodePart) : Prop :=
  ∃ body, session.expandBody type method = .ok body ∧
    part = .function (definedName type method) method body

def ConsistsOf (session : Session) (type : UserType) (methods : List Method) (snippet : Snippet)
    (parts : List CodePart) : Prop :=
  snippet.Consists parts ∧ snippet.home = type.declaration.line ∧
    List.Forall₂ (Writes session type) methods (parts.filter CodePart.isFunction)

theorem Builds.consists {session : Session} {type : UserType} {methods : List Method}
    {snippet : Snippet} (built : Builds session type methods snippet) :
    ∃ parts, ConsistsOf session type methods snippet parts := by
  induction built with
  | start => exact ⟨_, Snippet.consists_ofLine _ _, rfl, .nil⟩
  | line _ _ ih =>
    obtain ⟨parts, consists, home, functions⟩ := ih
    refine ⟨_, consists.addLine _, home, ?_⟩
    simpa [CodePart.isFunction] using functions
  | @function _ _ _ method body _ expanded ih =>
    obtain ⟨parts, consists, home, functions⟩ := ih
    refine ⟨_, consists.addFunction _ method body, home, ?_⟩
    rw [filter_append]
    exact rel_append functions (.cons ⟨body, expanded, rfl⟩ .nil)

end Generate

end FlatMemory
