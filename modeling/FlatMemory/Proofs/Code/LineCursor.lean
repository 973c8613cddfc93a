import FlatMemory.Proofs.Code.LineMap

/-! # Line lookups

A cursor keeps the line of the position that it was last asked for and goes on from there.  Whatever
it was asked before, it answers with the run that a position belongs to: it stands in that run, and
the line breaks up to the position add up.  It adds in words of 32 bits, so this is the line of every
position whose line fits into one. -/

namespace FlatMemory

open List

variable {map : LineMap} {text : Text} {position : Nat}

theorem Text.lineBreaksBetween_add {start middle stop : Nat} (first : start ≤ middle)
    (second : middle ≤ stop) (offset : Nat) (text : Text) :
    lineBreaksBetween start stop offset text =
      lineBreaksBetween start middle offset text + lineBreaksBetween middle stop offset text := by
  induction text generalizing offset with
  | nil => rfl
  | cons c cs ih =>
    have here : (if c = '\n' ∧ start ≤ offset ∧ offset < stop then 1 else 0) =
        (if c = '\n' ∧ start ≤ offset ∧ offset < middle then 1 else 0) +
          if c = '\n' ∧ middle ≤ offset ∧ offset < stop then 1 else 0 := by
      grind
    rw [lineBreaksBetween, lineBreaksBetween, lineBreaksBetween, ih, here]
    omega

theorem Run.lineAt_fixed {run : Run} (flow : run.flow = .fixed) (text : Text) (position : Nat) :
    run.lineAt text position = run.line := by
  rw [lineAt, flow]

theorem Run.lineAt_further {run : Run} (flow : run.flow = .source) {reached : Nat}
    (entered : run.offset ≤ reached) (ahead : reached ≤ position) :
    run.lineAt text position =
      run.lineAt text reached + text.lineBreaksBetween reached position 0 := by
  simp only [lineAt, flow]
  rw [Text.lineBreaksBetween_add entered ahead, Nat.add_assoc]

theorem Run.lineAt_offset (run : Run) (text : Text) : run.lineAt text run.offset = run.line := by
  have whole := Text.lineBreaksBetween_add (Nat.le_refl run.offset) (Nat.le_refl _) 0 text
  cases flow : run.flow with
  | fixed => exact lineAt_fixed flow text _
  | source =>
    simp only [lineAt, flow]
    omega

namespace LineCursor

variable {cursor : LineCursor}

structure Inside (text : Text) (cursor : LineCursor) (run : Run) : Prop where
  entered : run.offset ≤ cursor.position
  flow : cursor.flow = run.flow
  line : run.lineAt text cursor.position < UInt32.size →
    cursor.line = UInt32.ofNat (run.lineAt text cursor.position)

theorem Inside.withLater {run : Run} (inside : Inside text cursor run) (later : List Run) :
    Inside text { cursor with later := later } run :=
  ⟨inside.entered, inside.flow, inside.line⟩

/-- The cursor passes runs up to the first that starts behind the position. -/
theorem Inside.enter {entered : List Run} (later : List Run)
    (inside : Inside text cursor (entered.getLastD Run.initial))
    (ahead : cursor.position ≤ position) :
    (enter position cursor later).later = later.dropWhile (fun run => run.offset ≤ position) ∧
      (enter position cursor later).position ≤ position ∧
      Inside text (enter position cursor later)
        ((entered ++ later.takeWhile fun run => run.offset ≤ position).getLastD Run.initial) := by
  induction later generalizing cursor entered with
  | nil =>
    rw [takeWhile_nil, append_nil]
    exact ⟨rfl, ahead, inside.withLater []⟩
  | cons run later ih =>
    rw [takeWhile_cons, dropWhile_cons]
    unfold LineCursor.enter
    split
    · next here =>
      have standing : Inside text ⟨later, run.offset, UInt32.ofNat run.line, run.flow⟩
          ((entered ++ [run]).getLastD Run.initial) := by
        rw [getLastD_concat]
        exact ⟨Nat.le_refl _, rfl, fun _ => by rw [run.lineAt_offset text]⟩
      have next := ih standing here
      rw [append_assoc] at next
      simpa [here] using next
    · next behind =>
      rw [if_neg (by simpa using behind), if_neg (by simpa using behind), append_nil]
      exact ⟨rfl, ahead, inside.withLater _⟩

def Tracks (map : LineMap) (text : Text) (cursor : LineCursor) : Prop :=
  ∃ entered, map.runs = entered ++ cursor.later ∧
    (∀ run ∈ entered, run.offset ≤ cursor.position) ∧
      Inside text cursor (entered.getLastD Run.initial)

theorem tracks_start (map : LineMap) (text : Text) : Tracks map text (start map) :=
  ⟨[], rfl, nofun, Nat.le_refl 0, rfl,
    fun _ => congrArg UInt32.ofNat (Run.initial.lineAt_offset text).symm⟩

/-- Further on in a run the line grows by the line feeds that are passed. -/
theorem Inside.further {run : Run} (inside : Inside text cursor run) (source : run.flow = .source)
    (ahead : cursor.position ≤ position) (fits : run.lineAt text position < UInt32.size) :
    cursor.line + feedsBetween text cursor.position position =
      UInt32.ofNat (run.lineAt text position) := by
  rw [Run.lineAt_further source inside.entered ahead] at fits ⊢
  rw [inside.line (by omega), feedsBetween, Nat.min_eq_left (by omega), UInt32.ofNat_add]

theorem Tracks.moveTo (tracks : Tracks map text cursor) (position : Nat) :
    (map.lineAt text position < UInt32.size →
      (moveTo map text cursor position).1 = UInt32.ofNat (map.lineAt text position)) ∧
      Tracks map text (moveTo map text cursor position).2 := by
  obtain ⟨begun, isBegun, tracks, ahead⟩ : ∃ begun,
      begun = (if position < cursor.position then start map else cursor) ∧
        Tracks map text begun ∧ begun.position ≤ position := by
    split
    · exact ⟨_, rfl, tracks_start map text, Nat.zero_le _⟩
    · exact ⟨_, rfl, tracks, by omega⟩
  obtain ⟨entered, split, passed, inside⟩ := tracks
  obtain ⟨later, reached, inside⟩ := inside.enter begun.later ahead
  have through : map.runs.takeWhile (fun run => run.offset ≤ position) =
      entered ++ begun.later.takeWhile fun run => run.offset ≤ position := by
    rw [split]
    exact takeWhile_append_of_pos fun run member =>
      by simpa using Nat.le_trans (passed run member) ahead
  rw [← through] at inside
  have answer : map.lineAt text position < UInt32.size →
      (LineCursor.moveTo map text cursor position).1 = UInt32.ofNat (map.lineAt text position) := by
    unfold LineCursor.moveTo LineMap.lineAt LineMap.runAt
    rw [← isBegun]
    intro fits
    cases flow : (enter position begun begun.later).flow with
    | fixed =>
      have fixed := inside.flow.symm.trans flow
      simp only [flow]
      rw [Run.lineAt_fixed fixed] at fits ⊢
      rw [inside.line (by rwa [Run.lineAt_fixed fixed]), Run.lineAt_fixed fixed]
    | source =>
      simp only [flow]
      exact inside.further (inside.flow.symm.trans flow) reached fits
  have moved : (LineCursor.moveTo map text cursor position).2.later =
      (enter position begun begun.later).later ∧
      (LineCursor.moveTo map text cursor position).2.flow =
        (enter position begun begun.later).flow := by
    rw [isBegun]
    exact ⟨rfl, rfl⟩
  refine ⟨answer, map.runs.takeWhile fun run => run.offset ≤ position, ?_, ?_,
    Nat.le_trans inside.entered reached, moved.2.trans inside.flow, answer⟩
  · rw [moved.1, later, through, append_assoc, takeWhile_append_dropWhile, split]
  · intro run member
    have reached := mem_takeWhile_imp member
    exact of_decide_eq_true reached

theorem Tracks.lines (tracks : Tracks map text cursor) {positions : List Nat}
    (fits : ∀ position ∈ positions, map.lineAt text position < UInt32.size) :
    (lines map text cursor positions).map UInt32.toNat = positions.map (map.lineAt text) := by
  induction positions generalizing cursor with
  | nil => rfl
  | cons position positions ih =>
    obtain ⟨first, later⟩ := forall_mem_cons.1 fits
    obtain ⟨answer, moved⟩ := tracks.moveTo position
    rw [LineCursor.lines, map_cons, map_cons, ← ih moved later, answer first,
      UInt32.toNat_ofNat_of_lt' first]

end LineCursor

theorem LineMap.linesAt_eq {positions : List Nat}
    (fits : ∀ position ∈ positions, map.lineAt text position < UInt32.size) :
    map.linesAt text positions = positions.map (map.lineAt text) :=
  (LineCursor.tracks_start map text).lines fits

/-! ### Maps that are built by calls -/

inductive LineBuild where
  | plain
  | fixed (line : UInt32)
  /-- A run at the end, that counts lines or is on one line. -/
  | run (earlier : LineBuild) (flow : Flow) (offset : Nat) (line : UInt32)
  | splice (earlier : LineBuild) (offset : Nat) (inner : LineBuild)

namespace LineBuild

def toMap : LineBuild → LineMap
  | plain => .plain
  | fixed line => .fixed line.toNat
  | run earlier .source offset line => earlier.toMap.sourceFrom offset line.toNat
  | run earlier .fixed offset line => earlier.toMap.fixedFrom offset line.toNat
  | splice earlier offset inner => earlier.toMap.splice offset inner.toMap

/-- No call starts in front of a run that is there already. -/
def Rises : LineBuild → Prop
  | plain => True
  | fixed _ => True
  | run earlier _ offset _ => earlier.Rises ∧ ∀ run ∈ earlier.toMap.runs, run.offset ≤ offset
  | splice earlier offset inner =>
    earlier.Rises ∧ (∀ run ∈ earlier.toMap.runs, run.offset ≤ offset) ∧ inner.Rises

/-- Calls behind others, all of them behind a position. -/
inductive Follows (position : Nat) (base : LineBuild) : LineBuild → Prop where
  | here : Follows position base base
  | run {later : LineBuild} {offset : Nat} (follows : Follows position base later)
      (behind : position < offset) (flow : Flow) (line : UInt32) :
      Follows position base (.run later flow offset line)
  | splice {later : LineBuild} {offset : Nat} (follows : Follows position base later)
      (behind : position < offset) (inner : LineBuild) :
      Follows position base (.splice later offset inner)

theorem toMap_run (earlier : LineBuild) (flow : Flow) (offset : Nat) (line : UInt32) :
    (run earlier flow offset line).toMap = earlier.toMap.push ⟨offset, line.toNat, flow⟩ := by
  cases flow <;> rfl

variable {build base : LineBuild}

theorem Rises.spans (rises : build.Rises) : ∃ length, build.toMap.Spans length := by
  induction build with
  | plain => exact ⟨0, rfl, pairwise_singleton _ _, by simp [toMap, LineMap.plain, Run.initial]⟩
  | fixed line => exact ⟨0, rfl, pairwise_singleton _ _, by simp [toMap, LineMap.fixed]⟩
  | run earlier flow offset line ih =>
    obtain ⟨length, spans⟩ := ih rises.1
    rw [toMap_run]
    exact ⟨offset, LineMap.Spans.push ⟨spans.starts, spans.rises, rises.2⟩⟩
  | splice earlier offset inner ih innerIh =>
    obtain ⟨length, spans⟩ := ih rises.1
    obtain ⟨innerLength, inside⟩ := innerIh rises.2.2
    exact ⟨_, LineMap.Spans.splice ⟨spans.starts, spans.rises, rises.2.1⟩ inside⟩

theorem Follows.runAt (follows : Follows position base build) (rises : build.Rises) :
    build.toMap.runAt position = base.toMap.runAt position := by
  induction follows with
  | here => rfl
  | @run later offset follows behind flow line ih =>
    obtain ⟨length, spans⟩ := rises.1.spans
    rw [toMap_run, LineMap.runAt_push ⟨spans.starts, spans.rises, rises.2⟩,
      if_neg (by simpa using behind), ih rises.1]
  | @splice later offset follows behind inner ih =>
    obtain ⟨length, spans⟩ := rises.1.spans
    obtain ⟨innerLength, inside⟩ := rises.2.2.spans
    exact (LineMap.runAt_splice_of_lt ⟨spans.starts, spans.rises, rises.2.1⟩ inside behind).trans
      (ih rises.1)

theorem Follows.rises (follows : Follows position base build) (rises : build.Rises) :
    base.Rises := by
  induction follows with
  | here => exact rises
  | run _ _ _ _ ih => exact ih rises.1
  | splice _ _ _ ih => exact ih rises.1

end LineBuild

/-- The line of the last run that starts up to a position, and in a run that counts the line feeds
since its start. -/
def LineMap.lastRunLine (map : LineMap) (text : Text) (position : Nat) : Nat :=
  ((map.runs.filter fun run => run.offset ≤ position).getLastD Run.initial).lineAt text position

theorem LineMap.Spans.lineAt_eq {length : Nat} (spans : map.Spans length) (text : Text) (position : Nat) :
    map.lineAt text position = map.lastRunLine text position := by
  have same : ∀ runs : List Run, (runs.Pairwise fun earlier later => earlier.offset ≤ later.offset) →
      runs.takeWhile (fun run => run.offset ≤ position) =
        runs.filter fun run => run.offset ≤ position := by
    intro runs rises
    induction runs with
    | nil => rfl
    | cons run runs ih =>
      obtain ⟨first, rises⟩ := pairwise_cons.1 rises
      rw [takeWhile_cons, filter_cons, ih rises]
      split
      · rfl
      · next behind =>
        refine (filter_eq_nil_iff.2 fun later member => ?_).symm
        have := first later member
        simp only [decide_eq_true_eq] at behind ⊢
        omega
  rw [LineMap.lineAt, LineMap.runAt, LineMap.lastRunLine, same _ spans.rises]

/-- In the text of a map that was spliced in, up to the next run, lines are those of this map. -/
theorem LineBuild.Follows.lineAt {earlier inner : LineBuild} {front middle : Text}
    (follows : Follows (front.byteLength + position) (.splice earlier front.byteLength inner) build)
    (rises : build.Rises) (inside : position ≤ middle.byteLength) (back : Text) :
    build.toMap.lineAt (front ++ (middle ++ back)) (front.byteLength + position) =
      inner.toMap.lineAt middle position := by
  obtain ⟨earlierRises, ahead, innerRises⟩ := follows.rises rises
  obtain ⟨_, earlierSpans⟩ := earlierRises.spans
  obtain ⟨_, innerSpans⟩ := innerRises.spans
  have spliced := LineMap.runAt_splice_add
    ⟨earlierSpans.starts, earlierSpans.rises, ahead⟩ innerSpans position
  rw [LineMap.lineAt, follows.runAt rises, toMap, spliced, Run.lineAt_moved _ front back inside]
  rfl

/-- Whatever a cursor was asked before, it answers with the line of a position, if that fits into a
word.  As long as no call starts in front of a run that is there already, that is the line of the last
run that starts up to the position; and in the text of a map that was spliced in, up to the next run,
it is the line that this map gives. -/
theorem lookups_by_last_run (build : LineBuild) (text : Text) :
    (∀ positions, (∀ position ∈ positions, build.toMap.lineAt text position < UInt32.size) →
      build.toMap.linesAt text positions = positions.map (build.toMap.lineAt text)) ∧
    (build.Rises →
      (∀ position, build.toMap.lineAt text position = build.toMap.lastRunLine text position) ∧
      ∀ (earlier inner : LineBuild) (front middle back : Text) (positions : List Nat),
        text = front ++ (middle ++ back) →
        (∀ position ∈ positions, position ≤ middle.byteLength ∧
          inner.toMap.lineAt middle position < UInt32.size ∧
          LineBuild.Follows (front.byteLength + position)
            (.splice earlier front.byteLength inner) build) →
        build.toMap.linesAt text (positions.map (front.byteLength + ·)) =
          inner.toMap.linesAt middle positions) := by
  refine ⟨fun positions => LineMap.linesAt_eq, fun rises => ?_⟩
  obtain ⟨length, spans⟩ := rises.spans
  refine ⟨spans.lineAt_eq text, ?_⟩
  rintro earlier inner front middle back positions rfl within
  have same : ∀ position ∈ positions,
      build.toMap.lineAt (front ++ (middle ++ back)) (front.byteLength + position) =
        inner.toMap.lineAt middle position := fun position member =>
    (within position member).2.2.lineAt rises (within position member).1 back
  have fits : ∀ position ∈ positions.map (front.byteLength + ·),
      build.toMap.lineAt (front ++ (middle ++ back)) position < UInt32.size := by
    refine forall_mem_map.2 fun position member => ?_
    rw [same position member]
    exact (within position member).2.1
  rw [LineMap.linesAt_eq fits, LineMap.linesAt_eq fun position member => (within position member).2.1,
    List.map_map]
  exact map_congr_left same

/-- One line of a text, a map of two lines that is spliced in, and the text behind it. -/
def sampleBuild : LineBuild :=
  .run (.splice .plain 2 (.run (.fixed 7) .source 1 3)) .source 5 2

theorem lookups_by_last_run_sample :
    sampleBuild.Rises ∧
      sampleBuild.toMap.linesAt "a\nb\nc\nd".toList [6, 4, 2, 9, 0, 3] = [3, 4, 7, 3, 1, 3] ∧
      sampleBuild.toMap.linesAt "a\nb\nc\nd".toList [4, 2] =
        LineMap.linesAt (LineBuild.toMap (.run (.fixed 7) .source 1 3)) "b\nc".toList [2, 0] := by
  have rises : sampleBuild.Rises := by
    simp only [sampleBuild, LineBuild.Rises, true_and]
    decide
  obtain ⟨lines, answers⟩ := lookups_by_last_run sampleBuild "a\nb\nc\nd".toList
  refine ⟨rises, (lines _ (by decide)).trans (by decide), ?_⟩
  refine (answers rises).2 .plain (.run (.fixed 7) .source 1 3) "a\n".toList "b\nc".toList "\nd".toList
    [2, 0] (by decide) ?_
  intro position member
  have before : Text.byteLength "a\n".toList = 2 := by decide
  have inserted : Text.byteLength "b\nc".toList = 3 := by decide
  have few : position < 3 := by grind
  have small : ∀ position < 3, LineMap.lineAt (LineBuild.toMap (.run (.fixed 7) .source 1 3))
      "b\nc".toList position < UInt32.size := by
    decide
  exact ⟨by omega, small position few, .run .here (by omega) _ _⟩

/-- A run that starts in front of spliced runs stands behind one that starts later, and is not found. -/
theorem overtaken_run_missed :
    let build := LineBuild.run (.splice .plain 0 (.run (.run .plain .fixed 2 7) .fixed 3 8)) .fixed 1 9
    build.toMap.runs.map Run.offset = [0, 2, 1] ∧
      build.toMap.linesAt "abc".toList [1] = [1] ∧
      build.toMap.lastRunLine "abc".toList 1 = 9 := by
  decide

end FlatMemory
