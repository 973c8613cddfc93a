import FlatMemory.Code.LineMap
import Mathlib.Data.List.TakeWhile

/-! # Runs of a line map

Line feeds are counted between byte offsets, so the count for a text in the middle of another depends
on the middle alone.  A run that is pushed takes over from its offset on and leaves every position
before it as it was; a map that is spliced in answers for its own text as it did alone. -/

namespace FlatMemory

open List

namespace Text

variable {start stop offset : Nat} {text : Text}

/-- The line of a byte: lines are counted from one, by the line feeds in front of it. -/
def lineAt (text : Text) (position : Nat) : Nat := 1 + lineBreaksBetween 0 position 0 text

theorem lineBreaksBetween_append (start stop offset : Nat) (first second : Text) :
    lineBreaksBetween start stop offset (first ++ second) =
      lineBreaksBetween start stop offset first +
        lineBreaksBetween start stop (offset + first.byteLength) second := by
  induction first generalizing offset with
  | nil => simp [lineBreaksBetween, byteLength]
  | cons c cs ih => simp [lineBreaksBetween, byteLength, ih, Nat.add_assoc]

theorem lineBreaksBetween_shift (by_ start stop offset : Nat) (text : Text) :
    lineBreaksBetween (by_ + start) (by_ + stop) (by_ + offset) text =
      lineBreaksBetween start stop offset text := by
  induction text generalizing offset with
  | nil => rfl
  | cons c cs ih => simp [lineBreaksBetween, Nat.add_assoc, ih]

theorem lineBreaksBetween_eq_zero (apart : offset + text.byteLength ≤ start ∨ stop ≤ offset) :
    lineBreaksBetween start stop offset text = 0 := by
  induction text generalizing offset with
  | nil => rfl
  | cons c cs ih =>
    have wide := Char.utf8Size_pos c
    rw [byteLength] at apart
    have here : ¬ (c = '\n' ∧ start ≤ offset ∧ offset < stop) := by omega
    have later := @ih (offset + c.utf8Size) (by omega)
    rw [lineBreaksBetween, if_neg here, later]

theorem lineBreaksBetween_eq (begun : start ≤ offset) (reached : offset + text.byteLength ≤ stop) :
    lineBreaksBetween start stop offset text = text.lineBreaks := by
  induction text generalizing offset with
  | nil => rfl
  | cons c cs ih =>
    have wide := Char.utf8Size_pos c
    rw [byteLength] at reached
    have later := @ih (offset + c.utf8Size) (by omega) (by omega)
    rw [lineBreaksBetween, later]
    by_cases feed : c = '\n'
    · rw [if_pos ⟨feed, begun, by omega⟩, lineBreaks, lineBreaks, feed, count_cons_self,
        Nat.add_comm]
    · rw [if_neg (fun here => feed here.1), lineBreaks, lineBreaks, count_cons_of_ne (by simpa using feed),
        Nat.zero_add]

theorem lineBreaksBetween_begun (begun : start ≤ offset) (stop : Nat) (text : Text) :
    lineBreaksBetween start stop offset text = lineBreaksBetween 0 stop offset text := by
  induction text generalizing offset with
  | nil => rfl
  | cons c cs ih => simp [lineBreaksBetween, begun, @ih (offset + c.utf8Size) (by omega)]

theorem lineBreaksBetween_front {first : Text} (second : Text) (reached : stop ≤ first.byteLength) :
    lineBreaksBetween start stop 0 (first ++ second) = lineBreaksBetween start stop 0 first := by
  have behind : lineBreaksBetween start stop (0 + first.byteLength) second = 0 :=
    lineBreaksBetween_eq_zero (.inr (by omega))
  rw [lineBreaksBetween_append, behind, Nat.add_zero]

theorem lineBreaksBetween_inside (front text : Text) (start stop : Nat) :
    lineBreaksBetween (front.byteLength + start) (front.byteLength + stop) 0 (front ++ text) =
      lineBreaksBetween start stop 0 text := by
  have before : lineBreaksBetween (front.byteLength + start) (front.byteLength + stop) 0 front = 0 :=
    lineBreaksBetween_eq_zero (.inl (by omega))
  rw [lineBreaksBetween_append, before, Nat.zero_add, Nat.add_comm 0]
  exact lineBreaksBetween_shift front.byteLength start stop 0 text

theorem lineBreaksBetween_behind (front text : Text) (stop : Nat) :
    lineBreaksBetween 0 (front.byteLength + stop) 0 (front ++ text) =
      front.lineBreaks + lineBreaksBetween 0 stop 0 text := by
  have moved := lineBreaksBetween_shift front.byteLength 0 stop 0 text
  rw [Nat.add_zero, lineBreaksBetween_begun (Nat.le_refl _)] at moved
  rw [lineBreaksBetween_append, lineBreaksBetween_eq (Nat.le_refl 0) (by omega), Nat.zero_add, moved]

theorem lineAt_byteLength (front text : Text) :
    lineAt (front ++ text) front.byteLength = 1 + front.lineBreaks := by
  rw [lineAt, lineBreaksBetween_front text (Nat.le_refl _),
    lineBreaksBetween_eq (Nat.le_refl 0) (by omega)]

theorem lineAt_behind (front text : Text) (position : Nat) :
    lineAt (front ++ text) (front.byteLength + position) =
      1 + front.lineBreaks + lineBreaksBetween 0 position 0 text := by
  rw [lineAt, lineBreaksBetween_behind, Nat.add_assoc]

end Text

namespace LineMap

/-- Adding a run drops at most the last one, and only if that does not start before it. -/
theorem pushRun_cases (runs : List Run) (run : Run) :
    ∃ kept, pushRun runs run = kept ++ [run] ∧
      (runs = kept ∨ ∃ last, runs = kept ++ [last] ∧ run.offset ≤ last.offset) := by
  fun_induction pushRun runs run with
  | case1 run => exact ⟨[], rfl, .inl rfl⟩
  | case2 last run replaced => exact ⟨[], rfl, .inr ⟨last, rfl, replaced⟩⟩
  | case3 last run added => exact ⟨[last], rfl, .inl rfl⟩
  | case4 first second later run ih =>
    obtain ⟨kept, pushed, isKept⟩ := ih
    refine ⟨first :: kept, by rw [pushed]; rfl, ?_⟩
    rcases isKept with same | ⟨last, same, behind⟩
    · exact .inl (by rw [same])
    · exact .inr ⟨last, by rw [same]; rfl, behind⟩

structure Spans (map : LineMap) (length : Nat) : Prop where
  starts : map.runs.head?.map Run.offset = some 0
  rises : map.runs.Pairwise fun earlier later => earlier.offset ≤ later.offset
  within : ∀ run ∈ map.runs, run.offset ≤ length

namespace Spans

variable {map : LineMap} {length : Nat}

theorem mono (spans : map.Spans length) {longer : Nat} (le : length ≤ longer) : map.Spans longer :=
  ⟨spans.starts, spans.rises, fun run member => Nat.le_trans (spans.within run member) le⟩

theorem push {run : Run} (spans : map.Spans run.offset) : (map.push run).Spans run.offset := by
  obtain ⟨runs⟩ := map
  obtain ⟨kept, pushed, isKept⟩ := pushRun_cases runs run
  have included : kept ⊆ runs ∧ kept.Pairwise (fun earlier later => earlier.offset ≤ later.offset) := by
    rcases isKept with rfl | ⟨last, rfl, _⟩
    · exact ⟨fun _ member => member, spans.rises⟩
    · exact ⟨subset_append_left _ _, (pairwise_append.1 spans.rises).1⟩
  have before : ∀ other ∈ kept, other.offset ≤ run.offset := fun other member =>
    spans.within other (included.1 member)
  refine ⟨?_, ?_, ?_⟩
  · change (pushRun runs run).head?.map Run.offset = some 0
    rw [pushed]
    have starts := spans.starts
    cases kept with
    | cons first later =>
      rcases isKept with rfl | ⟨last, rfl, _⟩
      · exact starts
      · exact starts
    | nil =>
      rcases isKept with rfl | ⟨last, rfl, behind⟩
      · cases starts
      · have zero : last.offset = 0 := Option.some.inj starts
        exact congrArg some (by omega)
  · change (pushRun runs run).Pairwise _
    rw [pushed, pairwise_append]
    exact ⟨included.2, pairwise_singleton _ _, fun other member same isSame => by
      rw [mem_singleton.1 isSame]
      exact before other member⟩
  · intro other member
    change other ∈ pushRun runs run at member
    rw [pushed, mem_append, mem_singleton] at member
    rcases member with member | rfl
    · exact before other member
    · exact Nat.le_refl _

end Spans

theorem takeWhile_append_of_not {α : Type} {p : α → Bool} {items : List α} {last : α}
    (fails : p last = false) : (items ++ [last]).takeWhile p = items.takeWhile p := by
  induction items with
  | nil => simp [fails]
  | cons item items ih => simp only [cons_append, takeWhile_cons, ih]

theorem runAt_push {map : LineMap} {run : Run} (spans : map.Spans run.offset) (position : Nat) :
    (map.push run).runAt position = if run.offset ≤ position then run else map.runAt position := by
  have after := spans.push
  obtain ⟨runs⟩ := map
  obtain ⟨kept, pushed, isKept⟩ := pushRun_cases runs run
  unfold runAt push
  dsimp only
  split
  · next reached =>
    have all : (pushRun runs run).takeWhile (fun other => other.offset ≤ position) =
        pushRun runs run := by
      rw [takeWhile_eq_self_iff]
      intro other member
      have := after.within other member
      simpa using Nat.le_trans this reached
    rw [all, pushed]
    simp
  · next ahead =>
    rw [pushed, takeWhile_append_of_not (by simpa using ahead)]
    rcases isKept with rfl | ⟨last, rfl, behind⟩
    · rfl
    · rw [takeWhile_append_of_not (by simpa using (by omega : position < last.offset))]

end LineMap

theorem Run.lineAt_source (front text : Text) (line position : Nat) :
    lineAt ⟨front.byteLength, line, .source⟩ (front ++ text) (front.byteLength + position) =
      line + text.lineBreaksBetween 0 position 0 :=
  congrArg (line + ·) (Text.lineBreaksBetween_inside front text 0 position)

/-! ### Splicing -/

def Run.moved (run : Run) (offset : Nat) : Run := { run with offset := offset + run.offset }

theorem Run.lineAt_moved (run : Run) (front : Text) {middle : Text} (back : Text) {position : Nat}
    (inside : position ≤ middle.byteLength) :
    (run.moved front.byteLength).lineAt (front ++ (middle ++ back)) (front.byteLength + position) =
      run.lineAt middle position := by
  unfold lineAt moved
  dsimp only
  split
  · rfl
  · rw [Text.lineBreaksBetween_inside, Text.lineBreaksBetween_front back inside]

namespace LineMap

/-- Runs that are pushed one behind the other: the last one reached answers. -/
theorem foldl_push_moved {offset length : Nat} {runs : List Run}
    (rises : runs.Pairwise fun earlier later => earlier.offset ≤ later.offset)
    (within : ∀ run ∈ runs, run.offset ≤ length) {map : LineMap} {bound : Nat}
    (spans : map.Spans bound) (ahead : ∀ run ∈ runs, bound ≤ offset + run.offset)
    (room : bound ≤ offset + length) :
    (runs.foldl (fun map run => map.push (run.moved offset)) map).Spans (offset + length) ∧
    ∀ position, (runs.foldl (fun map run => map.push (run.moved offset)) map).runAt position =
      ((runs.takeWhile fun run => offset + run.offset ≤ position).map (Run.moved · offset)).getLastD
        (map.runAt position) := by
  induction runs generalizing map bound with
  | nil => exact ⟨spans.mono room, fun _ => rfl⟩
  | cons run runs ih =>
    obtain ⟨first, rises⟩ := pairwise_cons.1 rises
    obtain ⟨here, within⟩ := forall_mem_cons.1 within
    obtain ⟨next, _⟩ := forall_mem_cons.1 ahead
    have reached : map.Spans (run.moved offset).offset := spans.mono next
    have later := ih rises within reached.push
      (fun other member => Nat.add_le_add_left (first other member) offset)
      (Nat.add_le_add_left here offset)
    refine ⟨later.1, fun position => ?_⟩
    rw [foldl_cons, later.2 position, runAt_push reached, takeWhile_cons]
    by_cases entered : offset + run.offset ≤ position
    · rw [if_pos (show (run.moved offset).offset ≤ position from entered),
        if_pos (by simpa using entered), map_cons, getLastD_cons]
    · rw [if_neg (show ¬ (run.moved offset).offset ≤ position from entered),
        if_neg (by simpa using entered)]
      have none : (runs.takeWhile fun run => offset + run.offset ≤ position) = [] := by
        cases runs with
        | nil => rfl
        | cons other runs =>
          have := first other mem_cons_self
          exact takeWhile_cons_of_neg (by simpa using (by omega : position < offset + other.offset))
      rw [none]

section Splice

variable {map inner : LineMap} {offset length : Nat} (spans : map.Spans offset)
  (inside : inner.Spans length)

include spans inside

theorem Spans.splice : (map.splice offset inner).Spans (offset + length) :=
  (foldl_push_moved inside.rises inside.within spans (fun _ _ => Nat.le_add_right _ _)
    (Nat.le_add_right _ _)).1

theorem runAt_splice (position : Nat) :
    (map.splice offset inner).runAt position =
      ((inner.runs.takeWhile fun run => offset + run.offset ≤ position).map
        (Run.moved · offset)).getLastD (map.runAt position) :=
  (foldl_push_moved inside.rises inside.within spans (fun _ _ => Nat.le_add_right _ _)
    (Nat.le_add_right _ _)).2 position

theorem runAt_splice_of_lt {position : Nat} (before : position < offset) :
    (map.splice offset inner).runAt position = map.runAt position := by
  rw [runAt_splice spans inside]
  cases inner.runs with
  | nil => rfl
  | cons run runs =>
    rw [takeWhile_cons_of_neg (by simpa using (by omega : position < offset + run.offset))]
    rfl

theorem runAt_splice_add (position : Nat) :
    (map.splice offset inner).runAt (offset + position) = (inner.runAt position).moved offset := by
  obtain ⟨runs⟩ := inner
  have starts := inside.starts
  cases runs with
  | nil => cases starts
  | cons run runs =>
    have zero : run.offset = 0 := Option.some.inj starts
    have entered : ∀ other : Run,
        decide (offset + other.offset ≤ offset + position) = decide (other.offset ≤ position) := by
      simp
    rw [runAt_splice spans inside]
    simp only [entered, runAt]
    rw [takeWhile_cons_of_pos (by simp [zero]), map_cons, getLastD_cons,
      getLastD_cons, getLastD_map]

end Splice

end LineMap

end FlatMemory
