import FlatMemory.Proofs.Text.Walk
import FlatMemory.Proofs.Token.Boundary

/-! # Where literals end

A literal is closed by its own last character, or it is unfinished and ends where its text or its
line does.  So a scan takes the same literal in front of other text, unless it is unfinished and
would go on there. -/

namespace FlatMemory

open List

namespace Literal

variable {cut : Cut} {other literal : Text}

/-- An unfinished literal in front of either text ends there: at the end of all text, or of the
line. -/
def Halts (rest other : Text) : Prop :=
  rest = [] ∧ other = [] ∨ rest.head? = some '\n' ∧ other.head? = some '\n'

def Ends (scan : Text → Cut) (last : Char) (cut : Cut) : Prop :=
  (∃ start, cut.taken = start ++ [last] ∧ ∀ other, scan (cut.taken ++ other) = ⟨cut.taken, other⟩) ∨
  Halts cut.rest cut.rest ∧
    ∀ other, Halts cut.rest other → scan (cut.taken ++ other) = ⟨cut.taken, other⟩

theorem Ends.after {scan : Text → Cut} {last : Char} {front : Text} (ends : Ends scan last cut)
    (takes : ∀ other, scan (cut.taken ++ other) = ⟨cut.taken, other⟩ →
      scan (front ++ (cut.taken ++ other)) = ⟨front ++ cut.taken, other⟩) :
    Ends scan last (cut.after front) := by
  rcases ends with ⟨start, taken, closed⟩ | ⟨stops, unclosed⟩
  · refine .inl ⟨front ++ start, by simp [Cut.after, taken], fun other => ?_⟩
    rw [Cut.after, append_assoc]
    exact takes other (closed other)
  · refine .inr ⟨stops, fun other halts => ?_⟩
    rw [Cut.after, append_assoc]
    exact takes other (unclosed other halts)

theorem Halts.nil (halts : Halts [] other) : other = [] := by
  rcases halts with ⟨_, none⟩ | ⟨feed, _⟩
  · exact none
  · cases feed

theorem Halts.feed {c : Char} {cs : Text} (halts : Halts (c :: cs) other) :
    c = '\n' ∧ ∃ ds, other = '\n' :: ds := by
  rcases halts with ⟨none, _⟩ | ⟨head, feed⟩
  · cases none
  · obtain ⟨ds, rfl⟩ := head?_eq_some_iff.1 feed
    exact ⟨by simpa using head, ds, rfl⟩

theorem ends_quoted (quote : Char) (text : Text) :
    Ends (quoted quote) quote (quoted quote text) := by
  fun_induction quoted quote text with
  | case1 =>
    refine .inr ⟨.inl ⟨rfl, rfl⟩, fun other halts => ?_⟩
    obtain rfl := Halts.nil halts
    rfl
  | case2 =>
    refine .inr ⟨.inl ⟨rfl, rfl⟩, fun other halts => ?_⟩
    obtain rfl := Halts.nil halts
    rfl
  | case3 c cs ih =>
    refine ih.after fun other passed => ?_
    simp only [cons_append, nil_append, quoted]
    rw [passed]
    rfl
  | case4 cs alone followed =>
    refine .inl ⟨[], rfl, fun other => ?_⟩
    rw [singleton_append, quoted_cons (Lexeme.ne_escape alone followed), if_pos rfl]
  | case5 cs alone followed differs =>
    refine .inr ⟨.inr ⟨rfl, rfl⟩, fun other halts => ?_⟩
    obtain ⟨_, ds, rfl⟩ := Halts.feed halts
    exact (quoted_cons (by decide) ds).trans (by rw [if_neg differs, if_pos rfl]; rfl)
  | case6 c cs alone followed differs notFeed ih =>
    refine ih.after fun other passed => ?_
    rw [singleton_append, quoted_cons (Lexeme.ne_escape alone followed), if_neg differs, if_neg notFeed,
      passed]
    rfl

theorem ends_template (text : Text) : Ends template '\x60' (template text) := by
  fun_induction template text with
  | case1 =>
    refine .inr ⟨.inl ⟨rfl, rfl⟩, fun other halts => ?_⟩
    obtain rfl := Halts.nil halts
    rfl
  | case2 =>
    refine .inr ⟨.inl ⟨rfl, rfl⟩, fun other halts => ?_⟩
    obtain rfl := Halts.nil halts
    rfl
  | case3 c cs ih =>
    refine ih.after fun other passed => ?_
    simp only [cons_append, nil_append, template]
    rw [passed]
    rfl
  | case4 cs alone followed =>
    refine .inl ⟨[], rfl, fun other => ?_⟩
    rw [singleton_append, template_cons (by decide), if_pos rfl]
  | case5 c cs alone followed differs ih =>
    refine ih.after fun other passed => ?_
    rw [singleton_append, template_cons (Lexeme.ne_escape alone followed), if_neg differs, passed]
    rfl

theorem ends_blockComment (text : Text) : Ends blockComment '/' (blockComment text) := by
  fun_induction blockComment text with
  | case1 =>
    refine .inr ⟨.inl ⟨rfl, rfl⟩, fun other halts => ?_⟩
    obtain rfl := Halts.nil halts
    rfl
  | case2 cs => exact .inl ⟨['*'], rfl, fun other => by simp [blockComment]⟩
  | case3 c cs notEnd ih =>
    -- Behind a star the next character is that of the text, or there is none.
    refine ih.after fun other passed => ?_
    rw [singleton_append, blockComment]
    · rw [passed]
      rfl
    · intro more star slash
      have whole : (blockComment cs).taken ++ (blockComment cs).rest = cs := whole_blockComment cs
      cases taken : (blockComment cs).taken with
      | nil =>
        rw [taken, nil_append] at slash passed
        rw [slash] at passed
        simp [blockComment, Cut.after] at passed
      | cons d ds =>
        rw [taken] at slash whole
        obtain ⟨rfl, _⟩ := List.cons.inj slash
        exact notEnd (ds ++ (blockComment cs).rest) star whole.symm

theorem ends_lineComment (text : Text) : Halts (lineComment text).rest (lineComment text).rest ∧
    ∀ other, Halts (lineComment text).rest other →
      lineComment ((lineComment text).taken ++ other) = ⟨(lineComment text).taken, other⟩ := by
  have inLine : ∀ c ∈ (lineComment text).taken, decide (c ≠ '\n') = true :=
    fun c member => mem_takeWhile_imp (p := fun c => decide (c ≠ '\n')) member
  have stops : Halts (lineComment text).rest (lineComment text).rest := by
    cases rest : (lineComment text).rest with
    | nil => exact .inl ⟨rfl, rfl⟩
    | cons c cs =>
      have head := head?_dropWhile_not (fun c => decide (c ≠ '\n')) text
      rw [show text.dropWhile (fun c => decide (c ≠ '\n')) = c :: cs from rest] at head
      simp at head
      exact .inr ⟨by simp [head], by simp [head]⟩
  refine ⟨stops, fun other halts => ?_⟩
  generalize (lineComment text).taken = taken at inLine
  rw [lineComment, Cut.span, takeWhile_append_of_pos inLine, dropWhile_append_of_pos inLine]
  rcases halts with ⟨_, rfl⟩ | ⟨_, feed⟩
  · simp
  · obtain ⟨ds, rfl⟩ := head?_eq_some_iff.1 feed
    simp

/-- A literal is closed by its own text, or it ends where its text or line does. -/
theorem sealed_or_halts {text : Text} (found : first? text = some cut) :
    Sealed cut.taken ∨ Halts cut.rest cut.rest ∧
      ∀ other, Halts cut.rest other → first? (cut.taken ++ other) = some ⟨cut.taken, other⟩ := by
  have close : ∀ {scan : Text → Cut} {last : Char} {inner : Cut} {front : Text},
      Ends scan last inner → isBlank last = false →
      (∀ more, first? (front ++ more) = some ((scan more).after front)) →
      Sealed (inner.after front).taken ∨ Halts inner.rest inner.rest ∧
        ∀ other, Halts inner.rest other →
          first? ((inner.after front).taken ++ other) = some ⟨(inner.after front).taken, other⟩ := by
    rintro scan last inner front (⟨start, taken, closed⟩ | ⟨stops, unclosed⟩) solid opens
    · refine .inl ⟨fun rest => ?_, front ++ start, last, by simp [Cut.after, taken], solid⟩
      rw [Cut.after, append_assoc, opens, closed]
      rfl
    · refine .inr ⟨stops, fun other halts => ?_⟩
      rw [Cut.after, append_assoc, opens, unclosed other halts]
      rfl
  unfold first? at found
  split at found
  · next cs =>
    cases found
    refine .inr ⟨(ends_lineComment cs).1, fun other halts => ?_⟩
    rw [Cut.after, append_assoc, cons_append, cons_append, nil_append, first?,
      (ends_lineComment cs).2 other halts]
    rfl
  · next cs =>
    cases found
    exact close (ends_blockComment cs) (by decide) fun more => rfl
  · next c cs _ _ =>
    split at found
    · next quote =>
      cases found
      refine close (ends_quoted c cs) ?_ fun more => ?_
      · rcases quote with rfl | rfl <;> decide
      · rcases quote with rfl | rfl <;> simp [first?]
    · split at found
      · next tick =>
        cases found
        subst tick
        exact close (ends_template cs) (by decide) fun more => by simp [first?]
      · cases found
  · cases found

/-- What follows a literal may change unless the literal is unfinished and would go on. -/
theorem first?_change {rest : Text} (found : first? (literal ++ rest) = some ⟨literal, rest⟩)
    (same : Halts rest rest → Halts rest other) :
    first? (literal ++ other) = some ⟨literal, other⟩ := by
  rcases sealed_or_halts found with closed | ⟨stops, unclosed⟩
  · exact closed.first other
  · exact unclosed other (same stops)

def isOpen (literal : Text) : Bool := first? (literal ++ [')']) ≠ some ⟨literal, [')']⟩

theorem sealed_of_not_isOpen (shut : isOpen literal = false) : Sealed literal := by
  have found : first? (literal ++ [')']) = some ⟨literal, [')']⟩ := by simpa [isOpen] using shut
  rcases sealed_or_halts found with closed | ⟨⟨none, _⟩ | ⟨feed, _⟩, _⟩
  · exact closed
  · cases none
  · cases feed

end Literal

end FlatMemory
