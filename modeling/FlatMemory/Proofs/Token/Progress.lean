import FlatMemory.Proofs.Token.Cursor

/-! # Lexing moves on and counts lines

The lexer by bytes follows the lexer by characters, call by call and past errors: its cursor stands
in front of what the other has left.  So a call moves to a later character boundary or gives a token
of no width, the end of input is reached and stays, and a token is on the line that the line feeds
before it lead to. -/

namespace FlatMemory

open List Text Lexeme

variable {lexeme : Lexeme}

/-! ### Line feeds in tokens -/

namespace Lexeme

variable {kind : TokenKind} {text cs : Text} {c : Char}

/-- Line feeds a token can hold: one if it is a line break, and any number if it is a comment, a
literal or a character on its own. -/
structure Fed (lexeme : Lexeme) : Prop where
  linebreak : lexeme.kind = .linebreak → Text.lineBreaks lexeme.text = 1
  inLine : lexeme.kind ≠ .linebreak → lexeme.kind ≠ .comment → lexeme.kind ≠ .other →
    Text.lineBreaks lexeme.text = 0

theorem fed_free (rest : Text) (notBreak : kind ≠ .linebreak) (free : '\n' ∉ text) :
    Fed ⟨kind, text, rest⟩ :=
  ⟨fun isBreak => absurd isBreak notBreak, fun _ _ _ => count_eq_zero_of_not_mem free⟩

theorem fed_spanning (cut : Cut) (spans : kind = .comment ∨ kind = .other) :
    Fed (ofCut kind cut) := by
  refine ⟨fun isBreak => ?_, fun _ notComment notOther => ?_⟩
  · rcases spans with rfl | rfl <;> cases isBreak
  · rcases spans with rfl | rfl
    · exact absurd rfl notComment
    · exact absurd rfl notOther

theorem not_feed_of_class {p : Char → Bool} (avoids : p '\n' = false) :
    '\n' ∉ text.takeWhile p := by
  intro feed
  rw [mem_takeWhile_imp feed] at avoids
  cases avoids

theorem fed_operator (notFeed : c ≠ '\n') (cs : Text) : Fed (operator c cs) := by
  have inWords : Operator.trie.all (fun d => d ≠ '\n') = true := by decide
  have notBreak : ∀ text, Operator.kind text ≠ .linebreak := by
    intro text
    unfold Operator.kind
    repeat' split
    all_goals decide
  unfold operator
  split
  · exact fed_free cs (by decide) (by simpa using notFeed.symm)
  · next n matched =>
    refine fed_free _ (notBreak _) fun feed => ?_
    have member : '\n' ∈ List.take (Operator.trie.longestMatch (c :: cs)) (c :: cs) := by
      rw [matched]
      exact feed
    simpa using Trie.of_mem_take inWords _ member

theorem fed_carriageReturn (cs : Text) : Fed (carriageReturn cs) := by
  unfold carriageReturn
  split
  · exact ⟨fun _ => rfl, fun notBreak => absurd rfl notBreak⟩
  · exact fed_free _ (by decide) (by decide)

theorem fed_slash (cut : slash cs = .ok lexeme) : Fed lexeme := by
  unfold slash at cut
  split at cut
  · cases cut
    exact fed_spanning _ (.inl rfl)
  · obtain ⟨_, _, rfl⟩ := exists_of_map_eq_ok cut
    exact fed_spanning _ (.inl rfl)
  · cases cut
    exact fed_operator (by decide) cs

theorem fed_marker (cs : Text) : Fed (marker cs) := by
  have name : '\n' ∉ '@' :: cs.takeWhile isIdentPart :=
    not_mem_cons_of_ne_of_not_mem (by decide) (not_feed_of_class (by decide))
  unfold marker
  dsimp only
  split
  · exact fed_free _ (by decide) name
  split
  · exact fed_free _ (by decide) name
  · exact fed_free _ (by decide) (by decide)

theorem fed_first (cut : first c cs = .ok lexeme) : Fed lexeme := by
  unfold first at cut
  split at cut
  · next space =>
    cases cut
    refine fed_free _ (by decide) (not_mem_cons_of_ne_of_not_mem ?_
      (not_feed_of_class (by decide)))
    rintro rfl
    cases space
  split at cut
  · cases cut
    exact fed_carriageReturn cs
  split at cut
  · next feed =>
    cases cut
    subst feed
    exact ⟨fun _ => rfl, fun notBreak => absurd rfl notBreak⟩
  next notFeed =>
  split at cut
  · cases cut
    exact fed_free _ (by decide) (not_mem_cons_of_ne_of_not_mem (Ne.symm notFeed)
      (not_feed_of_class (by decide)))
  split at cut
  · cases cut
    exact fed_spanning _ (.inr rfl)
  split at cut
  · obtain ⟨_, _, rfl⟩ := exists_of_map_eq_ok cut
    exact fed_spanning _ (.inr rfl)
  split at cut
  · obtain ⟨_, _, rfl⟩ := exists_of_map_eq_ok cut
    exact fed_spanning _ (.inr rfl)
  split at cut
  · exact fed_slash cut
  split at cut
  · cases cut
    exact fed_marker cs
  split at cut
  · next found =>
    cases cut
    exact fed_free _ (inLine_punctuation found) (by simpa using Ne.symm notFeed)
  · cases cut
    exact fed_operator notFeed cs

end Lexeme

/-! ### Lexers asked again and again -/

def unlined : Except LexError Token → Except LexErrorKind (TokenKind × Text)
  | .ok token => .ok (token.kind, token.text)
  | .error failure => .error failure.kind

def answerText : Except LexError Token → Text
  | .ok token => token.text
  | .error _ => []

def answerLine : Except LexError Token → Nat
  | .ok token => token.line
  | .error failure => failure.line

namespace Lexer

variable {lexer : Lexer}

def after (lexer : Lexer) : Nat → Lexer
  | 0 => lexer
  | calls + 1 => (lexer.after calls).next.2

def asked (lexer : Lexer) (calls : Nat) : Except LexError Token := (lexer.after calls).next.1

theorem after_next (lexer : Lexer) (calls : Nat) :
    lexer.next.2.after calls = lexer.after (calls + 1) := by
  induction calls with
  | zero => rfl
  | succ calls ih =>
    rw [after, ih]
    rfl

theorem asked_next (lexer : Lexer) (calls : Nat) :
    lexer.next.2.asked calls = lexer.asked (calls + 1) := by
  rw [asked, asked, after_next]

theorem next_error {after : Lexer} {failure : LexError}
    (step : lexer.next = (.error failure, after)) :
    ∃ c cs stuck, lexer.resetDue = false ∧ lexer.rest = c :: cs ∧
      Lexeme.first c cs = .error stuck ∧ failure = ⟨stuck.reason, lexer.line⟩ ∧
      after = { lexer with rest := stuck.rest } := by
  unfold next at step
  split at step
  · cases step
  next notDue =>
  split at step
  · cases step
  next c cs text =>
  split at step
  · next stuck failed =>
    cases step
    exact ⟨c, cs, stuck, by simpa using notDue, text, failed, rfl, rfl⟩
  · cases step

inductive Moves (lexer : Lexer) : Prop
  | stays (token : Token) (answer : lexer.next.1 = .ok token)
    (kind : token.kind = .lineReset ∨ token.kind = .eof) (empty : token.text = [])
    (rest : lexer.next.2.rest = lexer.rest)
  | advances (skipped : Text) (some : skipped ≠ [])
    (answer : ∀ token, lexer.next.1 = .ok token →
      token.kind ≠ .lineReset ∧ token.kind ≠ .eof ∧ token.text = skipped)
    (rest : lexer.rest = skipped ++ lexer.next.2.rest)

theorem moves (lexer : Lexer) : lexer.Moves := by
  rcases step : lexer.next with ⟨failure | token, after⟩
  · obtain ⟨c, cs, stuck, _, text, failed, _, rfl⟩ := next_error step
    have advances := advances_first c cs
    rw [failed] at advances
    obtain ⟨skipped, split⟩ := advances
    refine .advances (c :: skipped) (by simp) (fun token answer => ?_) ?_
    · rw [step] at answer
      cases answer
    · rw [text, step, cons_append, split]
  · rcases next_cases step with
      ⟨_, rfl, rfl⟩ | ⟨_, rfl, rfl⟩ | ⟨c, cs, lexeme, _, text, cut, rfl, rfl⟩
    · exact .stays _ (by rw [step]) (.inl rfl) rfl (by rw [step])
    · exact .stays _ (by rw [step]) (.inr rfl) rfl (by rw [step])
    · have advances := advances_first c cs
      rw [cut] at advances
      refine .advances lexeme.text advances.2 (fun token answer => ?_) ?_
      · rw [step] at answer
        cases answer
        exact ⟨(kind_first cut).1, (kind_first cut).2, rfl⟩
      · rw [text, step]
        exact advances.1.symm

/-- The answers of a lexer are the answers to so many calls, and all further calls give the end of
input. -/
def EndsAfter (lexer : Lexer) (answers : List (Except LexError Token)) (count : Nat) : Prop :=
  answers = (List.range count).map lexer.asked ∧
    ∀ calls, (∃ token, lexer.asked calls = .ok token ∧ token.kind = .eof) ↔ count ≤ calls

theorem EndsAfter.step {after : Lexer} {answer : Except LexError Token}
    {later : List (Except LexError Token)} {count : Nat} (ends : after.EndsAfter later count)
    (step : lexer.next = (answer, after)) (more : ∀ token, answer = .ok token → token.kind ≠ .eof) :
    lexer.EndsAfter (answer :: later) (count + 1) := by
  obtain ⟨rfl, eof⟩ := ends
  have first : lexer.asked 0 = answer := congrArg Prod.fst step
  have further : ∀ calls, lexer.asked (calls + 1) = after.asked calls := by
    intro calls
    rw [← asked_next, step]
  refine ⟨?_, fun calls => ?_⟩
  · rw [range_succ_eq_map, map_cons, map_map, first]
    congr 1
    exact map_congr_left fun calls _ => (further calls).symm
  · cases calls with
    | zero =>
      rw [first]
      constructor
      · rintro ⟨token, same, kind⟩
        exact absurd kind (more token same)
      · omega
    | succ calls =>
      rw [further, eof calls]
      omega

theorem EndsAfter.atEnd (atEnd : lexer.AtEnd) : lexer.EndsAfter [] 0 := by
  have step := next_of_atEnd atEnd
  have stays : ∀ calls, lexer.after calls = lexer := by
    intro calls
    induction calls with
    | zero => rfl
    | succ calls ih => rw [Lexer.after, ih, step]
  refine ⟨rfl, fun calls => ⟨fun _ => Nat.zero_le calls, fun _ => ?_⟩⟩
  exact ⟨⟨.eof, [], lexer.line⟩, by rw [asked, stays, step], rfl⟩

theorem exists_endsAfter (lexer : Lexer) : ∃ count, lexer.EndsAfter lexer.answers.1 count := by
  fun_induction Lexer.answers lexer with
  | case1 lexer token after step eof => exact ⟨0, .atEnd ((eof_iff step).1 eof)⟩
  | case2 lexer token after step more _ later final found ih =>
    rw [found] at ih
    obtain ⟨count, ends⟩ := ih
    exact ⟨count + 1, ends.step step fun _ same => Except.ok.inj same ▸ more⟩
  | case3 lexer failure after step _ later final found ih =>
    rw [found] at ih
    obtain ⟨count, ends⟩ := ih
    exact ⟨count + 1, ends.step step fun _ same => by cases same⟩

theorem resetDue_next (lexer : Lexer) : lexer.next.2.resetDue = true ↔
    ∃ token, lexer.next.1 = .ok token ∧ token.kind ≠ .linebreak ∧ '\n' ∈ token.text := by
  rcases step : lexer.next with ⟨failure | token, after⟩
  · obtain ⟨_, _, _, notDue, _, _, _, rfl⟩ := next_error step
    simp [notDue]
  · rcases next_cases step with
      ⟨_, rfl, rfl⟩ | ⟨atEnd, rfl, rfl⟩ | ⟨_, _, lexeme, _, _, _, rfl, rfl⟩
    · simp
    · simp [atEnd.2]
    · simp [Text.lineBreaks, count_pos_iff]

theorem lineReset_iff (lexer : Lexer) :
    (∃ token, lexer.next.1 = .ok token ∧ token.kind = .lineReset) ↔ lexer.resetDue = true := by
  rcases step : lexer.next with ⟨failure | token, after⟩
  · obtain ⟨_, _, _, notDue, _⟩ := next_error step
    simp [notDue]
  · rcases next_cases step with ⟨due, rfl, _⟩ | ⟨atEnd, rfl, _⟩ | ⟨_, _, _, notDue, _, cut, rfl, _⟩
    · simp [due]
    · simp [atEnd.2]
    · simp [notDue, (kind_first cut).1]

/-- Tokens and errors alike are on the line of the lexer, which counts what is answered. -/
theorem line_next (lexer : Lexer) : answerLine lexer.next.1 = lexer.line ∧
    lexer.next.2.line = lexer.line + (answerText lexer.next.1).lineBreaks := by
  rcases step : lexer.next with ⟨failure | token, after⟩
  · obtain ⟨_, _, _, _, _, _, rfl, rfl⟩ := next_error step
    exact ⟨rfl, rfl⟩
  · exact line_of_next step

def answered (lexer : Lexer) (calls : Nat) : Text :=
  (List.range calls).flatMap fun call => answerText (lexer.asked call)

theorem answered_succ (lexer : Lexer) (calls : Nat) :
    lexer.answered (calls + 1) = lexer.answered calls ++ answerText (lexer.asked calls) := by
  simp [answered, range_succ]

theorem line_after (lexer : Lexer) (calls : Nat) :
    (lexer.after calls).line = lexer.line + (lexer.answered calls).lineBreaks := by
  induction calls with
  | zero => rfl
  | succ calls ih =>
    rw [after, (line_next _).2, ih, answered_succ, lineBreaks_append, Nat.add_assoc]
    rfl

theorem rest_after (lexer : Lexer) {calls : Nat}
    (fine : ∀ earlier < calls, ∃ token, lexer.asked earlier = .ok token) :
    lexer.rest = lexer.answered calls ++ (lexer.after calls).rest := by
  induction calls with
  | zero => rfl
  | succ calls ih =>
    obtain ⟨token, answer⟩ := fine calls (by omega)
    have step : (lexer.after calls).next = (.ok token, lexer.after (calls + 1)) := by
      rw [← answer]
      rfl
    rw [ih fun earlier early => fine earlier (by omega), text_of_next step, answered_succ, answer,
      append_assoc]
    rfl

end Lexer

/-! ### The lexer by bytes -/

namespace ByteLexer

variable {behind : Cursor} {breaks : UInt32} {c : Char} {cs : Text}

def after (lexer : ByteLexer) : Nat → Option ByteLexer
  | 0 => some lexer
  | calls + 1 => (lexer.after calls).bind fun before => before.next.map Prod.snd

structure Tracks (text : Text) (bytes : ByteLexer) (lexer : Lexer) : Prop where
  source : bytes.cursor.source = text
  stands : ∃ front, bytes.cursor.At front lexer.rest
  due : bytes.resetDue.isSome = lexer.resetDue

structure Counts (bytes : ByteLexer) (lexer : Lexer) : Prop where
  fits : lexer.line + lexer.rest.lineBreaks < UInt32.size
  line : bytes.line.toNat = lexer.line
  reset : ∀ line, bytes.resetDue = some line → line = bytes.line

theorem toNat_lineFeeds (text : Text) :
    (lineFeeds text).toNat = min text.lineBreaks (UInt32.size - 1) := by
  rw [lineFeeds, count_octets, UInt32.toNat_ofNat']
  apply Nat.mod_eq_of_lt
  have := Nat.min_le_right text.lineBreaks (UInt32.size - 1)
  simp only [UInt32.size] at this ⊢
  omega

theorem cursor_noteLineBreaks (bytes : ByteLexer) (text : Text) :
    (bytes.noteLineBreaks text).cursor = bytes.cursor := by
  unfold noteLineBreaks
  dsimp only
  split <;> rfl

theorem lineFeeds_pos (text : Text) : 0 < lineFeeds text ↔ 0 < text.lineBreaks := by
  rw [UInt32.lt_iff_toNat_lt, toNat_lineFeeds]
  simp only [UInt32.size, UInt32.toNat_zero]
  omega

theorem resetDue_noteLineBreaks {bytes : ByteLexer} (notDue : bytes.resetDue = none) (text : Text) :
    (bytes.noteLineBreaks text).resetDue.isSome = decide (0 < text.lineBreaks) := by
  unfold noteLineBreaks
  dsimp only
  by_cases some : 0 < lineFeeds text
  · rw [if_pos some, decide_eq_true ((lineFeeds_pos text).1 some)]
    rfl
  · rw [if_neg some, decide_eq_false ((lineFeeds_pos text).not.1 some), notDue]
    rfl

theorem line_noteLineBreaks {bytes : ByteLexer} {text : Text} (notDue : bytes.resetDue = none)
    (fits : bytes.line.toNat + text.lineBreaks < UInt32.size) :
    (bytes.noteLineBreaks text).line.toNat = bytes.line.toNat + text.lineBreaks ∧
      ∀ line, (bytes.noteLineBreaks text).resetDue = some line →
        line = (bytes.noteLineBreaks text).line := by
  have feeds := toNat_lineFeeds text
  unfold noteLineBreaks
  dsimp only
  by_cases some : 0 < lineFeeds text
  · rw [if_pos some]
    refine ⟨?_, fun line due => (Option.some.inj due).symm⟩
    rw [UInt32.toNat_add, feeds]
    simp only [UInt32.size] at fits ⊢
    omega
  · rw [if_neg some]
    refine ⟨?_, fun line due => by rw [notDue] at due; cases due⟩
    rw [lineFeeds_pos] at some
    omega

/-- The lexer behind a token that has been cut off, by kind and line feeds of the token. -/
theorem settle {bytes : ByteLexer} (fed : lexeme.Fed) (notDue : bytes.resetDue = none)
    (isBreaks : breaks = if lexeme.kind = .linebreak then 1 else 0) :
    let moved : ByteLexer := { bytes with cursor := behind, line := bytes.line + breaks }
    let after := if lexeme.kind = .comment ∨ lexeme.kind = .other then
      moved.noteLineBreaks lexeme.text else moved
    after.cursor = behind ∧
      after.resetDue.isSome = decide (lexeme.kind ≠ .linebreak ∧ 0 < lexeme.text.lineBreaks) ∧
      (bytes.line.toNat + lexeme.text.lineBreaks < UInt32.size →
        after.line.toNat = bytes.line.toNat + lexeme.text.lineBreaks ∧
          ∀ line, after.resetDue = some line → line = after.line) := by
  intro moved after
  have none : moved.resetDue = none := notDue
  by_cases spans : lexeme.kind = .comment ∨ lexeme.kind = .other
  · have notBreak : lexeme.kind ≠ .linebreak := by
      rcases spans with kind | kind <;> rw [kind] <;> decide
    have same : moved.line = bytes.line := by
      rw [show moved.line = bytes.line + breaks from rfl, isBreaks, if_neg notBreak, UInt32.add_zero]
    have isAfter : after = moved.noteLineBreaks lexeme.text := if_pos spans
    rw [isAfter, ← same]
    refine ⟨cursor_noteLineBreaks moved _, ?_, fun fits => line_noteLineBreaks none fits⟩
    simp [resetDue_noteLineBreaks none, notBreak]
  · have isAfter : after = moved := if_neg spans
    rw [isAfter]
    rw [not_or] at spans
    by_cases isBreak : lexeme.kind = .linebreak
    · have one := fed.linebreak isBreak
      refine ⟨rfl, by simp [none, isBreak], fun fits => ⟨?_, fun line due => ?_⟩⟩
      · rw [show moved.line = bytes.line + breaks from rfl, isBreaks, if_pos isBreak,
          UInt32.toNat_add, one]
        rw [one] at fits
        simpa [UInt32.size] using fits
      · rw [none] at due
        cases due
    · have zero := fed.inLine isBreak spans.1 spans.2
      refine ⟨rfl, by simp [none, zero], fun _ => ⟨?_, fun line due => ?_⟩⟩
      · rw [show moved.line = bytes.line + breaks from rfl, isBreaks, if_neg isBreak, zero,
          UInt32.add_zero]
        rfl
      · rw [none] at due
        cases due

variable {text : Text} {bytes : ByteLexer} {lexer : Lexer}

theorem Tracks.resetDue_eq_none (tracks : Tracks text bytes lexer)
    (notDue : lexer.resetDue = false) : bytes.resetDue = none :=
  Option.isSome_eq_false_iff.1 (tracks.due.trans notDue) |> Option.isNone_iff_eq_none.1

theorem next_token {kind : TokenKind} {taken : Text} (notDue : bytes.resetDue = none)
    (scanned : bytes.cursor.scan? = some ⟨.ok kind, behind, breaks⟩)
    (sliced : behind.textFrom? bytes.cursor.pos = some taken) :
    let moved : ByteLexer := { bytes with cursor := behind, line := bytes.line + breaks }
    bytes.next = some (.ok ⟨kind, taken, bytes.line.toNat⟩,
      if kind = .comment ∨ kind = .other then moved.noteLineBreaks taken else moved) := by
  obtain ⟨cursor, line, due⟩ := bytes
  subst notDue
  unfold ByteLexer.next
  dsimp only at scanned sliced ⊢
  rw [scanned]
  dsimp only [Option.bind_eq_bind, Option.bind_some]
  rw [sliced]
  rfl

theorem next_stuck {reason : LexErrorKind} (notDue : bytes.resetDue = none)
    (scanned : bytes.cursor.scan? = some ⟨.error reason, behind, breaks⟩) :
    bytes.next = some (.error ⟨reason, (bytes.line + breaks).toNat⟩,
      { bytes with cursor := behind, line := bytes.line + breaks }) := by
  obtain ⟨cursor, line, due⟩ := bytes
  subst notDue
  unfold ByteLexer.next
  dsimp only at scanned ⊢
  rw [scanned]
  rfl

def Steps (text : Text) (bytes : ByteLexer) (lexer : Lexer) : Prop :=
  ∃ answer after, bytes.next = some (answer, after) ∧ Tracks text after lexer.next.2 ∧
    unlined answer = unlined lexer.next.1 ∧
    (Counts bytes lexer → answer = lexer.next.1 ∧ Counts after lexer.next.2)

section

variable (tracks : Tracks text bytes lexer)

include tracks

theorem Tracks.steps_reset (due : lexer.resetDue = true)
    (step : lexer.next = (.ok ⟨.lineReset, [], lexer.line⟩, { lexer with resetDue := false })) :
    Steps text bytes lexer := by
  obtain ⟨line, isDue⟩ := Option.isSome_iff_exists.1 (tracks.due.trans due)
  have answers : bytes.next = some (.ok ⟨.lineReset, [], line.toNat⟩,
      { bytes with resetDue := none }) := by
    rw [ByteLexer.next, isDue]
  unfold Steps
  rw [step, answers]
  refine ⟨_, _, rfl, ⟨tracks.source, tracks.stands, rfl⟩, rfl, fun counts => ⟨?_, ?_⟩⟩
  · rw [counts.reset line isDue, counts.line]
  · exact ⟨counts.fits, counts.line, fun _ due => by cases due⟩

theorem Tracks.steps_eof (atEnd : lexer.AtEnd) : Steps text bytes lexer := by
  obtain ⟨front, stands⟩ := tracks.stands
  rw [atEnd.1] at stands
  have sliced : bytes.cursor.textFrom? bytes.cursor.pos = some [] := by
    have ends : bytes.cursor.At (front ++ []) [] := by rwa [append_nil]
    rw [← ends.textFrom?, stands.pos]
  have answers := next_token (tracks.resetDue_eq_none atEnd.2) stands.scan?_nil sliced
  have same : bytes.line + 0 = bytes.line := UInt32.add_zero _
  rw [same] at answers
  unfold Steps
  rw [Lexer.next_of_atEnd atEnd, answers]
  refine ⟨_, _, rfl, tracks, rfl, fun counts => ⟨?_, counts⟩⟩
  rw [counts.line]

theorem Tracks.steps_token (notDue : lexer.resetDue = false) (rest : lexer.rest = c :: cs)
    (cut : Lexeme.first c cs = .ok lexeme)
    (step : lexer.next = (.ok ⟨lexeme.kind, lexeme.text, lexer.line⟩,
      ⟨lexeme.rest, lexer.line + Text.lineBreaks lexeme.text,
        lexeme.kind ≠ .linebreak ∧ 0 < Text.lineBreaks lexeme.text⟩)) : Steps text bytes lexer := by
  obtain ⟨front, stands⟩ := tracks.stands
  have none := tracks.resetDue_eq_none notDue
  have split : lexeme.text ++ lexeme.rest = c :: cs := by
    have advances := advances_first c cs
    rw [cut] at advances
    exact advances.1
  rw [rest] at stands
  have yields := stands.scan?
  rw [cut] at yields
  rcases scanned : bytes.cursor.scan? with _ | ⟨reason | kind, behind, breaks⟩
  · rw [scanned] at yields
    exact yields.elim
  · rw [scanned] at yields
    exact yields.elim
  rw [scanned] at yields
  obtain ⟨rfl, behindAt, isBreaks⟩ := yields
  have sliced := behindAt.textFrom?
  rw [← stands.pos] at sliced
  have answers := next_token none scanned sliced
  obtain ⟨cursor, due, counted⟩ := settle (fed_first cut) none isBreaks
  unfold Steps
  rw [step, answers]
  refine ⟨_, _, rfl, ⟨?_, ⟨_, cursor ▸ behindAt⟩, due⟩, rfl, fun counts => ⟨?_, ?_⟩⟩
  · rw [cursor, behindAt.source, append_assoc, split, ← stands.source, tracks.source]
  · rw [counts.line]
  · have fits := counts.fits
    rw [rest, ← split, lineBreaks_append] at fits
    obtain ⟨line, reset⟩ := counted (by rw [counts.line]; omega)
    exact ⟨by dsimp only; omega, by rw [line, counts.line], reset⟩

theorem Tracks.steps_stuck {stuck : Stuck} (notDue : lexer.resetDue = false)
    (rest : lexer.rest = c :: cs) (failed : Lexeme.first c cs = .error stuck)
    (step : lexer.next = (.error ⟨stuck.reason, lexer.line⟩, { lexer with rest := stuck.rest })) :
    Steps text bytes lexer := by
  obtain ⟨front, stands⟩ := tracks.stands
  have none := tracks.resetDue_eq_none notDue
  rw [rest] at stands
  have yields := stands.scan?
  rw [failed] at yields
  rcases scanned : bytes.cursor.scan? with _ | ⟨reason | kind, behind, breaks⟩
  · rw [scanned] at yields
    exact yields.elim
  swap
  · rw [scanned] at yields
    exact yields.elim
  rw [scanned] at yields
  obtain ⟨rfl, rfl, skipped, split, behindAt⟩ := yields
  have answers := next_stuck none scanned
  have same : bytes.line + 0 = bytes.line := UInt32.add_zero _
  rw [same] at answers
  unfold Steps
  rw [step, answers]
  refine ⟨_, _, rfl, ⟨?_, ⟨_, behindAt⟩, tracks.due⟩, rfl, fun counts => ⟨?_, ?_⟩⟩
  · dsimp only
    rw [behindAt.source, append_assoc, ← split, ← stands.source, tracks.source]
  · rw [counts.line]
  · have fits := counts.fits
    rw [rest, split, lineBreaks_append] at fits
    exact ⟨by dsimp only; omega, counts.line, counts.reset⟩

theorem Tracks.steps : Steps text bytes lexer := by
  rcases step : lexer.next with ⟨failure | token, after⟩
  · obtain ⟨c, cs, stuck, notDue, rest, failed, rfl, rfl⟩ := Lexer.next_error step
    exact tracks.steps_stuck notDue rest failed step
  · rcases Lexer.next_cases step with
      ⟨due, rfl, rfl⟩ | ⟨atEnd, rfl, rfl⟩ | ⟨c, cs, lexeme, notDue, rest, cut, rfl, rfl⟩
    · exact tracks.steps_reset due step
    · exact tracks.steps_eof atEnd
    · exact tracks.steps_token notDue rest cut step

end

/-- Any number of calls. -/
theorem exists_after (text : Text) (line : UInt32) (calls : Nat) :
    ∃ before, (ofText text line).after calls = some before ∧
      Tracks text before ((Lexer.ofText text line.toNat).after calls) ∧
      (line.toNat + text.lineBreaks < UInt32.size →
        Counts before ((Lexer.ofText text line.toNat).after calls)) := by
  induction calls with
  | zero =>
    refine ⟨_, rfl, ⟨rfl, ⟨[], rfl, rfl⟩, rfl⟩, fun fits => ⟨fits, rfl, fun _ due => ?_⟩⟩
    cases due
  | succ calls ih =>
    obtain ⟨before, reached, tracks, counts⟩ := ih
    obtain ⟨answer, next, step, tracksNext, _, countsNext⟩ := tracks.steps
    refine ⟨next, ?_, tracksNext, fun fits => (countsNext (counts fits)).2⟩
    rw [after, reached, Option.bind_some, step]
    rfl

theorem Tracks.later {later : ByteLexer} {next : Lexer} {skipped : Text}
    (tracks : Tracks text bytes lexer) (tracksLater : Tracks text later next)
    (split : lexer.rest = skipped ++ next.rest) :
    later.cursor.pos = bytes.cursor.pos + skipped.byteLength ∧
      text.slice? bytes.cursor.pos later.cursor.pos = some skipped := by
  obtain ⟨front, stands⟩ := tracks.stands
  obtain ⟨laterFront, laterStands⟩ := tracksLater.stands
  have whole : text = front ++ (skipped ++ next.rest) := by
    rw [← split, ← stands.source, tracks.source]
  have same : laterFront = front ++ skipped := by
    have both : laterFront ++ next.rest = front ++ skipped ++ next.rest := by
      rw [← laterStands.source, tracksLater.source, append_assoc, ← whole]
    exact append_cancel_right both
  have behind : later.cursor.pos = (front ++ skipped).byteLength := by rw [laterStands.pos, same]
  rw [behind, stands.pos]
  exact ⟨byteLength_append front skipped, by rw [whole, slice?_between]⟩

theorem Tracks.boundary (tracks : Tracks text bytes lexer) :
    ∃ front back, text = front ++ back ∧ bytes.cursor = ⟨text, front.byteLength⟩ := by
  obtain ⟨front, stands⟩ := tracks.stands
  refine ⟨front, _, tracks.source.symm.trans stands.source, ?_⟩
  rw [← stands.pos, ← tracks.source]

theorem Tracks.feeds (tracks : Tracks text bytes lexer) :
    (text.octets.take bytes.cursor.pos).count '\n' + lexer.rest.lineBreaks = text.lineBreaks := by
  obtain ⟨front, stands⟩ := tracks.stands
  have whole : text = front ++ lexer.rest := by rw [← stands.source, tracks.source]
  rw [stands.pos, whole, octets_append, ← length_octets, take_left,
    count_octets, lineBreaks_append]

end ByteLexer

theorem exists_of_unlined {answer other : Except LexError Token} {token : Token}
    (same : unlined answer = unlined other) (isToken : answer = .ok token) :
    ∃ twin, other = .ok twin ∧ twin.kind = token.kind ∧ twin.text = token.text := by
  subst isToken
  cases other with
  | error failure => cases same
  | ok twin =>
    obtain ⟨kind, text⟩ := Prod.mk.inj (Except.ok.inj same)
    exact ⟨twin, rfl, kind.symm, text.symm⟩

theorem Reads.text_ne_nil {lexer after : Lexer} {tokens : List Token}
    (reads : Reads lexer tokens after) :
    ∀ token ∈ tokens, token.kind ≠ .lineReset → token.text ≠ [] := by
  induction reads with
  | done lexer => simp
  | @token lexer middle after first tokens next more later ih =>
    intro token member wide
    rcases mem_cons.1 member with rfl | member
    · cases lexer.moves with
      | stays other answer kind _ _ =>
        rw [next] at answer
        cases answer
        exact absurd kind (not_or.2 ⟨wide, more⟩)
      | advances skipped some answer _ =>
        rw [(answer token (by rw [next])).2.2]
        exact some
    · exact ih token member wide

/-- Whatever was answered before, errors included, a call takes no text off a character boundary.
It gives a token of no width and does not move, or it moves on to a later boundary; so the end of
input is reached, and it stays.  The texts of the tokens are the source. -/
theorem lexing_advances (text : Text) (line : UInt32) :
    (∀ calls, ∃ before answer after,
      (ByteLexer.ofText text line).after calls = some before ∧
      before.next = some (answer, after) ∧
      unlined answer = unlined ((Lexer.ofText text line.toNat).asked calls) ∧
      (∃ front back, text = front ++ back ∧ after.cursor = ⟨text, front.byteLength⟩) ∧
      (∀ token, answer = .ok token →
        text.slice? before.cursor.pos after.cursor.pos = some token.text) ∧
      ((∃ token, answer = .ok token ∧ (token.kind = .lineReset ∨ token.kind = .eof) ∧
          after.cursor = before.cursor) ∨
        (∀ token, answer = .ok token → token.kind ≠ .lineReset ∧ token.kind ≠ .eof) ∧
          before.cursor.pos < after.cursor.pos)) ∧
    (∃ count, (Lexer.ofText text line.toNat).EndsAfter
      (Lexer.ofText text line.toNat).answers.1 count) ∧
    ∀ tokens, tokenizeFrom line.toNat text = .ok tokens →
      tokens.flatMap Token.text = text ∧
        ∀ token ∈ tokens, token.kind ≠ .lineReset → token.text ≠ [] := by
  refine ⟨fun calls => ?_, Lexer.exists_endsAfter _, fun tokens lexed => ⟨?_, ?_⟩⟩
  · obtain ⟨before, reached, tracks, _⟩ := ByteLexer.exists_after text line calls
    obtain ⟨answer, after, step, tracksAfter, same, _⟩ := tracks.steps
    have boundary := tracksAfter.boundary
    cases ((Lexer.ofText text line.toNat).after calls).moves with
    | stays token isToken kind empty rest =>
      obtain ⟨place, sliced⟩ := tracks.later tracksAfter (show _ = [] ++ _ from rest.symm)
      obtain ⟨twin, isTwin, sameKind, sameText⟩ := exists_of_unlined same.symm isToken
      refine ⟨before, answer, after, reached, step, same, boundary, ?_, .inl ⟨twin, isTwin, ?_, ?_⟩⟩
      · intro other isOther
        rw [isTwin] at isOther
        cases isOther
        rw [sliced, sameText, empty]
      · rwa [sameKind]
      · have whole : after.cursor = ⟨after.cursor.source, after.cursor.pos⟩ := rfl
        rw [whole, tracksAfter.source, place, ← tracks.source]
        rfl
    | advances skipped some isToken rest =>
      obtain ⟨place, sliced⟩ := tracks.later tracksAfter rest
      have width := Text.byteLength_pos some
      refine ⟨before, answer, after, reached, step, same, boundary, ?_, .inr ⟨?_, by omega⟩⟩
      · intro token answers
        obtain ⟨twin, isTwin, _, sameText⟩ := exists_of_unlined same answers
        rw [sliced, ← sameText, (isToken twin isTwin).2.2]
      · intro token answers
        obtain ⟨twin, isTwin, sameKind, _⟩ := exists_of_unlined same answers
        obtain ⟨notReset, notEof, _⟩ := isToken twin isTwin
        rw [← sameKind]
        exact ⟨notReset, notEof⟩
  · exact (text_of_tokenizeFrom lexed).symm
  · obtain ⟨_, reads, _⟩ := (tokenizeFrom_eq_ok_iff _ text tokens).1 lexed
    exact reads.text_ne_nil

/-- Lines are exact: an answer is on the line that the line feeds answered before lead to, and these
are the line feeds in front of it as long as no call has failed.  A marker follows exactly the
tokens that hold a line feed, line breaks apart. -/
theorem lexing_lines {text : Text} {line : UInt32}
    (fits : line.toNat + text.octets.count '\n' < UInt32.size) (calls : Nat) :
    ∃ before answer after, (ByteLexer.ofText text line).after calls = some before ∧
      before.next = some (answer, after) ∧
      answer = (Lexer.ofText text line.toNat).asked calls ∧
      answerLine answer =
        line.toNat + ((Lexer.ofText text line.toNat).answered calls).lineBreaks ∧
      ((∀ earlier < calls, ∃ token, (Lexer.ofText text line.toNat).asked earlier = .ok token) →
        answerLine answer =
          line.toNat + (text.octets.take before.cursor.pos).count '\n') ∧
      ((∃ token, answer = .ok token ∧ token.kind = .lineReset) ↔
        ∃ earlier token, calls = earlier + 1 ∧
          (Lexer.ofText text line.toNat).asked earlier = .ok token ∧
          token.kind ≠ .linebreak ∧ '\n' ∈ token.text) := by
  rw [Text.count_octets] at fits
  obtain ⟨before, reached, tracks, counts⟩ := ByteLexer.exists_after text line calls
  obtain ⟨answer, after, step, _, _, agree⟩ := tracks.steps
  obtain ⟨same, _⟩ := agree (counts fits)
  have isLine : answerLine answer =
      line.toNat + ((Lexer.ofText text line.toNat).answered calls).lineBreaks := by
    rw [same, (Lexer.line_next _).1, Lexer.line_after]
    rfl
  refine ⟨before, answer, after, reached, step, same, isLine, fun fine => ?_, ?_⟩
  · have whole := congrArg Text.lineBreaks ((Lexer.ofText text line.toNat).rest_after fine)
    have feeds := tracks.feeds
    rw [Text.lineBreaks_append] at whole
    change text.lineBreaks = _ at whole
    omega
  · rw [same, Lexer.lineReset_iff]
    cases calls with
    | zero => simp [Lexer.after, Lexer.ofText]
    | succ calls =>
      rw [Lexer.after, Lexer.resetDue_next]
      constructor
      · rintro ⟨token, answer, feed⟩
        exact ⟨calls, token, rfl, answer, feed⟩
      · rintro ⟨earlier, token, last, answer, feed⟩
        cases last
        exact ⟨token, answer, feed⟩

/-- A comment and a string of two lines each, a CRLF pair between them, and an unfinished string. -/
def sampleFeeds : Text := "a/*\n*/\r\n'b\\\nc' \"d".toList

theorem lexing_lines_sample :
    (7 : UInt32).toNat + sampleFeeds.octets.count '\n' < UInt32.size ∧
    (∀ earlier < 7, ∃ token, (Lexer.ofText sampleFeeds 7).asked earlier = .ok token) ∧
    (Lexer.ofText sampleFeeds 7).asked 7 = .error ⟨.unterminatedString, 10⟩ ∧
    ∃ before, (ByteLexer.ofText sampleFeeds 7).after 7 = some before ∧
      (sampleFeeds.octets.take before.cursor.pos).count '\n' = 3 := by
  have fits : (7 : UInt32).toNat + sampleFeeds.octets.count '\n' < UInt32.size := by decide +kernel
  have fine : ∀ earlier < 7, ∃ token, (Lexer.ofText sampleFeeds 7).asked earlier = .ok token := by
    have all : ((List.range 7).all fun earlier =>
        ((Lexer.ofText sampleFeeds 7).asked earlier).toBool) = true := by
      decide +kernel
    intro earlier early
    have isToken := List.all_eq_true.1 all earlier (List.mem_range.2 early)
    cases answer : (Lexer.ofText sampleFeeds 7).asked earlier with
    | ok token => exact ⟨token, rfl⟩
    | error failure => simp [answer, Except.toBool] at isToken
  have failed : (Lexer.ofText sampleFeeds 7).asked 7 = .error ⟨.unterminatedString, 10⟩ := by
    decide +kernel
  obtain ⟨before, answer, _, reached, _, same, _, line, _⟩ := lexing_lines fits 7
  have counted := line fine
  rw [same] at counted
  refine ⟨fits, fine, failed, before, reached, ?_⟩
  have isTen : answerLine ((Lexer.ofText sampleFeeds 7).asked 7) = 10 := by rw [failed]; rfl
  have total : 10 = 7 + _ := isTen.symm.trans counted
  omega

/-- An error gives up what it has read without counting its line feeds. -/
theorem line_lags_behind_error :
    (Lexer.ofText "/*\n".toList 1).asked 0 = .error ⟨.unterminatedComment, 1⟩ ∧
    (Lexer.ofText "/*\n".toList 1).asked 1 = .ok ⟨.eof, [], 1⟩ ∧
    ((Lexer.ofText "/*\n".toList 1).after 1).rest = [] ∧
    1 + Text.lineBreaks "/*\n".toList = 2 := by
  decide +kernel

end FlatMemory
