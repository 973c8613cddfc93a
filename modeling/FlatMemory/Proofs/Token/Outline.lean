import FlatMemory.Proofs.Text.Passage
import FlatMemory.Proofs.Token.Scan
import FlatMemory.Proofs.Types.Declaration

/-! # Outlines

The landmarks of a text are the literals, comments, brackets and commas that the lexer finds in it.
`Outline rest text marks ending` gets through `text` past a landmark at once and else one character
at a time, with `rest` behind it.  Where tokens begin and end between two landmarks is left open, so
texts can be put behind each other wherever that makes no comment.

A text with an outline can be cut into tokens, and these have the landmarks of the outline. -/

namespace FlatMemory

open List Text Lexeme Token

variable {c : Char} {text cs : Text} {tokens marks : List Token} {ending : Ending}

namespace Token

variable {token : Token}

def isLiteral (token : Token) : Bool :=
  token.kind = .other && (token.isString || token.text.head? = some '\x60')

def isLandmark (token : Token) : Bool :=
  token.isLiteral || token.kind = .comment || token.kind.isOpen || token.kind.isClose ||
    token.kind = .comma

def unplaced (token : Token) : Token := { token with line := 0 }

def landmarks (tokens : List Token) : List Token := (tokens.filter isLandmark).map unplaced

def literals (tokens : List Token) : List Text := (tokens.filter isLiteral).map Token.text

def comments (tokens : List Token) : List Text :=
  (tokens.filter fun token => token.kind = .comment).map Token.text

def surplus (tokens : List Token) : Int :=
  tokens.countP (fun token => token.kind.isOpen) - tokens.countP fun token => token.kind.isClose

theorem landmarks_cons (token : Token) (tokens : List Token) :
    landmarks (token :: tokens) = landmarks [token] ++ landmarks tokens := by
  rw [landmarks, landmarks, landmarks, ← map_append, ← filter_append]
  rfl

theorem landmarks_of_isLandmark (isLandmark : token.isLandmark = true) :
    landmarks [token] = [token.unplaced] := by
  simp [landmarks, isLandmark]

theorem landmarks_of_not (unmarked : token.isLandmark = false) : landmarks [token] = [] := by
  simp [landmarks, unmarked]

@[simp] theorem literals_append (first second : List Token) :
    literals (first ++ second) = literals first ++ literals second := by
  simp [literals]

@[simp] theorem comments_append (first second : List Token) :
    comments (first ++ second) = comments first ++ comments second := by
  simp [comments]

@[simp] theorem surplus_append (first second : List Token) :
    surplus (first ++ second) = surplus first + surplus second := by
  simp only [surplus, countP_append]
  omega

theorem literals_cons (token : Token) (tokens : List Token) :
    literals (token :: tokens) = literals [token] ++ literals tokens :=
  literals_append [token] tokens

theorem comments_cons (token : Token) (tokens : List Token) :
    comments (token :: tokens) = comments [token] ++ comments tokens :=
  comments_append [token] tokens

theorem surplus_cons (token : Token) (tokens : List Token) :
    surplus (token :: tokens) = surplus [token] + surplus tokens :=
  surplus_append [token] tokens

/-- What is picked among tokens is picked among their landmarks, if only landmarks are picked. -/
theorem texts_landmarks {picks : Token → Bool}
    (marks : ∀ token, picks token = true → token.isLandmark = true)
    (unplaced : ∀ token, picks token.unplaced = picks token) (tokens : List Token) :
    ((landmarks tokens).filter picks).map Token.text = (tokens.filter picks).map Token.text := by
  rw [landmarks, filter_map, map_map, show picks ∘ Token.unplaced = picks from funext unplaced,
    filter_filter, filter_congr fun token _ => ?_]
  · rfl
  · cases picked : picks token with
    | false => rfl
    | true => rw [marks token picked, Bool.and_true]

theorem literals_landmarks (tokens : List Token) : literals (landmarks tokens) = literals tokens :=
  texts_landmarks (fun token literal => by simp [isLandmark, literal]) (fun _ => rfl) tokens

theorem comments_landmarks (tokens : List Token) : comments (landmarks tokens) = comments tokens :=
  texts_landmarks (fun token comment => by simp_all [isLandmark]) (fun _ => rfl) tokens

theorem surplus_landmarks (tokens : List Token) : surplus (landmarks tokens) = surplus tokens := by
  have bracket : ∀ {p : TokenKind → Bool}, (∀ kind, p kind = true → (kind.isOpen || kind.isClose) = true) →
      (landmarks tokens).countP (fun token => p token.kind) =
        tokens.countP fun token => p token.kind := by
    intro p brackets
    have picked := @texts_landmarks (fun token => p token.kind) (fun token holds => by
      have := brackets _ holds
      rw [Bool.or_eq_true] at this
      rcases this with opens | closes
      · simp [isLandmark, opens]
      · simp [isLandmark, closes]) (fun _ => rfl) tokens
    simpa only [countP_eq_length_filter, length_map] using congrArg length picked
  rw [surplus, surplus, bracket fun _ opens => by simp [opens], bracket fun _ closes => by simp [closes]]

end Token

section Balanced

variable {token : Token} {nesting : List TokenKind}

theorem balanced_mark : Balanced nesting (Token.landmarks [token] ++ tokens) ↔
    Balanced nesting (token :: tokens) := by
  by_cases mark : token.isLandmark = true
  · rw [landmarks_of_isLandmark mark, singleton_append, Balanced.eq_def, Balanced.eq_def]
    rfl
  · rw [landmarks_of_not (by simpa using mark), nil_append, balanced_plain]
    · rintro opens
      exact mark (by simp [Token.isLandmark, opens])
    · rintro closes
      exact mark (by simp [Token.isLandmark, closes])

theorem Balanced.cons {marks : List Token} (balanced : Balanced nesting (token :: tokens))
    (later : ∀ nesting, Balanced nesting tokens → Balanced nesting marks) :
    Balanced nesting (token :: marks) := by
  by_cases opens : token.kind.isOpen = true
  · rw [balanced_open opens] at balanced ⊢
    exact later _ balanced
  by_cases closes : token.kind.isClose = true
  · cases nesting with
    | nil => exact absurd balanced (not_balanced_close opens closes)
    | cons opener outer =>
      rw [balanced_close opens closes] at balanced ⊢
      exact ⟨balanced.1, later _ balanced.2⟩
  · rw [balanced_plain opens closes] at balanced ⊢
    exact later _ balanced

theorem balanced_landmarks : Balanced nesting
    (Token.landmarks tokens) ↔ Balanced nesting tokens := by
  induction tokens generalizing nesting with
  | nil => rfl
  | cons token tokens ih =>
    rw [landmarks_cons, balanced_mark]
    exact ⟨fun balanced => balanced.cons fun _ => ih.1, fun balanced => balanced.cons fun _ => ih.2⟩

theorem Balanced.append {opened : List TokenKind} {later : List Token}
    (balanced : Balanced opened tokens) (behind : Balanced nesting later) :
    Balanced (opened ++ nesting) (tokens ++ later) := by
  induction tokens generalizing opened with
  | nil =>
    rw [show opened = [] from balanced]
    exact behind
  | cons token tokens ih =>
    rw [cons_append]
    by_cases opens : token.kind.isOpen = true
    · rw [balanced_open opens] at balanced ⊢
      exact ih balanced
    by_cases closes : token.kind.isClose = true
    · cases opened with
      | nil => exact absurd balanced (not_balanced_close opens closes)
      | cons opener outer =>
        rw [balanced_close opens closes] at balanced
        rw [cons_append, balanced_close opens closes]
        exact ⟨balanced.1, ih balanced.2⟩
    · rw [balanced_plain opens closes] at balanced ⊢
      exact ih balanced

instance decidableBalanced : (nesting : List TokenKind) → (tokens : List Token) →
    Decidable (Balanced nesting tokens)
  | nesting, [] => inferInstanceAs (Decidable (nesting = []))
  | nesting, token :: tokens =>
    if opens : token.kind.isOpen = true then
      have := decidableBalanced (token.kind :: nesting) tokens
      decidable_of_iff _ (balanced_open opens).symm
    else if closes : token.kind.isClose = true then
      match nesting with
      | [] => isFalse (not_balanced_close opens closes)
      | _ :: outer =>
        have := decidableBalanced outer tokens
        decidable_of_iff _ (balanced_close opens closes).symm
    else
      have := decidableBalanced nesting tokens
      decidable_of_iff _ (balanced_plain opens closes).symm

end Balanced

theorem Balanced.surplus {nesting : List TokenKind} (balanced : Balanced nesting tokens) :
    Token.surplus tokens = -(nesting.length : Int) := by
  induction tokens generalizing nesting with
  | nil =>
    rw [show nesting = [] from balanced]
    rfl
  | cons token tokens ih =>
    rw [surplus_cons]
    have alone : Token.surplus [token] =
        (if token.kind.isOpen then 1 else 0) - (if token.kind.isClose then 1 else 0) := by
      simp only [Token.surplus, countP_singleton]
      split <;> split <;> rfl
    by_cases opens : token.kind.isOpen = true
    · have one : token.kind.isClose = false := by
        cases kind : token.kind <;> first | rfl | (rw [kind] at opens; cases opens)
      rw [alone, if_pos opens, one, ih ((balanced_open opens).1 balanced), length_cons,
        if_neg (by simp)]
      omega
    by_cases closes : token.kind.isClose = true
    · cases nesting with
      | nil => exact absurd balanced (not_balanced_close opens closes)
      | cons opener outer =>
        rw [alone, if_neg opens, if_pos closes, ih ((balanced_close opens closes).1 balanced).2,
          length_cons]
        omega
    · rw [alone, if_neg opens, if_neg closes, ih ((balanced_plain opens closes).1 balanced)]
      omega

/-! ### Landmarks that nothing behind them changes -/

theorem inert_of_isBlank (blank : text.isBlank = true) : ∀ c ∈ text, isInert c = true :=
  fun c member => isInert_iff.2 (Walk.isPlain_of_isBlank (isBlank_iff.1 blank c member))

/-- A landmark that the lexer takes whatever follows.  So do the scanners of plain text, unless it is a
string that goes on behind a CRLF pair. -/
structure Token.Sealed (mark : Token) : Prop where
  unplaced : mark.line = 0
  isLandmark : mark.isLandmark = true
  cut : ∃ c cs, mark.text = c :: cs ∧ isInert c = false ∧
    ∀ more, Lexeme.first c (cs ++ more) = .ok ⟨mark.kind, mark.text, more⟩
  ends : ∃ start last, mark.text = start ++ [last] ∧ isBlank last = false
  scan : (mark.isLiteral = true → ¬ mark.Continues) →
    (mark.kind = .other ∨ mark.kind = .comment) ∧ Literal.Sealed mark.text ∨
      ∃ c, mark.text = [c] ∧ punctuation? c = some mark.kind

namespace Commented

variable {body feed : Text}

theorem cut (inLine : Commented body feed) (more : Text) :
    Lexeme.lineComment (body ++ (feed ++ more)) = ⟨body, feed ++ more⟩ := by
  induction body with
  | nil =>
    rcases inLine.feeds with rfl | ⟨rfl, _⟩
    · rfl
    · rfl
  | cons c cs ih =>
    have feedless := inLine.inLine
    rw [mem_cons, not_or] at feedless
    have tail : Commented cs feed := by
      refine ⟨feedless.2, inLine.feeds.imp_right fun ⟨feed, notReturn⟩ => ⟨feed, ?_⟩⟩
      cases cs with
      | nil => simp
      | cons d ds => simpa using notReturn
    rw [cons_append, lineComment_plain (Ne.symm feedless.1), ih tail]
    · rfl
    · intro rest isReturn pair
      cases cs with
      | nil =>
        rcases inLine.feeds with rfl | ⟨rfl, notReturn⟩
        · cases pair
        · exact notReturn (by rw [isReturn]; rfl)
      | cons d ds => exact feedless.2 (by rw [(List.cons.inj pair).1]; exact mem_cons_self)

theorem feed_blank (inLine : Commented body feed) : feed.isBlank = true := by
  rcases inLine.feeds with rfl | ⟨rfl, _⟩ <;> decide

/-- A scanner takes the comment up to the line feed, with the carriage return in front of it. -/
theorem parts (inLine : Commented body feed) (more : Text) :
    ∃ taken, Text.parts ('/' :: '/' :: (body ++ (feed ++ more))) =
      .literal taken :: .code '\n' :: more.parts := by
  have scan : ∀ {comment : Text}, '\n' ∉ comment →
      Text.parts ('/' :: '/' :: (comment ++ '\n' :: more)) =
        .literal ('/' :: '/' :: comment) :: .code '\n' :: more.parts := by
    intro comment inLine
    rw [parts_literal (Literal.first?_comment inLine more),
      parts_cons (Literal.first?_of_isPlain (by decide) _)]
  rcases inLine.feeds with rfl | ⟨rfl, _⟩
  · have taken := @scan (body ++ ['\r']) (by simpa using inLine.inLine)
    exact ⟨_, by simpa using taken⟩
  · exact ⟨_, scan inLine.inLine⟩

theorem feed_front {front more : Text} {stop : Char} (inLine : Commented body feed)
    (notFeed : stop ≠ '\n') (notReturn : stop ≠ '\r') (here : feed <+: front ++ stop :: more) :
    feed <+: front := by
  obtain ⟨later, same⟩ := here
  rcases inLine.feeds with rfl | ⟨rfl, _⟩
  · cases front with
    | nil => exact absurd (List.cons.inj same).1.symm notReturn
    | cons c cs =>
      obtain ⟨rfl, behind⟩ := List.cons.inj same
      cases cs with
      | nil => exact absurd (List.cons.inj behind).1.symm notFeed
      | cons d ds =>
        obtain ⟨rfl, _⟩ := List.cons.inj behind
        exact ⟨ds, rfl⟩
  · cases front with
    | nil => exact absurd (List.cons.inj same).1.symm notFeed
    | cons c cs =>
      obtain ⟨rfl, _⟩ := List.cons.inj same
      exact ⟨cs, rfl⟩

end Commented

inductive Outline (rest : Text) : Text → List Token → Ending → Prop
  | done : Outline rest [] [] .blank
  | landmark {front : Text} {mark : Token} {marks : List Token} {ending : Ending}
    (closed : mark.Sealed) (later : Outline rest front marks ending) :
    Outline rest (mark.text ++ front) (mark :: marks) (Ending.other.followedBy ending)
  | comment {body feed front : Text} {marks : List Token} {ending : Ending}
    (inLine : Commented body feed) (later : Outline rest front marks ending) :
    Outline rest ('/' :: '/' :: (body ++ (feed ++ front)))
      (⟨.comment, '/' :: '/' :: body, 0⟩ :: marks) (Ending.comment.followedBy ending)
  | char {c : Char} {front : Text} {marks : List Token} {ending : Ending}
    (filler : isInert c = true ∨ c = '/' ∧ Harmless (front ++ rest))
    (later : Outline rest front marks ending) :
    Outline rest (c :: front) marks ((Ending.ofChar c).followedBy ending)

namespace Outline

variable {rest front : Text} {other taken : Text}

theorem append {back : Text} {more : List Token} {last : Ending}
    (outline : Outline (back ++ rest) front marks ending) (goesOn : Outline rest back more last) :
    Outline rest (front ++ back) (marks ++ more) (ending.followedBy last) := by
  induction outline with
  | done => simpa using goesOn
  | landmark closed _ ih =>
    rw [append_assoc, Ending.followedBy_assoc]
    exact .landmark closed ih
  | comment inLine _ ih =>
    rw [Ending.followedBy_assoc, cons_append, cons_append, append_assoc,
      append_assoc]
    exact .comment inLine ih
  | char filler _ ih =>
    rw [← append_assoc] at filler
    rw [Ending.followedBy_assoc]
    exact .char filler ih

theorem change (outline : Outline rest front marks ending) (harmless : Harmless other) :
    Outline other front marks ending := by
  induction outline with
  | done => exact .done
  | landmark closed _ ih => exact .landmark closed ih
  | comment inLine _ ih => exact .comment inLine ih
  | @char c front _ _ filler _ ih =>
    refine .char (filler.imp_right fun ⟨slash, safe⟩ => ⟨slash, ?_⟩) ih
    cases front with
    | nil => exact harmless
    | cons d ds => exact safe

theorem of_inert (filler : ∀ c ∈ text, isInert c = true) :
    Outline rest text [] (Ending.ofText text) := by
  induction text with
  | nil => exact .done
  | cons c cs ih =>
    rw [Ending.ofText_cons]
    exact .char (.inl (filler c mem_cons_self))
      (ih fun d member => filler d (mem_cons_of_mem _ member))

theorem of_blank (blank : text.isBlank = true) : Outline rest text [] .blank := by
  have outline : Outline rest text _ _ := of_inert (inert_of_isBlank blank)
  rwa [Ending.ofText, if_pos blank] at outline

theorem of_nil (outline : Outline rest [] marks ending) : marks = [] ∧ ending = .blank := by
  generalize same : ([] : Text) = whole at outline
  cases outline with
  | done => exact ⟨rfl, rfl⟩
  | landmark closed _ =>
    obtain ⟨c, cs, text, _⟩ := closed.cut
    rw [text] at same
    cases same
  | comment => cases same
  | char => cases same

theorem step (filler : isInert c = true) (outline : Outline rest (c :: front) marks ending) :
    ∃ last, Outline rest front marks last ∧ ending = (Ending.ofChar c).followedBy last := by
  generalize same : c :: front = whole at outline
  cases outline with
  | done => cases same
  | landmark closed _ =>
    obtain ⟨d, ds, text, opens, _⟩ := closed.cut
    rw [text, cons_append] at same
    rw [(List.cons.inj same).1, opens] at filler
    cases filler
  | comment =>
    rw [(List.cons.inj same).1] at filler
    cases filler
  | char _ later =>
    obtain ⟨rfl, rfl⟩ := List.cons.inj same
    exact ⟨_, later, rfl⟩

theorem peel (filler : ∀ c ∈ taken, isInert c = true)
    (outline : Outline rest (taken ++ front) marks ending) :
    ∃ last, Outline rest front marks last ∧ ending = (Ending.ofText taken).followedBy last := by
  induction taken generalizing ending with
  | nil => exact ⟨ending, outline, (Ending.blank_followedBy ending).symm⟩
  | cons c cs ih =>
    obtain ⟨_, later, rfl⟩ := outline.step (filler c mem_cons_self)
    obtain ⟨last, peeled, rfl⟩ := ih (fun d member => filler d (mem_cons_of_mem _ member)) later
    exact ⟨last, peeled, by rw [Ending.ofText_cons, Ending.followedBy_assoc]⟩

theorem peel_blank (blank : taken.isBlank = true)
    (outline : Outline rest (taken ++ front) marks ending) : Outline rest front marks ending := by
  obtain ⟨last, later, rfl⟩ := outline.peel (inert_of_isBlank blank)
  rwa [Ending.ofText, if_pos blank, Ending.blank_followedBy]

section

variable (outline : Outline rest front marks ending)

include outline

theorem ending_eq_blank_iff : ending = .blank ↔ front.isBlank = true := by
  induction outline with
  | done => simp [Text.isBlank]
  | landmark closed _ _ =>
    obtain ⟨start, last, text, solid⟩ := closed.ends
    rw [Ending.followedBy_eq_blank, text]
    simp [Text.isBlank, solid]
  | comment => simp [Ending.followedBy_eq_blank, Text.isBlank, show isBlank '/' = false by decide]
  | @char c _ _ _ _ _ ih =>
    rw [Ending.followedBy_eq_blank, ih, Text.isBlank, Text.isBlank, all_cons, Ending.ofChar]
    cases isBlank c <;> simp

theorem notBlank (some : ending ≠ .blank) : front.isBlank = false := by
  have := outline.ending_eq_blank_iff
  cases blank : front.isBlank with
  | false => rfl
  | true => exact absurd (this.2 blank) some

theorem marks_of_blank (blank : front.isBlank = true) : marks = [] := by
  rw [← append_nil front] at outline
  exact (outline.peel_blank blank).of_nil.1

/-! ### Trimming what an outline goes through -/

theorem trimStart : Outline rest front.trimStart marks ending := by
  have whole := takeWhile_append_dropWhile (p := FlatMemory.isBlank) (l := front)
  rw [← whole] at outline
  exact outline.peel_blank (all_eq_true.2 fun c member => mem_takeWhile_imp member)

theorem trimEnd (stays : ending ≠ .comment) (harmless : Harmless other) :
    Outline other front.trimEnd marks ending := by
  induction outline with
  | done => exact .done
  | @landmark front mark _ later closed _ ih =>
    obtain ⟨start, last, text, solid⟩ := closed.ends
    have trimmed : Text.trimEnd (mark.text ++ front) = mark.text ++ Text.trimEnd front := by
      rw [text, append_assoc, singleton_append, (trimEnd_append_cons solid).1]
      simp
    rw [trimmed]
    exact .landmark closed (ih (by cases later <;> simp_all [Ending.followedBy]))
  | @comment body feed front _ later inLine goesOn ih =>
    cases later with
    | blank => exact absurd rfl stays
    | comment => exact absurd rfl stays
    | other =>
      rw [show '/' :: '/' :: (body ++ (feed ++ front)) = ('/' :: '/' :: (body ++ feed)) ++ front by
        simp, (trimEnd_append (goesOn.notBlank (by simp)) _).1]
      simpa using Outline.comment inLine (ih (by simp))
  | @char c front marks later filler goesOn ih =>
    have stepped := ih (by cases later <;> simp_all [Ending.followedBy])
    cases blank : Text.isBlank front with
    | true =>
      rw [(trimEnd_of_blank blank).1] at stepped
      obtain ⟨rfl, rfl⟩ := stepped.of_nil
      by_cases blankHead : isBlank c = true
      · rw [(trimEnd_of_blank (by simp [Text.isBlank] at blank ⊢; exact ⟨blankHead, blank⟩)).1,
          Ending.ofChar, if_pos blankHead]
        exact .done
      · rw [show c :: front = [] ++ c :: front from rfl,
          (trimEnd_append_cons (by simpa using blankHead)).1, (trimEnd_of_blank blank).1]
        exact .char (filler.imp_right fun safe => ⟨safe.1, harmless⟩) .done
    | false =>
      rw [show c :: front = [c] ++ front from rfl, (trimEnd_append blank _).1,
        singleton_append]
      refine .char (filler.imp_right fun safe => ⟨safe.1, ?_⟩) stepped
      rw [Harmless, head?_trimEnd blank]
      cases front with
      | nil => simp [Text.isBlank] at blank
      | cons d ds => exact safe.2

end

/-- Where a line comment is the last thing, it stands behind an outline of its own. -/
theorem comment_split (outline : Outline rest front marks .comment) :
    ∃ (start body feed blank : Text) (early : List Token) (last : Ending),
      front = start ++ '/' :: '/' :: (body ++ (feed ++ blank)) ∧ Commented body feed ∧
      Text.isBlank blank = true ∧ marks = early ++ [⟨.comment, '/' :: '/' :: body, 0⟩] ∧
      ∀ other, Outline ('/' :: '/' :: other) start early last := by
  generalize same : Ending.comment = ending at outline
  induction outline with
  | done => cases same
  | @landmark _ mark _ later closed _ ih =>
    obtain rfl : later = .comment := by cases later <;> first | rfl | cases same
    obtain ⟨start, body, feed, blank, early, last, rfl, inLine, isBlank, rfl, leads⟩ := ih rfl
    exact ⟨mark.text ++ start, body, feed, blank, mark :: early, _, by simp, inLine, isBlank, rfl,
      fun other => .landmark closed (leads other)⟩
  | @comment body feed front _ later inLine goesOn ih =>
    cases later with
    | other => cases same
    | comment =>
      obtain ⟨start, last, feed', blank, early, ending, rfl, inLast, isBlank, rfl, leads⟩ := ih rfl
      exact ⟨'/' :: '/' :: (body ++ (feed ++ start)), last, feed', blank, _ :: early, _, by simp,
        inLast, isBlank, rfl, fun other => .comment inLine (leads other)⟩
    | blank =>
      have blank := goesOn.ending_eq_blank_iff.1 rfl
      obtain rfl := goesOn.marks_of_blank blank
      exact ⟨[], body, feed, front, [], .blank, rfl, inLine, blank, rfl, fun _ => .done⟩
  | @char c front _ later inert _ ih =>
    obtain rfl : later = .comment := by
      cases later with
      | comment => rfl
      | other => cases same
      | blank =>
        rw [Ending.followedBy_blank, Ending.ofChar] at same
        split at same <;> cases same
    obtain ⟨start, body, feed, blank, early, last, rfl, inLine, isBlank, rfl, leads⟩ := ih rfl
    refine ⟨c :: start, body, feed, blank, early, _, rfl, inLine, isBlank, rfl, fun other =>
      .char (inert.imp_right fun slash => ⟨slash.1, ?_⟩) (leads other)⟩
    cases start with
    | nil => exact absurd rfl slash.2.1
    | cons d ds => exact slash.2

end Outline

theorem Commented.trimEnd {start body feed blank : Text} (inLine : Commented body feed)
    (isBlank : Text.isBlank blank = true) :
    Text.trimEnd (start ++ '/' :: '/' :: (body ++ (feed ++ blank))) =
        start ++ '/' :: '/' :: body.trimEnd ∧
      Text.trailingBlank (start ++ '/' :: '/' :: (body ++ (feed ++ blank))) =
        body.trailingBlank ++ (feed ++ blank) := by
  have behind : Text.isBlank (feed ++ blank) = true := by
    rw [Text.isBlank, all_append, Bool.and_eq_true]
    exact ⟨inLine.feed_blank, isBlank⟩
  have slash : FlatMemory.isBlank '/' = false := by decide
  rw [show start ++ '/' :: '/' :: (body ++ (feed ++ blank)) =
      ((start ++ ['/']) ++ '/' :: body) ++ (feed ++ blank) by simp]
  rw [(trimEnd_append_blank behind _).1, (trimEnd_append_blank behind _).2,
    (trimEnd_append_cons slash).1, (trimEnd_append_cons slash).2]
  simp

namespace Outline

variable {rest front : Text}

/-- A bracket put behind a line comment gets lost in it; the other landmarks stay. -/
theorem swallow (outline : Outline rest front marks .comment) :
    ∃ changed,
      (∀ other, Outline other (front.trimEnd ++ ')' :: front.trailingBlank) changed .comment) ∧
      Token.literals changed = Token.literals marks ∧
      Token.surplus changed = Token.surplus marks := by
  obtain ⟨start, body, feed, blank, early, last, rfl, inLine, isBlank, rfl, leads⟩ :=
    outline.comment_split
  have whole := trimEnd_append_trailingBlank body
  have longer : Commented (body.trimEnd ++ ')' :: body.trailingBlank) feed := by
    constructor
    · have feedless := inLine.inLine
      rw [← whole] at feedless
      simpa using feedless
    · refine inLine.feeds.imp_right fun ⟨isFeed, notReturn⟩ => ⟨isFeed, ?_⟩
      rw [← whole] at notReturn
      cases blank : body.trailingBlank with
      | nil => simp
      | cons c cs =>
        rw [blank] at notReturn
        simpa using notReturn
  obtain ⟨trimmed, trailing⟩ := inLine.trimEnd isBlank
  rw [trimmed, trailing]
  refine ⟨early ++ [⟨.comment, '/' :: '/' :: (body.trimEnd ++ ')' :: body.trailingBlank), 0⟩],
    fun other => ?_, by rw [literals_append, literals_append]; rfl,
    by rw [surplus_append, surplus_append]; rfl⟩
  have outlined := (leads _).append (.comment longer (.of_blank isBlank : Outline other _ _ _))
  simpa using outlined

/-- A line comment at the end can lose its blanks if it gets a new line break. -/
theorem trimEnd_comment (outline : Outline rest front marks .comment) :
    ∃ changed, (∀ other, Outline other (front.trimEnd ++ ['\n']) changed .comment) ∧
      Token.literals changed = Token.literals marks := by
  obtain ⟨start, body, feed, blank, early, last, rfl, inLine, isBlank, rfl, leads⟩ :=
    outline.comment_split
  have whole := trimEnd_append_trailingBlank body
  have shorter : Commented body.trimEnd ['\n'] := by
    refine ⟨fun member => inLine.inLine ?_, .inr ⟨rfl, fun isReturn => ?_⟩⟩
    · rw [← whole]
      exact mem_append_left _ member
    · have solid := head?_dropWhile_not FlatMemory.isBlank body.reverse
      rw [Text.trimEnd, getLast?_reverse] at isReturn
      rw [isReturn] at solid
      cases solid
  rw [(inLine.trimEnd isBlank).1]
  refine ⟨early ++ [⟨.comment, '/' :: '/' :: body.trimEnd, 0⟩], fun other => ?_,
    by rw [literals_append, literals_append]; rfl⟩
  have outlined := (leads _).append (.comment shorter (.done : Outline other _ _ _))
  simpa using outlined

end Outline

/-! ### Reading along an outline -/

namespace Lexeme

theorem isLandmark_eq_false {kind : TokenKind} (line : Nat) (opens : isInert c = true ∨ c = '/')
    (noComment : kind ≠ .comment)
    (plainKind : (kind.isOpen || kind.isClose || kind = .comma) = false) :
    Token.isLandmark ⟨kind, c :: cs, line⟩ = false := by
  have differs : ∀ d, isInert d = false → d ≠ '/' → c ≠ d := by
    rintro d special other rfl
    rcases opens with filler | slash
    · rw [special] at filler
      cases filler
    · exact other slash
  simp only [Bool.or_eq_false_iff] at plainKind
  simp [Token.isLandmark, Token.isLiteral, Token.isString, noComment, plainKind.1.1, plainKind.1.2,
    of_decide_eq_false plainKind.2,
    differs '"' (by decide) (by decide), differs '\x27' (by decide) (by decide),
    differs '\x60' (by decide) (by decide)]

theorem text_first {lexeme : Lexeme} (cut : first c cs = .ok lexeme) :
    ∃ taken, lexeme.text = c :: taken ∧ cs = taken ++ lexeme.rest := by
  have advances := advances_first c cs
  rw [cut] at advances
  cases text : lexeme.text with
  | nil => exact absurd text advances.2
  | cons d ds =>
    have whole := advances.1
    rw [text] at whole
    obtain ⟨rfl, rfl⟩ := List.cons.inj whole
    exact ⟨ds, rfl, rfl⟩

theorem first_inert (filler : isInert c = true ∨ c = '/' ∧ Harmless cs) :
    ∃ lexeme taken, first c cs = .ok lexeme ∧ lexeme.text = c :: taken ∧
      cs = taken ++ lexeme.rest ∧ (∀ d ∈ taken, isInert d = true) ∧
      ∀ line, Token.isLandmark ⟨lexeme.kind, lexeme.text, line⟩ = false := by
  obtain ⟨lexeme, cut⟩ : ∃ lexeme, first c cs = .ok lexeme := by
    rcases filler with filler | ⟨rfl, safe⟩
    · have differs : ∀ d, isInert d = false → c ≠ d := by
        rintro d special rfl
        rw [special] at filler
        cases filler
      unfold first
      rw [if_neg (c := c = '"' ∨ c = '\x27')
          (not_or.2 ⟨differs '"' (by decide), differs '\x27' (by decide)⟩),
        if_neg (differs '\x60' (by decide)), if_neg (differs '/' (by decide))]
      repeat' split
      all_goals exact ⟨_, rfl⟩
    · exact ⟨operator '/' cs, slash_operator (fun ds same => safe.1 (by rw [same]; rfl))
        fun ds same => safe.2 (by rw [same]; rfl)⟩
  obtain ⟨taken, text, rest⟩ := text_first cut
  have opens : isInert c = true ∨ c = '/' := filler.imp_right And.left
  refine ⟨lexeme, taken, cut, text, rest, ?_⟩
  rw [text]
  cases shape_first cut with
  | inert chars plainKind noComment =>
    rw [text] at chars
    exact ⟨fun d member => chars d (mem_cons_of_mem _ member),
      fun line => isLandmark_eq_false line opens noComment plainKind⟩
  | @punctuation kind found same =>
    subst same
    obtain rfl := (List.cons.inj text).2
    refine ⟨by simp, fun line => isLandmark_eq_false line opens ?_ ?_⟩
    · rintro rfl
      unfold punctuation? at found
      split at found <;> cases found
    · unfold punctuation? at found
      split at found
      all_goals first
        | (cases found; done)
        | (cases found; rfl)
        | (rcases opens with none | none <;> cases none)
  | quoted isQuote => rcases isQuote with rfl | rfl <;> rcases opens with none | none <;> cases none
  | template isTick =>
    subst isTick
    rcases opens with none | none <;> cases none
  | lineComment isSlash startsLine =>
    subst isSlash startsLine
    rcases filler with none | ⟨_, safe⟩
    · cases none
    · exact absurd rfl safe.1
  | blockComment isSlash startsBlock =>
    subst isSlash startsBlock
    rcases filler with none | ⟨_, safe⟩
    · cases none
    · exact absurd rfl safe.2
  | slash isSlash harmless same =>
    subst isSlash same
    obtain ⟨plainKind, noComment⟩ := plainKind_operator '/' cs
    obtain ⟨n, spelled, _, inert⟩ := inert_operator_tail '/' cs
    rw [spelled] at text
    obtain rfl := (List.cons.inj text).2
    exact ⟨fun d member => inert d member,
      fun line => isLandmark_eq_false line opens noComment plainKind⟩

end Lexeme

theorem Lexer.next_first {lexeme : Lexeme} (cut : Lexeme.first c cs = .ok lexeme) (line : Nat) :
    ∃ later due, Lexer.next ⟨c :: cs, line, false⟩ =
      (.ok ⟨lexeme.kind, lexeme.text, line⟩, ⟨lexeme.rest, later, due⟩) := by
  simp [Lexer.next, cut]

/-- A text with an outline is lexed to its end. -/
theorem Outline.reads (outline : Outline [] text marks ending) (line : Nat) (due : Bool) :
    ∃ tokens after, Reads ⟨text, line, due⟩ tokens after ∧ after.AtEnd ∧
      Token.landmarks tokens = marks := by
  induction size : text.length using Nat.strong_induction_on generalizing text marks ending line due
    with
  | _ size ih =>
    subst size
    -- One token, and what follows it has an outline of its own.
    have goOn : ∀ {c : Char} {cs : Text} {lexeme : Lexeme} {marks : List Token} {ending : Ending},
        Lexeme.first c cs = .ok lexeme → text = c :: cs → Outline [] lexeme.rest marks ending →
        ∃ tokens after, Reads ⟨text, line, false⟩ tokens after ∧ after.AtEnd ∧
          Token.landmarks tokens =
            Token.landmarks [⟨lexeme.kind, lexeme.text, line⟩] ++ marks := by
      rintro c cs lexeme marks ending cut rfl outline
      have advances := advances_first c cs
      rw [cut] at advances
      have lengths := congrArg List.length advances.1
      have some := length_pos_iff.2 advances.2
      rw [length_append] at lengths
      obtain ⟨later, due, next⟩ := Lexer.next_first cut line
      obtain ⟨tokens, after, reads, atEnd, same⟩ :=
        ih lexeme.rest.length (by omega) outline later due rfl
      refine ⟨_ :: tokens, after, .token next (kind_first cut).2 reads, atEnd, ?_⟩
      rw [landmarks_cons, same]
    have settled : ∃ tokens after, Reads ⟨text, line, false⟩ tokens after ∧ after.AtEnd ∧
        Token.landmarks tokens = marks := by
      cases outline with
      | done => exact ⟨[], _, .done _, ⟨rfl, rfl⟩, rfl⟩
      | @landmark front mark marks ending closed later =>
        obtain ⟨c, cs, text, _, cut⟩ := closed.cut
        have reads := goOn (cut front) (by rw [text]; rfl) later
        have isLandmark : Token.isLandmark ⟨mark.kind, mark.text, line⟩ = true := closed.isLandmark
        rw [landmarks_of_isLandmark isLandmark] at reads
        have same : Token.unplaced ⟨mark.kind, mark.text, line⟩ = mark := by
          rw [Token.unplaced, ← closed.unplaced]
        rwa [same] at reads
      | @comment body feed front marks ending inLine later =>
        have cut : Lexeme.first '/' ('/' :: (body ++ (feed ++ front))) =
            .ok ⟨.comment, '/' :: '/' :: body, feed ++ front⟩ := by
          change Except.ok (Lexeme.ofCut .comment
            ((Lexeme.lineComment (body ++ (feed ++ front))).after ['/', '/'])) = _
          rw [inLine.cut]
          rfl
        exact goOn cut rfl ((Outline.of_blank inLine.feed_blank).append later)
      | @char c front marks ending filler later =>
        rw [append_nil] at filler
        obtain ⟨lexeme, taken, cut, _, rest, chars, unmarked⟩ := first_inert filler
        rw [rest] at later
        obtain ⟨last, peeled, _⟩ := later.peel chars
        have reads := goOn cut rfl peeled
        rwa [landmarks_of_not (unmarked line), nil_append] at reads
    cases due with
    | false => exact settled
    | true =>
      obtain ⟨tokens, after, reads, atEnd, same⟩ := settled
      refine ⟨⟨.lineReset, [], line⟩ :: tokens, after, .token rfl (by simp) reads, atEnd, ?_⟩
      rw [landmarks_cons, same]
      rfl

theorem Outline.tokenizeFrom (outline : Outline [] text marks ending) (line : Nat) :
    ∃ tokens, FlatMemory.tokenizeFrom line text = .ok tokens ∧ Token.landmarks tokens = marks := by
  obtain ⟨tokens, after, reads, atEnd, same⟩ := outline.reads line false
  exact ⟨tokens, (tokenizeFrom_eq_ok_iff line text tokens).2 ⟨after, reads, atEnd⟩, same⟩

/-! ### The outline of a run of tokens -/

inductive Token.Taken (rest : Text) (token : Token) : Prop
  | landmark (closed : token.unplaced.Sealed) (notLine : token.isLineComment = false)
  | comment {body : Text} (kind : token.kind = .comment) (spelled : token.text = '/' :: '/' :: body)
    (inLine : '\n' ∉ body) (ends : rest = [] ∨ ∃ feed more, rest = feed ++ more ∧ Commented body feed)
  | inert (chars : ∀ c ∈ token.text, isInert c = true) (unmarked : token.isLandmark = false)
  | slash {tail : Text} (spelled : token.text = '/' :: tail)
    (chars : ∀ c ∈ tail, isInert c = true) (harmless : Harmless (tail ++ rest))
    (unmarked : token.isLandmark = false)

namespace Token

variable {token : Token} {context after : Text} {front back : List Token}

theorem isLineComment_of_not_isLandmark (unmarked : token.isLandmark = false) :
    token.isLineComment = false := by
  simp only [isLandmark, Bool.or_eq_false_iff, decide_eq_false_iff_not] at unmarked
  simp [isLineComment, unmarked.1.1.1.2]

theorem Taken.harmless (taken : token.Taken context) (slash : token.text = ['/']) :
    Harmless context := by
  cases taken with
  | landmark closed _ =>
    obtain ⟨c, cs, text, _, cut⟩ := closed.cut
    have same : c :: cs = ['/'] := text.symm.trans slash
    obtain ⟨rfl, rfl⟩ := List.cons.inj same
    have kind : TokenKind.other = token.unplaced.kind :=
      congrArg Lexeme.kind (Except.ok.inj (cut []))
    have isLandmark := closed.isLandmark
    simp [Token.isLandmark, isLiteral, isString, text, ← kind, TokenKind.isOpen,
      TokenKind.isClose] at isLandmark
  | comment _ spelled =>
    rw [slash] at spelled
    cases spelled
  | inert chars _ =>
    have none := chars '/' (by rw [slash]; exact mem_cons_self)
    cases none
  | slash spelled _ harmless _ =>
    rw [slash] at spelled
    obtain rfl := (List.cons.inj spelled).2
    exact harmless

/-- A token in front of an outline.  Behind a slash no comment may start, and behind a line comment
its line break has to stand. -/
theorem Taken.outline {rest front : Text} (taken : token.Taken context) (some : context ≠ [])
    (later : Outline rest front marks ending)
    (slash : token.text = ['/'] → Harmless (front ++ rest))
    (feed : ∀ body feed, Commented body feed → feed <+: context → feed <+: front) :
    Outline rest (token.text ++ front) (landmarks [token] ++ marks)
      (token.ending.followedBy ending) := by
  cases taken with
  | landmark closed notLine =>
    obtain ⟨start, last, text, solid⟩ := closed.ends
    have other : token.ending = .other := by
      rw [Token.ending, if_neg (by simp [notLine]), Ending.ofText,
        show token.text = start ++ [last] from text]
      simp [Text.isBlank, solid]
    rw [landmarks_of_isLandmark (show token.isLandmark = true from closed.isLandmark), other]
    exact .landmark closed later
  | @comment body kind spelled _ ends =>
    obtain ⟨feed', more, ends, inLine⟩ := ends.resolve_left some
    have isLandmark : token.isLandmark = true := by simp [Token.isLandmark, kind]
    have isLine : token.isLineComment = true := by simp [isLineComment, kind, spelled]
    obtain ⟨behind, rfl⟩ := feed body feed' inLine ⟨more, ends.symm⟩
    rw [landmarks_of_isLandmark isLandmark, Token.ending, if_pos isLine, unplaced, kind, spelled]
    exact .comment inLine (later.peel_blank inLine.feed_blank)
  | inert chars unmarked =>
    rw [landmarks_of_not unmarked, Token.ending,
      if_neg (by simp [isLineComment_of_not_isLandmark unmarked])]
    exact (Outline.of_inert chars).append later
  | @slash tail spelled chars harmless unmarked =>
    rw [landmarks_of_not unmarked, Token.ending,
      if_neg (by simp [isLineComment_of_not_isLandmark unmarked]), spelled, Ending.ofText_cons,
      Ending.followedBy_assoc]
    refine .char (.inr ⟨rfl, ?_⟩) ((Outline.of_inert chars).append later)
    cases tail with
    | nil => exact slash spelled
    | cons d ds => exact harmless

/-- A scanner comes by what stands behind a token, if the lexer would still take the token there. -/
theorem Taken.meets {front back : Text} (taken : token.Taken context) (some : context ≠ [])
    (unbroken : ¬ token.Continues) (later : Meets front back)
    (slash : token.text = ['/'] → Harmless (front ++ back))
    (feed : ∀ body feed, Commented body feed → feed <+: context → feed <+: front) :
    Meets (token.text ++ front) back := by
  cases taken with
  | landmark closed _ =>
    refine .append ?_ later
    rcases closed.scan fun _ => unbroken with ⟨_, whole⟩ | ⟨c, text, found⟩
    · exact .of_sealed whole _
    · rw [show token.text = [c] from text]
      exact .of_plain (by simpa using (plain_punctuation found).1) _
  | @comment body _ spelled _ ends =>
    obtain ⟨feed', more, ends, inLine⟩ := ends.resolve_left some
    obtain ⟨behind, rfl⟩ := feed body feed' inLine ⟨more, ends.symm⟩
    obtain ⟨scanned, parts⟩ := inLine.parts (behind ++ back)
    have blank := plain_of_inert (inert_of_isBlank inLine.feed_blank)
    obtain ⟨last, same⟩ := Meets.behind (parts_plain blank _) later
    refine ⟨.literal scanned :: .code '\n' :: last, ?_⟩
    rw [spelled]
    simpa [same] using parts
  | inert chars _ => exact .append (.of_plain (plain_of_inert chars) _) later
  | @slash tail spelled chars harmless _ =>
    have plain : Literal.first? ('/' :: (tail ++ (front ++ back))) = none := by
      refine Literal.first?_eq_none_iff.2 ⟨by decide, by decide, by decide, fun _ => ?_⟩
      cases tail with
      | nil => exact slash spelled
      | cons d ds => exact harmless
    obtain ⟨early, same⟩ := Meets.append (.of_plain (plain_of_inert chars) _) later
    rw [append_assoc] at same
    exact ⟨.code '/' :: early, by simpa [spelled, parts_cons plain] using same⟩

def Strung (after : Text) (tokens : List Token) : Prop :=
  ∀ front token back, tokens = front ++ token :: back →
    token.Taken (back.flatMap Token.text ++ after)

theorem Strung.part {middle : List Token} (strung : Strung after tokens)
    (whole : tokens = front ++ (middle ++ back)) :
    Strung (back.flatMap Token.text ++ after) middle := by
  rintro start token later rfl
  have taken := strung (front ++ start) token (later ++ back) (by rw [whole]; simp)
  rwa [flatMap_append, append_assoc] at taken

theorem Strung.suffix (strung : Strung after tokens) (whole : tokens = front ++ back) :
    Strung after back := by
  rw [← append_nil back] at whole
  exact strung.part whole

end Token

namespace Lexeme

variable {kind : TokenKind}

theorem sealed_literal (isLandmark : Token.isLandmark ⟨kind, c :: cs, 0⟩ = true)
    (opens : isInert c = false) (cut : ∀ more, first c (cs ++ more) = .ok ⟨kind, c :: cs, more⟩)
    (ends : ∃ start last, cs = start ++ [last] ∧ isBlank last = false)
    (isKind : kind = .other ∨ kind = .comment)
    (scan : (Token.isLiteral ⟨kind, c :: cs, 0⟩ = true → ¬ Token.Continues ⟨kind, c :: cs, 0⟩) →
      Literal.Sealed (c :: cs)) :
    Token.Sealed ⟨kind, c :: cs, 0⟩ := by
  obtain ⟨start, last, rfl, solid⟩ := ends
  exact ⟨rfl, isLandmark, ⟨c, _, rfl, opens, cut⟩, ⟨c :: start, last, rfl, solid⟩,
    fun unbroken => .inl ⟨isKind, scan unbroken⟩⟩

theorem sealed_punctuation (found : punctuation? c = some kind) (opens : isInert c = false) :
    Token.Sealed ⟨kind, [c], 0⟩ := by
  unfold punctuation? at found
  split at found
  all_goals first
    | (cases found; done)
    | exact absurd opens (by decide)
    | (cases found
       exact ⟨rfl, rfl, ⟨_, [], rfl, rfl, fun _ => rfl⟩, ⟨[], _, rfl, by decide⟩,
         fun _ => .inr ⟨_, rfl, rfl⟩⟩)

theorem taken_first {lexeme : Lexeme} (cut : first c cs = .ok lexeme) (line : Nat) :
    Token.Taken lexeme.rest ⟨lexeme.kind, lexeme.text, line⟩ := by
  by_cases filler : isInert c = true ∨ c = '/' ∧ Harmless cs
  · obtain ⟨same, taken, again, text, rest, chars, unmarked⟩ := first_inert filler
    obtain rfl := Except.ok.inj (cut.symm.trans again)
    rcases filler with filler | ⟨rfl, harmless⟩
    · refine .inert ?_ (unmarked line)
      rw [text]
      exact forall_mem_cons.2 ⟨filler, chars⟩
    · rw [rest] at harmless
      exact .slash text chars harmless (unmarked line)
  rw [not_or] at filler
  cases shape_first cut with
  | inert chars =>
    obtain ⟨taken, text, _⟩ := text_first cut
    rw [text] at chars
    exact absurd (chars c mem_cons_self) filler.1
  | punctuation found same =>
    subst same
    refine .landmark (sealed_punctuation found (by simpa using filler.1)) ?_
    simp [Token.isLineComment]
  | @quoted inner isQuote found same =>
    subst same
    have closed := (quoted_closed found).2
    have isString := isString_quoted isQuote .other inner.taken 0
    have isLiteral : Token.isLiteral ⟨.other, c :: inner.taken, 0⟩ = true := by
      simp [Token.isLiteral, isString]
    have isLandmark : Token.isLandmark ⟨.other, c :: inner.taken, 0⟩ = true := by
      simp [Token.isLandmark, isLiteral]
    refine .landmark (sealed_literal isLandmark (by simpa using filler.1) (fun more => ?_) ?_ (.inl rfl)
      fun unbroken => sealed_quoted isQuote found fun broken =>
        unbroken isLiteral ⟨isString, broken.trans (suffix_cons _ _).isInfix⟩) ?_
    · have taken : first c (inner.taken ++ more) =
          (Lexeme.quoted c (inner.taken ++ more)).map fun cut => ofCut .other (cut.after [c]) := by
        rcases isQuote with rfl | rfl <;> rfl
      refine taken.trans ?_
      rw [closed.takes (quote_ne_escape isQuote)]
      rfl
    · obtain ⟨start, ends⟩ := closed.ends
      refine ⟨start, c, ends, ?_⟩
      rcases isQuote with rfl | rfl <;> decide
    · simp [Token.isLineComment, ofCut]
  | @template inner isTick found same =>
    subst same isTick
    refine .landmark (sealed_literal ?_ (by decide) (fun more => ?_) ?_ (.inl rfl) fun _ =>
      sealed_template found) ?_
    · simp [Token.isLandmark, Token.isLiteral, ofCut]
    · change (Lexeme.template (inner.taken ++ more)).map _ = _
      rw [(template_closed found).2.takes]
      rfl
    · obtain ⟨start, ends⟩ := (template_closed found).2.ends
      exact ⟨start, '\x60', ends, by decide⟩
    · simp [Token.isLineComment, ofCut]
  | @lineComment ds isSlash opens same =>
    subst same
    obtain ⟨inLine, ends⟩ := lineComment_spec ds
    exact .comment rfl rfl inLine ends
  | @blockComment ds inner isSlash opens found same =>
    subst same isSlash opens
    refine .landmark (sealed_literal ?_ (by decide) (fun more => ?_) ?_ (.inr rfl) fun _ =>
      sealed_blockComment found) ?_
    · simp [Token.isLandmark, ofCut]
    · change (Lexeme.blockComment (inner.taken ++ more)).map _ = _
      rw [(blockComment_closed found).2.takes]
      rfl
    · obtain ⟨start, ends⟩ := (blockComment_closed found).2.ends
      exact ⟨'*' :: start, '/', by rw [ends]; rfl, by decide⟩
    · simp [Token.isLineComment, ofCut, Cut.after]
  | slash isSlash harmless => exact absurd ⟨isSlash, harmless⟩ filler.2

end Lexeme

theorem Reads.strung {lexer after : Lexer} (reads : Reads lexer tokens after) :
    Token.Strung after.rest tokens := by
  rintro front token back rfl
  obtain ⟨here, _, behind⟩ := reads.split
  cases behind with
  | token next more later =>
    have rest := later.text
    rw [← rest]
    rcases Lexer.next_cases next with ⟨_, rfl, _⟩ | ⟨_, rfl, _⟩ | ⟨c, cs, lexeme, _, _, cut, rfl, rfl⟩
    · exact .inert (by simp) rfl
    · exact absurd rfl more
    · exact taken_first cut _

theorem strung_of_tokenizeFrom {line : Nat} (lexed : tokenizeFrom line text = .ok tokens) :
    Token.Strung [] tokens := by
  obtain ⟨after, reads, atEnd, _⟩ := (tokenizeFrom_eq_ok_iff line text tokens).1 lexed
  rw [← atEnd]
  exact reads.strung

end FlatMemory
