import FlatMemory.Proofs.Code.LineMap
import FlatMemory.Proofs.Code.Section

/-! # Lines of a source and of its residual text

Each section of a source starts on the line that the text in front of it leads to.  The resume points
of the residual text give every byte of it the line it has in the source. -/

namespace FlatMemory

open List Text

/-! ### The line of a definition -/

theorem Block.definition_line {file : String} {endLine line : Nat} {found : Declaration}
    {tokens rest : List Token} (streamed : Streamed tokens)
    (read : definition file endLine line tokens = .ok (found, rest)) : found.line = line := by
  obtain ⟨_, _, isBlock⟩ :=
    Grammar.block_of_definition (Grammar.worded_of_streamed streamed) read
  cases isBlock
  rfl

/-! ### Sections and their lines -/

def Section.source (sections : List Section) : Text := sections.flatMap Section.text

theorem Section.source_around (earlier : List Section) (here : Section) (later : List Section) :
    source (earlier ++ here :: later) = source earlier ++ (here.text ++ source later) := by
  simp [source]

def Section.kept (sections : List Section) : Text := sections.flatMap Section.residual

inductive Section.Lined : Nat → List Section → Prop
  | done (line : Nat) : Lined line []
  | outside {token : Token} {sections : List Section} (proper : token.Proper)
    (later : Lined (token.line + token.text.lineBreaks) sections) :
    Lined token.line (.outside token :: sections)
  | block {tokens : List Token} {declaration : Declaration} {sections : List Section}
    (later : Lined (declaration.line + Text.lineBreaks (tokens.flatMap Token.text)) sections) :
    Lined declaration.line (.block tokens declaration :: sections)

theorem Sectioned.lined {file : String} {endLine : Nat} {before : Text} {tokens : List Token}
    {sections : List Section} (sectioned : Sectioned file endLine before tokens sections)
    {lexer after : Lexer} (reads : Reads lexer tokens after) :
    Section.Lined lexer.line sections := by
  induction sectioned generalizing lexer with
  | done => exact .done _
  | @outside _ token tokens _ notMarker later ih =>
    have line := @Reads.token_line lexer after [] tokens token reads
    obtain ⟨middle, front, behind⟩ := @Reads.split lexer after [token] tokens reads
    have here : lexer.line = token.line := by simpa [Text.lineBreaks] using line.symm
    have next := ih behind
    rw [front.line, here] at next
    rw [here]
    refine .outside (reads.proper token mem_cons_self) ?_
    simpa using next
  | @block before marker mark word inner rest declaration _ isMarker isMark isWord isEnd read later ih =>
    have ahead := (@Streamed.append [marker] _ ⟨lexer, after, reads⟩).2
    have isSplit : marker :: (inner ++ mark :: word :: rest) =
        (marker :: (inner ++ [mark, word])) ++ rest := by
      simp
    rw [isSplit] at reads
    obtain ⟨middle, front, behind⟩ := reads.split
    have line := @Reads.token_line lexer middle [] _ marker front
    have here : lexer.line = declaration.line := by
      rw [Block.definition_line ahead read]
      simpa [Text.lineBreaks] using line.symm
    have next := ih behind
    rw [front.line, here] at next
    rw [here]
    exact @Section.Lined.block _ { declaration with origin := before.byteLength } _ next

namespace Section.Lined

theorem behind {line : Nat} {earlier later : List Section} (lined : Lined line (earlier ++ later)) :
    Lined (line + (source earlier).lineBreaks) later := by
  induction earlier generalizing line with
  | nil => exact lined
  | cons first earlier ih =>
    have step : ∀ {next}, Lined (line + first.text.lineBreaks) (earlier ++ later) →
        next = line + (source (first :: earlier)).lineBreaks → Lined next later := by
      rintro next goesOn rfl
      have later := ih goesOn
      rwa [Nat.add_assoc, ← lineBreaks_append] at later
    cases lined with
    | outside _ goesOn => exact step goesOn rfl
    | block goesOn => exact step goesOn rfl

theorem block_line {line : Nat} {tokens : List Token} {declaration : Declaration}
    {later : List Section} (lined : Lined line (.block tokens declaration :: later)) :
    declaration.line = line := by
  cases lined
  rfl

end Section.Lined

/-! ### Resume points -/

theorem Piece.offset_le_of_mem_resumes {pieces : List Piece} {afterBlock : Bool} {offset : Nat}
    {resume : Resume} (member : resume ∈ resumes afterBlock offset pieces) :
    offset ≤ resume.offset := by
  fun_induction resumes afterBlock offset pieces with
  | case1 => cases member
  | case2 _ _ _ _ ih => exact ih member
  | case3 afterBlock offset token pieces next points ih =>
    rcases mem_cons.1 member with rfl | member
    · exact Nat.le_refl _
    · exact Nat.le_trans (Nat.le_add_right _ _) (ih member)
  | case4 afterBlock offset token pieces next goesOn ih =>
    exact Nat.le_trans (Nat.le_add_right _ _) (ih member)

def Resume.Counts (resume : Resume) (text : Text) (line : Nat) : Prop :=
  ∃ front back, text = front ++ back ∧ front.byteLength = resume.offset ∧
    resume.line + back.lineBreaks = line

theorem Resume.Counts.append {resume : Resume} {text : Text} {line : Nat}
    (counts : resume.Counts text line) (more : Text) :
    resume.Counts (text ++ more) (line + more.lineBreaks) := by
  obtain ⟨front, back, rfl, place, rfl⟩ := counts
  exact ⟨front, back ++ more, append_assoc .., place,
    by rw [lineBreaks_append, Nat.add_assoc]⟩

theorem Resume.counts_here (text : Text) (line : Nat) :
    Resume.Counts ⟨text.byteLength, line⟩ text line :=
  ⟨text, [], (append_nil text).symm, rfl, rfl⟩

/-- The resume points up to a token and behind it.  The last one up to it, or the one before the
sections if there is none, counts to the line of the token. -/
theorem Piece.resumes_around {pieces : List Piece} {earlier later : List Section} {token : Token}
    (matched : List.Forall₂ From pieces (earlier ++ .outside token :: later)) {line : Nat}
    (lined : Section.Lined line (earlier ++ .outside token :: later)) (some : token.text ≠ [])
    {afterBlock : Bool} {before : Text} {last : Resume}
    (counts : afterBlock = false → last.Counts before line) :
    ∃ reached ahead, resumes afterBlock before.byteLength pieces = reached ++ ahead ∧
      (∀ resume ∈ reached, resume.offset ≤ (before ++ Section.kept earlier).byteLength) ∧
      (∀ resume ∈ ahead,
        (before ++ Section.kept earlier).byteLength + token.text.byteLength ≤ resume.offset) ∧
      (reached.getLastD last).Counts (before ++ Section.kept earlier)
        (line + (Section.source earlier).lineBreaks) := by
  induction earlier generalizing pieces line afterBlock before last with
  | nil =>
    cases matched with
    | @cons piece _ pieces _ from_ matched =>
      cases from_
      cases lined with
      | outside proper _ =>
        have notReset : token.kind ≠ .lineReset := by
          rcases proper with ⟨_, none⟩ | spelled
          · exact absurd none some
          · intro reset
            rw [reset] at spelled
            exact spelled
        have behind : ∀ resume ∈ resumes false (before.byteLength + token.text.byteLength) pieces,
            before.byteLength + token.text.byteLength ≤ resume.offset := fun resume member =>
          offset_le_of_mem_resumes member
        have nothing : before ++ Section.kept [] = before := append_nil before
        rw [nothing, resumes]
        cases afterBlock with
        | true =>
          rw [if_pos (by simpa using notReset)]
          refine ⟨[⟨before.byteLength, token.line⟩], _, rfl, ?_, behind, ?_⟩
          · simp
          · exact Resume.counts_here before token.line
        | false =>
          rw [if_neg (by simp)]
          exact ⟨[], _, rfl, by simp, behind, counts rfl⟩
  | cons first earlier ih =>
    cases matched with
    | @cons piece _ pieces _ from_ matched =>
      cases from_ with
      | copied other =>
        cases lined with
        | outside proper goesOn =>
          have keeps : before ++ Section.kept (.outside other :: earlier) =
              (before ++ other.text) ++ Section.kept earlier := (append_assoc ..).symm
          have leads : other.line + (Section.source (.outside other :: earlier)).lineBreaks =
              other.line + other.text.lineBreaks + (Section.source earlier).lineBreaks := by
            rw [Nat.add_assoc, ← lineBreaks_append]
            rfl
          rw [keeps, leads, resumes, ← byteLength_append]
          by_cases points : (afterBlock && decide (other.kind ≠ .lineReset)) = true
          · -- The token is a resume point itself.
            rw [if_pos points]
            obtain ⟨reached, ahead, split, upTo, behind, counts⟩ := @ih _ matched _ goesOn false
              (before ++ other.text) ⟨before.byteLength, other.line⟩ fun _ =>
                (Resume.counts_here before other.line).append other.text
            refine ⟨_ :: reached, ahead, congrArg _ split, ?_, behind, ?_⟩
            · refine forall_mem_cons.2 ⟨?_, upTo⟩
              simp
            · rw [getLastD_cons]
              exact counts
          · rw [if_neg points]
            refine ih matched goesOn fun notBehind => ?_
            exact (counts notBehind).append other.text
      | block tokens declaration origin =>
        cases lined with
        | block goesOn =>
          have leads : declaration.line + (Section.source
              (.block tokens { declaration with origin := origin } :: earlier)).lineBreaks =
              declaration.line + Text.lineBreaks (tokens.flatMap Token.text) +
                (Section.source earlier).lineBreaks := by
            rw [Nat.add_assoc, ← lineBreaks_append]
            rfl
          rw [leads]
          exact ih matched goesOn (fun notBehind => by cases notBehind)

theorem Document.residualLine_of_counts {document : Document} {text rest : Text} {line : Nat}
    (residual : document.residual = text ++ rest)
    (counts : ((document.resumes.takeWhile fun resume =>
      resume.offset ≤ text.byteLength).getLastD ⟨0, 1⟩).Counts text line) :
    document.residualLine text.byteLength = line := by
  obtain ⟨front, back, rfl, place, rfl⟩ := counts
  unfold residualLine
  dsimp only
  rw [residual, ← place, append_assoc, slice?_between]
  rfl

/-- Every byte of the residual text that starts a character has the line it has in the source. -/
theorem Document.residualLine_eq {file : String} {pieces : List Piece}
    {earlier later : List Section} {token : Token}
    (matched : List.Forall₂ Piece.From pieces (earlier ++ .outside token :: later))
    (lined : Section.Lined 1 (earlier ++ .outside token :: later)) {first rest : Text}
    (split : token.text = first ++ rest) (some : rest ≠ []) :
    (Document.ofPieces file pieces).residualLine (Section.kept earlier ++ first).byteLength =
      1 + (Section.source earlier ++ first).lineBreaks := by
  have inside : first.byteLength < token.text.byteLength := by
    obtain ⟨c, cs, rfl⟩ := exists_cons_of_ne_nil some
    have wide := Char.utf8Size_pos c
    rw [split, byteLength_append, Text.byteLength]
    omega
  have hasText : token.text ≠ [] := by
    rw [split]
    simp [some]
  obtain ⟨reached, ahead, resumes, upTo, behind, counts⟩ := @Piece.resumes_around pieces earlier later
    token matched 1 lined hasText false [] ⟨0, 1⟩ fun _ => Resume.counts_here [] 1
  have residual : pieces.flatMap Piece.text =
      (Section.kept earlier ++ first) ++ (rest ++ Section.kept later) := by
    rw [Piece.residual_of_from matched, flatMap_append, flatMap_cons]
    simp [Section.kept, Section.residual, split]
  have stops : (Piece.resumes false 0 pieces).takeWhile (fun resume =>
      resume.offset ≤ (Section.kept earlier ++ first).byteLength) = reached := by
    have place : (Section.kept earlier ++ first).byteLength =
        (Section.kept earlier).byteLength + first.byteLength := byteLength_append _ _
    rw [show Piece.resumes false 0 pieces = reached ++ ahead from resumes,
      takeWhile_append_of_pos]
    · cases ahead with
      | nil => simp
      | cons next ahead =>
        have := behind next mem_cons_self
        rw [nil_append] at this
        rw [takeWhile_cons_of_neg, append_nil]
        simpa using (by omega : (Section.kept earlier ++ first).byteLength < next.offset)
    · intro resume member
      have := upTo resume member
      rw [nil_append] at this
      simpa using (by omega : resume.offset ≤ (Section.kept earlier ++ first).byteLength)
  have leads := counts.append first
  rw [nil_append, Nat.add_assoc, ← lineBreaks_append] at leads
  exact @residualLine_of_counts (.ofPieces file pieces) _ _ _ residual (stops ▸ leads)

end FlatMemory
