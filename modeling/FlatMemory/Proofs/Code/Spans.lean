import FlatMemory.Proofs.Code.Forms

/-! # Where forms stand

A form starts at a marker of an allocation or at the name of a type.  The diagnostics of an expansion
are about the forms that the scanner comes by, in the order of the text and at whatever depth of
arguments.  Each carries the source line of the place where its form starts. -/

namespace FlatMemory

open List

namespace DottedName

def spelled (name : DottedName) : Text :=
  name.head.toList ++ name.segments.flatMap fun segment => '.' :: segment.toList

structure IsName (name : DottedName) : Prop where
  head : IsIdentifier name.head
  segments : ∀ segment ∈ name.segments, IsIdentifier segment

theorem readSegments_spelled (text : Text) :
    (readSegments text).2.taken = ((readSegments text).1.flatMap fun segment => '.' :: segment.toList) ∧
      ∀ segment ∈ (readSegments text).1, IsIdentifier segment := by
  fun_induction readSegments text with
  | case1 c cs start word _ later cut found ih =>
    rw [found] at ih
    obtain ⟨taken, identifiers⟩ := ih
    dsimp only at taken identifiers
    refine ⟨by simp [Cut.after, taken], forall_mem_cons.2 ⟨?_, identifiers⟩⟩
    exact ⟨c, word.taken, by simp, start, fun d member => mem_takeWhile_imp member⟩
  | case2 => exact ⟨rfl, by simp⟩
  | case3 => exact ⟨rfl, by simp⟩

theorem read_spelled {c : Char} (start : isIdentStart c = true) (cs : Text) :
    (read (c :: cs)).2.taken = (read (c :: cs)).1.spelled ∧ (read (c :: cs)).1.IsName := by
  have part := isIdentPart_of_isIdentStart start
  obtain ⟨taken, identifiers⟩ := readSegments_spelled (Cut.span isIdentPart (c :: cs)).rest
  refine ⟨by simp [read, spelled, Cut.after, taken], ⟨c, cs.takeWhile isIdentPart, ?_, start, ?_⟩,
    identifiers⟩
  · simp [read, Cut.span, part]
  · exact fun d member => mem_takeWhile_imp member

end DottedName

namespace Accessor

variable {session : Session} {scene : Scene} {before : Option Char} {c : Char} {cs : Text}
  {text : Text} {marker : Cut} {form : Form} {argument : Argument}

/-! ### Starts of forms -/

def StartsNew (text : Text) : Prop :=
  ∃ rest, text = "@new".toList ++ rest ∧ rest.head?.any isIdentPart = false

/-- The name of a type, a path behind it and an opening parenthesis. -/
def StartsAccess (session : Session) (text : Text) : Prop :=
  ∃ name rest, text = DottedName.spelled name ++ '(' :: rest ∧ name.IsName ∧ name.segments ≠ [] ∧
    (session.lookup name.head).isSome = true

theorem spelled_of_marker (marked : marker? text = some marker) : StartsNew text ∧
    ∃ blank, marker.taken = "@new".toList ++ blank ∧ ∀ c ∈ blank, isAsciiBlank c = true := by
  unfold marker? at marked
  split at marked
  · next rest =>
    split at marked
    · cases marked
    · next ends =>
      cases marked
      exact ⟨⟨rest, rfl, by simpa using ends⟩, _, rfl, fun c member => mem_takeWhile_imp member⟩
  · cases marked

def allocationFound (session : Session) (marker : Cut) : Found :=
  if marker.rest.head?.any isIdentStart then allocation session marker.taken marker.rest
  else ⟨.malformed .missingName, marker⟩

def Refuses (session : Session) (text : Text) (cause : AccessorWarning) : Prop :=
  StartsAccess session text ∧ (accessor session text).form = .refused cause

def Malforms (session : Session) (text : Text) (cause : AllocationCause) : Prop :=
  StartsNew text ∧ ∃ marker, marker? text = some marker ∧
    (allocationFound session marker).form = .malformed cause

def IsCall (found : Found) (call : Call) (start : Nat) (arguments : List Argument) : Prop :=
  ∃ front group, group? front.rest = some group ∧ start = front.taken.byteLength + 1 ∧
    arguments = splitArguments group.taken ∧ (∀ c ∈ front.taken, Lexeme.isInert c = true) ∧
    found = callFound (.call call start arguments) front group

def Found.StandsAt (session : Session) (text : Text) (found : Found) : Prop :=
  match found.form with
  | .copied => True
  | .refused cause => Refuses session text cause
  | .malformed cause => Malforms session text cause
  | .allocation _ => StartsNew text ∧ found.cut.rest.continuesName = false ∧ ∃ blank,
    (∀ c ∈ blank, isAsciiBlank c = true) ∧ ∃ type ∈ session.types,
      found.cut.taken = "@new".toList ++ (blank ++ type.name.toList)
  | .call call start arguments =>
    (StartsNew text ∨ StartsAccess session text) ∧ IsCall found call start arguments

theorem mem_of_lookup {name : String} {type : TypeRef} {user : UserType}
    (known : session.lookup name = some type) (isUser : session.user type = .ok user) :
    user ∈ session.types ∧ user.name = name := by
  refine ⟨Session.mem_of_user isUser, ?_⟩
  cases type with
  | primitive type => cases isUser
  | user index =>
    obtain ⟨other, found, named⟩ := Session.lookup_user known
    rw [Session.user, Session.userAt, found] at isUser
    cases isUser
    exact named

theorem standsAt_accessor (session : Session) (isName : isIdentStart c = true) (cs : Text) :
    (accessor session (c :: cs)).StandsAt session (c :: cs) := by
  obtain ⟨taken, named⟩ := DottedName.read_spelled isName cs
  have starts (known : (session.lookup (DottedName.read (c :: cs)).1.head).isSome = true)
      (qualified : (DottedName.read (c :: cs)).1.segments ≠ [])
      (opens : (DottedName.read (c :: cs)).2.rest.head? = some '(') :
      StartsAccess session (c :: cs) := by
    obtain ⟨rest, same⟩ := head?_eq_some_iff.1 opens
    refine ⟨_, rest, ?_, named, qualified, known⟩
    rw [← taken, ← same]
    exact (DottedName.whole_read (c :: cs)).symm
  have found := accesses session (c :: cs)
  generalize same : accessor session (c :: cs) = whole at found ⊢
  cases found with
  | copied => trivial
  | refused warning known qualified opens =>
    exact ⟨starts known qualified opens, congrArg Found.form same⟩
  | call known qualified _ _ grouped =>
    refine ⟨.inr (starts (Option.isSome_of_eq_some known) qualified ?_), _, _, grouped, rfl, rfl,
      DottedName.inert_read _, rfl⟩
    rw [← group?_whole grouped, head?_cons]

theorem standsAt_allocation (session : Session) (marked : marker? text = some marker)
    (isName : marker.rest.head?.any isIdentStart = true) :
    (allocation session marker.taken marker.rest).StandsAt session text := by
  obtain ⟨starts, blank, taken, isBlank⟩ := spelled_of_marker marked
  have found := allocates session marker.taken marker.rest
  generalize same : allocation session marker.taken marker.rest = whole at found ⊢
  cases found with
  | malformed cause => exact ⟨starts, marker, marked, by rw [allocationFound, if_pos isName, same]⟩
  | alone known bare isUser =>
    obtain ⟨isType, named⟩ := mem_of_lookup known isUser
    refine ⟨starts, DottedName.not_continuesName marker.rest, blank, isBlank, _, isType, ?_⟩
    obtain ⟨d, start⟩ := Option.any_eq_true _ _ |>.1 isName
    obtain ⟨ds, rest⟩ := head?_eq_some_iff.1 start.1
    obtain ⟨spelled, _⟩ := DottedName.read_spelled start.2 ds
    rw [← rest, DottedName.spelled, bare, flatMap_nil, append_nil, ← named] at spelled
    rw [Cut.after, taken, spelled, append_assoc]
  | array grouped single =>
    exact ⟨.inl starts, _, _, grouped, rfl, single.symm,
      forall_mem_append.2 ⟨inert_marker marked, DottedName.inert_read _⟩, rfl⟩

theorem standsAt_find (session : Session) (before : Option Char) (c : Char) (cs : Text) :
    (find session before c cs).StandsAt session (c :: cs) ∧
      ((find session before c cs).form ≠ .copied → startsWord before = true) := by
  have seen := sees session before c cs
  generalize find session before c cs = found at seen ⊢
  cases seen with
  | literal | char => exact ⟨trivial, fun formed => absurd rfl formed⟩
  | nameless starts marked noName =>
    refine ⟨⟨(spelled_of_marker marked).1, _, marked, ?_⟩, fun _ => starts⟩
    rw [allocationFound, if_neg noName]
  | allocation starts marked isName =>
    exact ⟨standsAt_allocation session marked isName, fun _ => starts⟩
  | accessor starts isName => exact ⟨standsAt_accessor session isName cs, fun _ => starts⟩

theorem standsAt_form (formed : (find session before c cs).form = form) :
    Found.StandsAt session (c :: cs) ⟨form, (find session before c cs).cut⟩ :=
  formed ▸ (standsAt_find session before c cs).1

/-! ### Places of arguments -/

variable {call : Call} {start : Nat} {arguments : List Argument}

/-- An argument is a slice of what a call takes, behind its name and the parenthesis. -/
theorem IsCall.slice {found : Found} (isCall : IsCall found call start arguments)
    (member : argument ∈ arguments) : ∃ early late : Text,
      found.cut.taken = early ++ (argument.text ++ late) ∧ early ≠ [] ∧
        early.byteLength = start + argument.offset := by
  obtain ⟨front, group, _, rfl, rfl, _, rfl⟩ := isCall
  unfold splitArguments at member
  split at member
  · cases member
  · obtain ⟨early, late, spelled, same⟩ := slice_of_withOffsets member
    rw [intercalate_commaPieces] at spelled
    refine ⟨front.taken ++ '(' :: early, late ++ [')'], ?_, by simp, ?_⟩
    · rw [callFound, spelled]
      simp
    · rw [Text.byteLength_append, ← same]
      simp only [Text.byteLength, show ('(').utf8Size = 1 from rfl]
      omega

def InOrder (arguments : List Argument) : Prop :=
  arguments.Pairwise fun early late => early.offset + early.text.byteLength ≤ late.offset

theorem inOrder_withOffsets (offset : Nat) (pieces : List Text) :
    InOrder (withOffsets offset pieces) ∧
      ∀ argument ∈ withOffsets offset pieces, offset ≤ argument.offset := by
  induction pieces generalizing offset with
  | nil => exact ⟨.nil, nofun⟩
  | cons piece pieces ih =>
    obtain ⟨inOrder, behind⟩ := ih (offset + piece.byteLength + 1)
    refine ⟨pairwise_cons.2 ⟨fun late member => ?_, inOrder⟩, forall_mem_cons.2 ⟨Nat.le_refl _, ?_⟩⟩
    · have := behind late member
      dsimp only
      omega
    · intro late member
      have := behind late member
      omega

theorem IsCall.inOrder {found : Found} (isCall : IsCall found call start arguments) :
    InOrder arguments := by
  obtain ⟨_, group, _, _, rfl, _, _⟩ := isCall
  unfold splitArguments
  split
  · exact .nil
  · exact (inOrder_withOffsets 0 _).1

/-! ### Places the scanner comes by -/

def Position.Slices (position : Position) (whole : Text) : Prop :=
  ∃ front back, whole = front ++ (position.text ++ back) ∧ front.byteLength = position.offset

theorem Step.slices {position next : Position} {whole : Text} (step : Step session position next)
    (slices : position.Slices whole) : next.Slices whole := by
  obtain ⟨front, back, rfl, same⟩ := slices
  cases step with
  | onward before _ c cs =>
    have fits : _ ++ _ = c :: cs := (fits_find session before c cs).whole
    refine ⟨front ++ (find session before c cs).cut.taken, back, ?_, ?_⟩
    · dsimp only
      rw [← fits]
      simp only [append_assoc]
    · rw [Text.byteLength_append, same]
  | @inward before c cs _ _ _ _ _ formed member =>
    obtain ⟨early, late, taken, _, offset⟩ := (standsAt_form formed).2.slice member
    have fits : _ ++ _ = c :: cs := (fits_find session before c cs).whole
    refine ⟨front ++ early, late ++ ((find session before c cs).cut.rest ++ back), ?_, ?_⟩
    · dsimp only at taken ⊢
      rw [← fits, taken]
      simp only [append_assoc]
    · rw [Text.byteLength_append, same, offset, Nat.add_assoc]

theorem Visits.slices {position later : Position} {whole : Text}
    (visits : Visits session position later) (slices : position.Slices whole) :
    later.Slices whole := by
  induction visits with
  | refl => exact slices
  | tail _ step ih => exact step.slices ih

theorem Visits.offset_le {position later : Position} (visits : Visits session position later) :
    position.offset ≤ later.offset := by
  induction visits with
  | refl => exact Nat.le_refl _
  | tail _ step ih =>
    refine ih.trans ?_
    cases step with
    | onward => exact Nat.le_add_right _ _
    | inward => exact (Nat.le_add_right _ _).trans (Nat.le_add_right _ _)

def Scene.outset (scene : Scene) : Position := ⟨none, 0, scene.pasted.text⟩

def Scene.Shows (scene : Scene) (position : Position) (form : Form) : Prop :=
  Visits scene.session scene.outset position ∧ ∃ c cs, position.text = c :: cs ∧
    (find scene.session position.before c cs).form = form

def Scene.fault (scene : Scene) (offset : Nat) (cause : AllocationCause) : Failure :=
  .fault (.allocation cause) scene.file (scene.lineAt offset)

/-! ### Diagnostics -/

/-- All that is reported is about forms in a range of the text, in their order and on the lines that
they start on. -/
structure Located {α : Type} (scene : Scene) (low high : Nat)
    (refusals : List (Position × AccessorWarning)) (run : Warned α) : Prop where
  warnings : run.warnings = refusals.map fun place => scene.warning place.1.offset place.2
  shown : ∀ place ∈ refusals, scene.Shows place.1 (.refused place.2)
  range : ∀ place ∈ refusals, low ≤ place.1.offset ∧ place.1.offset < high
  ordered : refusals.Pairwise fun early late => early.1.offset < late.1.offset
  failure : ∀ failure, run.result = .error failure → ∃ cause position,
    scene.Shows position (.malformed cause) ∧ failure = scene.fault position.offset cause ∧
      (low ≤ position.offset ∧ position.offset < high) ∧
      ∀ place ∈ refusals, place.1.offset < position.offset

namespace Located

variable {α β : Type} {low high : Nat} {run : Warned α}
  {refusals : List (Position × AccessorWarning)}

theorem pure (answer : α) : Located scene low high [] (Pure.pure answer) where
  warnings := rfl
  shown := nofun
  range := nofun
  ordered := .nil
  failure := nofun

theorem mono (located : Located scene low high refusals run) {lower higher : Nat}
    (below : lower ≤ low) (above : high ≤ higher) : Located scene lower higher refusals run where
  warnings := located.warnings
  shown := located.shown
  range := fun place member => ⟨below.trans (located.range place member).1,
    (located.range place member).2.trans_le above⟩
  ordered := located.ordered
  failure := by
    intro failure failed
    obtain ⟨cause, position, shown, same, ⟨atLeast, lessThan⟩, behind⟩ := located.failure failure failed
    exact ⟨cause, position, shown, same, ⟨below.trans atLeast, lessThan.trans_le above⟩, behind⟩

/-- What is done next is about what lies behind. -/
theorem bind {middle : Nat} (located : Located scene low middle refusals run) {next : α → Warned β}
    (onward : ∀ answer, run.result = .ok answer →
      ∃ more, Located scene middle high more (next answer))
    (after : low ≤ middle) (before : middle ≤ high) :
    ∃ more, Located scene low high more (run >>= next) := by
  obtain ⟨warnings, result⟩ := run
  cases result with
  | error failure =>
    obtain ⟨warned, shown, range, ordered, failing⟩ := located.mono (Nat.le_refl _) before
    exact ⟨refusals, warned, shown, range, ordered, fun _ failed => failing _ (by cases failed; rfl)⟩
  | ok answer =>
    obtain ⟨more, later⟩ := onward answer rfl
    refine ⟨refusals ++ more, ?_, ?_, ?_, ?_, ?_⟩
    · rw [map_append, ← located.warnings, ← later.warnings]
      rfl
    · exact forall_mem_append.2 ⟨located.shown, later.shown⟩
    · exact forall_mem_append.2 ⟨(located.mono (Nat.le_refl _) before).range,
        (later.mono after (Nat.le_refl _)).range⟩
    · refine pairwise_append.2 ⟨located.ordered, later.ordered, fun early isEarly late isLate => ?_⟩
      exact (located.range early isEarly).2.trans_le (later.range late isLate).1
    · intro failure failed
      obtain ⟨cause, position, shown, same, ⟨atLeast, lessThan⟩, behind⟩ := later.failure failure failed
      refine ⟨cause, position, shown, same, ⟨after.trans atLeast, lessThan⟩, ?_⟩
      exact forall_mem_append.2 ⟨fun place member =>
        (located.range place member).2.trans_le atLeast, behind⟩

end Located

/-- A run reports the form at a position, or fails at one in front of it. -/
def Handles {α : Type} (scene : Scene) (position : Position) (run : Warned α) : Prop :=
  (∃ cause earlier, scene.Shows earlier (.malformed cause) ∧ earlier.offset < position.offset ∧
    run.result = .error (scene.fault earlier.offset cause)) ∨
  ((∀ cause, scene.Shows position (.refused cause) →
      scene.warning position.offset cause ∈ run.warnings) ∧
    ∀ cause, scene.Shows position (.malformed cause) →
      run.result = .error (scene.fault position.offset cause))

namespace Handles

variable {α β : Type} {position : Position} {run : Warned α} {next : α → Warned β}

theorem bind (handles : Handles scene position run) : Handles scene position (run >>= next) := by
  obtain ⟨warnings, result⟩ := run
  rcases handles with ⟨cause, earlier, shown, front, failed⟩ | ⟨refused, malformed⟩
  · cases failed
    exact .inl ⟨cause, earlier, shown, front, rfl⟩
  · refine .inr ⟨fun cause shown => ?_, fun cause shown => ?_⟩
    · cases result with
      | error failure => exact refused cause shown
      | ok answer => exact mem_append_left _ (refused cause shown)
    · cases malformed cause shown
      rfl

/-- What is done first is about what lies in front. -/
theorem after {low high : Nat} {refusals : List (Position × AccessorWarning)}
    (located : Located scene low high refusals run) (front : high ≤ position.offset)
    (onward : ∀ answer, run.result = .ok answer → Handles scene position (next answer)) :
    Handles scene position (run >>= next) := by
  obtain ⟨warnings, result⟩ := run
  cases result with
  | error failure =>
    obtain ⟨cause, earlier, shown, rfl, ⟨_, before⟩, _⟩ := located.failure failure rfl
    exact .inl ⟨cause, earlier, shown, before.trans_le front, rfl⟩
  | ok answer =>
    rcases onward answer rfl with failing | ⟨refused, malformed⟩
    · exact .inl failing
    · exact .inr ⟨fun cause shown => mem_append_right _ (refused cause shown), malformed⟩

end Handles

section Arguments

variable {low high : Nat} (inOrder : InOrder arguments)
  (inner : ∀ argument ∈ arguments, ∃ refusals, Located scene (start + argument.offset)
    (start + argument.offset + argument.text.byteLength) refusals
    (expand scene none (start + argument.offset) argument.text))

include inOrder inner

theorem located_argumentTexts (inside : ∀ argument ∈ arguments, low ≤ start + argument.offset ∧
      start + argument.offset + argument.text.byteLength ≤ high) (order : low ≤ high) :
    ∃ refusals, Located scene low high refusals (argumentTexts scene start arguments) := by
  induction arguments generalizing low with
  | nil => exact ⟨[], .pure []⟩
  | cons argument arguments ih =>
    obtain ⟨first, later⟩ := pairwise_cons.1 inOrder
    obtain ⟨below, above⟩ := inside argument mem_cons_self
    obtain ⟨refusals, here⟩ := inner argument mem_cons_self
    rw [argumentTexts, mapM_cons]
    refine (here.mono below (Nat.le_refl _)).bind (fun _ _ => ?_) (by omega) above
    obtain ⟨more, located⟩ := ih later (fun other member => inner other (mem_cons_of_mem _ member))
      (fun other member => ⟨by have := first other member; omega,
        (inside other (mem_cons_of_mem _ member)).2⟩) above
    exact located.bind (fun _ _ => ⟨[], .pure _⟩) above (Nat.le_refl _)

theorem handles_argumentTexts {position : Position} (member : argument ∈ arguments)
    (handles : Handles scene position (expand scene none (start + argument.offset) argument.text))
    (behind : start + argument.offset ≤ position.offset) :
    Handles scene position (argumentTexts scene start arguments) := by
  induction arguments with
  | nil => cases member
  | cons head arguments ih =>
    obtain ⟨first, later⟩ := pairwise_cons.1 inOrder
    rw [argumentTexts, mapM_cons]
    rcases mem_cons.1 member with rfl | member
    · exact handles.bind
    · obtain ⟨refusals, located⟩ := inner head mem_cons_self
      have ends := first argument member
      refine .after located (by omega) fun _ _ => Handles.bind ?_
      exact ih later (fun other isOther => inner other (mem_cons_of_mem _ isOther)) member

end Arguments

section Found

variable {offset : Nat} (visited : Visits scene.session scene.outset ⟨before, offset, c :: cs⟩)
  (inner : ∀ call start arguments, (find scene.session before c cs).form = .call call start arguments →
    ∀ argument ∈ arguments, ∃ refusals, Located scene (offset + start + argument.offset)
      (offset + start + argument.offset + argument.text.byteLength) refusals
      (expand scene none (offset + start + argument.offset) argument.text))

include inner

theorem located_arguments
    (formed : (find scene.session before c cs).form = .call call start arguments) :
    ∃ refusals, Located scene (offset + 1)
      (offset + (find scene.session before c cs).cut.taken.byteLength) refusals
      (argumentTexts scene (offset + start) arguments) := by
  have isCall := (standsAt_form formed).2
  refine located_argumentTexts isCall.inOrder (inner call start arguments formed) ?_ ?_
  · intro argument member
    obtain ⟨early, late, taken, some, same⟩ := isCall.slice member
    have longer := Text.byteLength_pos some
    have whole := congrArg Text.byteLength taken
    simp only [Text.byteLength_append] at whole
    omega
  · have longer := Text.byteLength_pos (fits_find scene.session before c cs).taken
    omega

include visited

theorem located_replacement :
    ∃ refusals, Located scene offset
      (offset + (find scene.session before c cs).cut.taken.byteLength) refusals
      (replacement scene offset (find scene.session before c cs)) := by
  have some := Text.byteLength_pos (fits_find scene.session before c cs).taken
  unfold replacement
  split
  · exact ⟨[], .pure _⟩
  · next warning formed =>
    refine ⟨[(⟨before, offset, c :: cs⟩, warning)], rfl, ?_, ?_, pairwise_singleton _ _, nofun⟩
    · exact forall_mem_singleton.2 ⟨visited, c, cs, rfl, formed⟩
    · exact forall_mem_singleton.2 ⟨Nat.le_refl _, Nat.lt_add_of_pos_right some⟩
  · next cause formed =>
    refine ⟨[], rfl, nofun, nofun, .nil, fun failure failed => ?_⟩
    cases failed
    exact ⟨cause, _, ⟨visited, c, cs, rfl, formed⟩, rfl,
      ⟨Nat.le_refl _, Nat.lt_add_of_pos_right some⟩, nofun⟩
  · exact ⟨[], .pure _⟩
  · next call start arguments formed =>
    obtain ⟨refusals, located⟩ := located_arguments inner formed
    refine (located.mono (Nat.le_succ _) (Nat.le_refl _)).bind (fun expanded passed => ?_)
      (Nat.le_add_right _ _) (Nat.le_refl _)
    have takes := find_takes formed
    rw [(Warned.forall₂_of_mapM_result passed).length_eq] at takes
    obtain ⟨text, emitted⟩ := Call.emit_ok takes
    rw [emitted]
    exact ⟨[], .pure text⟩

end Found

/-- The run of the scanner from a position that it comes by. -/
theorem located_expand (position : Position)
    (visited : Visits scene.session scene.outset position) :
    ∃ refusals, Located scene position.offset (position.offset + position.text.byteLength) refusals
      (expand scene position.before position.offset position.text) := by
  obtain ⟨before, offset, text⟩ := position
  induction size : text.length using Nat.strongRecOn generalizing before offset text with
  | ind size ih =>
    subst size
    cases text with
    | nil =>
      rw [expand]
      exact ⟨[], .pure []⟩
    | cons c cs =>
      have fits := fits_find scene.session before c cs
      have shorter := Cut.rest_length_lt fits.whole fits.taken
      obtain ⟨refusals, replaced⟩ := located_replacement visited
        fun call start arguments formed argument member =>
          ih _ (fits.arguments call start arguments formed argument member) none _ argument.text
            (visited.tail (.inward offset formed member)) rfl
      obtain ⟨more, onward⟩ := ih _ shorter _ _ _ (visited.tail (.onward before offset c cs)) rfl
      have lengths := congrArg Text.byteLength fits.whole
      rw [Cut.whole, Text.byteLength_append] at lengths
      dsimp only at onward ⊢
      rw [expand_cons]
      rw [← lengths, ← Nat.add_assoc]
      refine replaced.bind (fun _ _ => ?_) (Nat.le_add_right _ _) (Nat.le_add_right _ _)
      exact onward.bind (fun _ _ => ⟨[], .pure _⟩) (Nat.le_add_right _ _) (Nat.le_refl _)

theorem handles_expand (position : Position) :
    Handles scene position (expand scene position.before position.offset position.text) := by
  obtain ⟨before, offset, text⟩ := position
  cases text with
  | nil =>
    refine .inr ⟨fun cause shown => ?_, fun cause shown => ?_⟩ <;>
      obtain ⟨_, c, cs, spelled, _⟩ := shown <;> cases spelled
  | cons c cs =>
    dsimp only
    rw [expand_cons]
    refine Handles.bind (.inr ⟨fun cause shown => ?_, fun cause shown => ?_⟩) <;>
      obtain ⟨_, _, _, spelled, formed⟩ := shown <;> cases spelled <;> rw [replacement, formed]
    · exact mem_singleton_self _
    · rfl

/-- What a step leads to is reported from where the step starts. -/
theorem Step.handles {position next later : Position} (step : Step scene.session position next)
    (visited : Visits scene.session scene.outset position) (behind : next.offset ≤ later.offset)
    (handles : Handles scene later (expand scene next.before next.offset next.text)) :
    Handles scene later (expand scene position.before position.offset position.text) := by
  have inner {before : Option Char} {offset : Nat} {c : Char} {cs : Text}
      (visited : Visits scene.session scene.outset ⟨before, offset, c :: cs⟩) (call : Call)
      (start : Nat) (arguments : List Argument)
      (formed : (find scene.session before c cs).form = .call call start arguments)
      (argument : Argument) (member : argument ∈ arguments) :=
    located_expand _ (visited.tail (.inward offset formed member))
  cases step with
  | onward before offset c cs =>
    obtain ⟨refusals, located⟩ := located_replacement visited (inner visited)
    dsimp only
    rw [expand_cons]
    exact .after located behind fun _ _ => handles.bind
  | inward offset formed member =>
    dsimp only
    rw [expand_cons]
    refine Handles.bind ?_
    rw [replacement, formed]
    exact (handles_argumentTexts (standsAt_form formed).2.inOrder (inner visited _ _ _ formed) member
      handles behind).bind

theorem Visits.handles {position later : Position} (visits : Visits scene.session position later)
    (visited : Visits scene.session scene.outset position) :
    Handles scene later (expand scene position.before position.offset position.text) := by
  induction visits using Relation.ReflTransGen.head_induction_on with
  | refl => exact handles_expand later
  | head step onward ih => exact step.handles visited (Visits.offset_le onward) (ih (visited.tail step))

/-- The scanner comes by a place where a word may start. -/
structure ComesBy (session : Session) (whole : Text) (position : Position) : Prop where
  visited : Visits session ⟨none, 0, whole⟩ position
  slices : position.Slices whole
  word : startsWord position.before = true

theorem Scene.Shows.comesBy {position : Position} (shown : scene.Shows position form)
    (formed : form ≠ .copied) : ComesBy scene.session scene.pasted.text position := by
  obtain ⟨visited, c, cs, _, rfl⟩ := shown
  exact ⟨visited, visited.slices ⟨[], [], by simp [Scene.outset], rfl⟩,
    (standsAt_find _ _ c cs).2 formed⟩

theorem Scene.Shows.stands {position : Position} (shown : scene.Shows position form) :
    ∃ cut, Found.StandsAt scene.session position.text ⟨form, cut⟩ := by
  obtain ⟨_, c, cs, spelled, formed⟩ := shown
  exact ⟨_, spelled ▸ standsAt_form formed⟩

theorem shows_refused_iff {position : Position} {cause : AccessorWarning} :
    scene.Shows position (.refused cause) ↔ ComesBy scene.session scene.pasted.text position ∧
      Refuses scene.session position.text cause := by
  constructor
  · intro shown
    obtain ⟨_, stands⟩ := shown.stands
    exact ⟨shown.comesBy nofun, stands⟩
  · rintro ⟨⟨visited, _, word⟩, ⟨name, rest, spelled, named, _⟩, refused⟩
    obtain ⟨c, cs, isHead, isName, _⟩ := named.head
    have text : position.text = c :: (cs ++ ((name.segments.flatMap fun segment =>
        '.' :: segment.toList) ++ '(' :: rest)) := by
      rw [spelled, DottedName.spelled, isHead]
      simp
    refine ⟨visited, c, _, text, ?_⟩
    rw [text] at refused
    generalize cs ++ _ = cs at refused
    have seen := sees scene.session position.before c cs
    generalize find scene.session position.before c cs = found at seen ⊢
    cases seen with
    | literal found =>
      rw [Literal.first?_of_isPlain (Walk.isPlain_of_class isName (by decide)).1] at found
      cases found
    | char _ alone => rw [(alone word).1] at isName; cases isName
    | nameless _ marked | allocation _ marked =>
      obtain ⟨⟨_, same, _⟩, _⟩ := spelled_of_marker marked
      obtain ⟨rfl, _⟩ := List.cons.inj same
      cases isName
    | accessor => exact refused

theorem shows_malformed_iff {position : Position} {cause : AllocationCause} :
    scene.Shows position (.malformed cause) ↔ ComesBy scene.session scene.pasted.text position ∧
      Malforms scene.session position.text cause := by
  constructor
  · intro shown
    obtain ⟨_, stands⟩ := shown.stands
    exact ⟨shown.comesBy nofun, stands⟩
  · rintro ⟨⟨visited, _, word⟩, ⟨rest, spelled, _⟩, marker, marked, malformed⟩
    have text : position.text = '@' :: (['n', 'e', 'w'] ++ rest) := spelled
    refine ⟨visited, '@', _, text, ?_⟩
    rw [text] at marked
    generalize ['n', 'e', 'w'] ++ rest = cs at marked
    have seen := sees scene.session position.before '@' cs
    generalize find scene.session position.before '@' cs = found at seen ⊢
    unfold allocationFound at malformed
    cases seen with
    | literal found =>
      rw [Literal.first?_of_isPlain (by decide)] at found
      cases found
    | char _ alone => rw [(alone word).2] at marked; cases marked
    | nameless _ isMarker noName =>
      cases marked.symm.trans isMarker
      rwa [if_neg noName] at malformed
    | allocation _ isMarker isName =>
      cases marked.symm.trans isMarker
      rwa [if_pos isName] at malformed
    | accessor _ isName => exact absurd isName (by decide)

end Accessor

open Accessor

/-- The diagnostics of an expansion are about the places that the scanner comes by, in their order: a
warning is about an accessor that is refused and carries the line of its type name, an error is about
the first allocation that is malformed and carries the line of its marker.  Nothing else that is
refused in front of that stays unreported. -/
theorem diagnostics_located (session : Session) (file : String) (pasted : Pasted) :
    ∃ refusals : List (Position × AccessorWarning),
      (session.expandAccessors file pasted).warnings = refusals.map (fun place =>
        ⟨place.2.code, .warning, place.2.message, file,
          pasted.lines.lineAt pasted.text place.1.offset, none⟩) ∧
      refusals.Pairwise (fun early late => early.1.offset < late.1.offset) ∧
      (∀ place ∈ refusals, ComesBy session pasted.text place.1 ∧
        Refuses session place.1.text place.2) ∧
      (∀ failure, (session.expandAccessors file pasted).result = .error failure →
        ∃ cause position, ComesBy session pasted.text position ∧
          Malforms session position.text cause ∧
          failure = .fault (.allocation cause) file
            (pasted.lines.lineAt pasted.text position.offset) ∧
          ∀ place ∈ refusals, place.1.offset < position.offset) ∧
      ∀ position, ComesBy session pasted.text position →
        (∃ cause earlier, ComesBy session pasted.text earlier ∧ Malforms session earlier.text cause ∧
          earlier.offset < position.offset ∧
          (session.expandAccessors file pasted).result = .error (.fault (.allocation cause) file
            (pasted.lines.lineAt pasted.text earlier.offset))) ∨
        ((∀ cause, Refuses session position.text cause →
            ⟨cause.code, .warning, cause.message, file,
              pasted.lines.lineAt pasted.text position.offset, none⟩ ∈
                (session.expandAccessors file pasted).warnings) ∧
          ∀ cause, Malforms session position.text cause →
            (session.expandAccessors file pasted).result = .error (.fault (.allocation cause) file
              (pasted.lines.lineAt pasted.text position.offset))) := by
  let scene : Scene := ⟨session, file, pasted⟩
  obtain ⟨refusals, located⟩ := @located_expand scene scene.outset .refl
  refine ⟨refusals, located.warnings, located.ordered, fun place member =>
    shows_refused_iff.1 (located.shown place member), fun failure failed => ?_, ?_⟩
  · obtain ⟨cause, position, shown, same, _, behind⟩ := located.failure failure failed
    obtain ⟨comesBy, malforms⟩ := shows_malformed_iff.1 shown
    exact ⟨cause, position, comesBy, malforms, same, behind⟩
  · intro position comesBy
    have handles : Handles scene position (session.expandAccessors file pasted) :=
      Visits.handles comesBy.visited .refl
    rcases handles with ⟨cause, earlier, shown, front, failed⟩ | ⟨refused, malformed⟩
    · obtain ⟨passed, malforms⟩ := shows_malformed_iff.1 shown
      exact .inl ⟨cause, earlier, passed, malforms, front, failed⟩
    · exact .inr ⟨fun cause refuses => refused cause (shows_refused_iff.2 ⟨comesBy, refuses⟩),
        fun cause malforms => malformed cause (shows_malformed_iff.2 ⟨comesBy, malforms⟩)⟩

/-- An accessor that is refused and an allocation that is malformed, in arguments on other lines. -/
def sampleNested : Pasted :=
  ⟨"int32.Array(\nint32.Array(p),\nf(@new int32))".toList, ⟨[⟨0, 7, .fixed⟩, ⟨12, 20, .source⟩]⟩⟩

theorem diagnostics_located_sample : ∃ warning failure cause position,
    (Session.empty.expandAccessors "sample" sampleNested).warnings = [warning] ∧
    warning.line = 21 ∧ warning.message = "\x60int32.Array\x60 takes 2 argument(s), found 1" ∧
    (Session.empty.expandAccessors "sample" sampleNested).result = .error failure ∧
    failure = .fault (.allocation (.primitive "int32")) "sample" 22 ∧
    ComesBy Session.empty sampleNested.text position ∧
    Refuses Session.empty position.text cause ∧
    sampleNested.lines.lineAt sampleNested.text position.offset = 21 := by
  have run : (Session.empty.expandAccessors "sample" sampleNested).warnings =
        [⟨.accessorArguments, .warning, "\x60int32.Array\x60 takes 2 argument(s), found 1", "sample",
          21, none⟩] ∧
      (Session.empty.expandAccessors "sample" sampleNested).result =
        .error (.fault (.allocation (.primitive "int32")) "sample" 22) := by
    decide +kernel
  obtain ⟨warnings, failed⟩ := run
  obtain ⟨refusals, listed, _, places, _⟩ :=
    diagnostics_located Session.empty "sample" sampleNested
  rw [warnings] at listed
  obtain ⟨place, rfl, same⟩ := List.map_eq_singleton_iff.1 listed.symm
  obtain ⟨comesBy, refuses⟩ := places place (List.mem_singleton_self _)
  exact ⟨_, _, place.2, place.1, warnings, rfl, rfl, failed, rfl, comesBy, refuses,
    congrArg Diagnostic.line same⟩

end FlatMemory
