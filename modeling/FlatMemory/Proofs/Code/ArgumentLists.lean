import FlatMemory.Proofs.Code.Literals

/-! # Arguments of emitted calls

An access that is emitted as a call passes the view if there is one, the address, and one argument for
each operand.  The address may lose the parentheses around it; if those were written in the source and
hold several arguments, or none, the call passes these in its place. -/

namespace FlatMemory

open List Text Literal Emit Accessor

variable {text first rest : Text} {others : List Text}

/-! ### Lists of arguments -/

/-- Text by itself that closes the brackets open in front of it. -/
def Closes (opened : List Char) (text : Text) : Prop :=
  ∃ marks ending, Walk [] text marks ending ∧ nest opened marks = some []

theorem nest_cons {marks more : Text} (same : ∀ nesting, nest nesting marks = nest nesting more)
    (c : Char) (nesting : List Char) : nest nesting (c :: marks) = nest nesting (c :: more) := by
  rw [nest, nest, same, same, funext fun outer => same outer]

/-- A walk goes past the parts of a text, whose brackets are among its marks. -/
theorem Walk.parts {front marks : Text} {ending : Ending} (walk : Walk rest front marks ending) :
    ∃ early, Text.parts (front ++ rest) = early ++ rest.parts ∧
      ∀ nesting, nest nesting (early.filterMap Part.code?) = nest nesting marks := by
  induction walk with
  | done => exact ⟨[], rfl, fun _ => rfl⟩
  | @literal literal _ _ _ closed _ ih =>
    obtain ⟨early, same, nests⟩ := ih
    refine ⟨.literal literal :: early, ?_, nests⟩
    rw [append_assoc, parts_literal (closed.first _), same]
    rfl
  | @comment comment front _ _ inLine _ ih =>
    obtain ⟨early, same, nests⟩ := ih
    refine ⟨.literal ('/' :: '/' :: comment) :: early, ?_, nests⟩
    rw [cons_append, cons_append, append_assoc, cons_append, parts_literal (first?_comment inLine _),
      ← cons_append, same]
    rfl
  | @char c front marks _ plain _ ih =>
    obtain ⟨early, same, nests⟩ := ih
    refine ⟨.code c :: early, by rw [cons_append, parts_cons plain, same]; rfl, fun nesting => ?_⟩
    refine (nest_cons nests c nesting).trans ?_
    split
    · rfl
    · next unmarked =>
      simp only [isMark, Bool.or_eq_true, not_or] at unmarked
      rw [nest, if_neg unmarked.1.1, if_neg unmarked.1.2]

def Item (text : Text) : Prop := ∃ found, CarriesList none found text 1 1

theorem Emit.Fit.item (fit : Fit none text) : Item text.trim := ⟨_, fit.trim.list⟩

/-- Without a session any text that a slash may stand in front of may follow. -/
theorem detached_none (harmless : Harmless rest) : Detached none rest :=
  ⟨(fun heeded => by cases heeded), harmless⟩

/-- Behind the last slash of text that is passed no comment starts. -/
theorem Accessor.Runs.parts {parts : List Part} (runs : Runs none (Detached none) text parts)
    (harmless : Harmless rest) :
    Text.parts (text ++ rest) = parts ++ rest.parts ∧ parts.flatMap Part.text = text :=
  have passes := runs none rest rfl (detached_none harmless)
  ⟨passes.parts_append, passes.spelled⟩

def argumentList (items : List Text) : Text := ", ".toList.intercalate items

def spaced : List Text → List Text
  | [] => []
  | first :: others => first :: others.map (' ' :: ·)

theorem argumentList_singleton (text : Text) : argumentList [text] = text := intercalate_singleton ..

theorem argumentList_cons (first second : Text) (others : List Text) :
    argumentList (first :: second :: others) = first ++ ',' :: ' ' :: argumentList (second :: others) := by
  rw [argumentList, intercalate_cons_cons, append_assoc]
  rfl

namespace Item

theorem exists_parts (item : Item text) :
    ∃ parts, Flush parts ∧ isSolid parts = true ∧ Runs none (Detached none) text parts := by
  obtain ⟨_, parts, others, flush, total, given, _, runs⟩ := item
  obtain rfl := length_eq_zero_iff.1 (Nat.succ.inj total)
  rw [parted, flatMap_nil, append_nil] at runs
  exact ⟨parts, flush parts mem_cons_self, by simpa [countP_cons] using given, runs⟩

theorem solid (item : Item text) : text.isBlank = false := by
  obtain ⟨parts, _, solid, runs⟩ := item.exists_parts
  have isParts := (runs.parts harmless_nil).1
  rw [append_nil, Text.parts_nil, append_nil] at isParts
  rw [← isParts, isSolid_parts] at solid
  simpa using solid

theorem commaPieces_append (item : Item text) (harmless : Harmless rest) :
    commaPieces 0 (text ++ rest) = joinFirst text (commaPieces 0 rest) := by
  obtain ⟨parts, flush, _, runs⟩ := item.exists_parts
  obtain ⟨isParts, spelled⟩ := runs.parts harmless
  have joined := (Tally.scan_passAll isParts (flush Tally.start)).2 rfl
  rwa [spelled] at joined

end Item

theorem exists_carriesList (items : ∀ text ∈ others, Item text) {found : List Text} {total given : Nat}
    (carries : CarriesList none found text total given) :
    ∃ found total given, CarriesList none found (text ++ listed others) total given := by
  induction others generalizing text found total given with
  | nil =>
    rw [listed, flatMap_nil, append_nil]
    exact ⟨_, _, _, carries⟩
  | cons other others ih =>
    obtain ⟨item, items⟩ := forall_mem_cons.1 items
    obtain ⟨parts, flush, solid, runs⟩ := item.exists_parts
    have further := ih items (carries.concat_flush flush solid rfl runs)
    rwa [append_assoc, append_assoc] at further

section

variable (items : ∀ text ∈ first :: others, Item text)

include items

theorem commaPieces_argumentList :
    commaPieces 0 (argumentList (first :: others)) = spaced (first :: others) := by
  induction others generalizing first with
  | nil =>
    have pieces := (items first mem_cons_self).commaPieces_append harmless_nil
    rw [append_nil, commaPieces_nil, joinFirst, append_nil] at pieces
    rw [argumentList_singleton, pieces]
    rfl
  | cons second others ih =>
    obtain ⟨isFirst, areOthers⟩ := forall_mem_cons.1 items
    rw [argumentList_cons, isFirst.commaPieces_append ⟨by simp, by simp⟩,
      commaPieces_cons (Literal.first?_of_isPlain (by decide) _), if_neg (by decide), if_neg (by decide),
      if_pos ⟨rfl, rfl⟩, commaPieces_cons (Literal.first?_of_isPlain (by decide) _), if_neg (by decide),
      if_neg (by decide), if_neg (by simp), ih areOthers]
    simp [joinFirst, spaced]

theorem splitArguments_argumentList :
    (splitArguments (argumentList (first :: others))).map Argument.text = spaced (first :: others) := by
  have solid : (argumentList (first :: others)).isBlank = false := by
    have solid := (items first mem_cons_self).solid
    cases others with
    | nil => rwa [argumentList_singleton]
    | cons second others =>
      rw [argumentList_cons]
      simp_all [Text.isBlank]
  rw [splitArguments, if_neg (by simp [solid]), texts_withOffsets, commaPieces_argumentList items]

/-- A list of arguments in parentheses is a group. -/
theorem group?_argumentList (rest : Text) :
    group? ('(' :: (argumentList (first :: others) ++ ')' :: rest)) =
      some ⟨argumentList (first :: others), rest⟩ := by
  obtain ⟨⟨_, isFirst⟩, areOthers⟩ := forall_mem_cons.1 items
  obtain ⟨_, _, _, lead, pieces, flush, _, _, _, runs⟩ := exists_carriesList areOthers isFirst
  rw [← intercalate_listed] at runs
  obtain ⟨isParts, _⟩ := @Runs.parts _ (')' :: rest) _ runs ⟨by simp, by simp⟩
  obtain ⟨next, passed, nested⟩ := @Tally.passAll_parted Tally.start rfl _ _ flush
  exact group?_of_passAll isParts passed nested

end

/-- The function that an access is emitted as a call of, and the view that it takes. -/
def Access.callee? (access : Access) : Option (Text × Option Scalar) :=
  if access.operation = .ref then none
  else match access.target with
    | .primitive (.simd type) =>
      let method := if access.operation = .get then "load" else "store"
      some (("SIMD." ++ type.constructor ++ "." ++ method).toList, some type.lane)
    | .primitive (.atomic type) =>
      some (("Atomics." ++ access.operation.runtimeName).toList, some (.int type))
    | .primitive (.synchronic type) =>
      some (("FlatJS.sync" ++ access.operation.capitalName).toList, some (.int type))
    | .structure type =>
      let method := if access.operation = .get then "._get_impl" else "._set_impl"
      some (type.name.toList ++ method.toList, none)
    | _ => none

namespace Emit

variable {base index address place : Text} {found arguments : List Text} {view : Option Scalar}

/-! ### Addresses as arguments -/

structure Peels (address : Text) : Prop where
  item : Item (unwrapped address)
  peels : address = unwrapped address ∨ address = '(' :: (unwrapped address ++ [')'])

theorem peels_enclosed (item : Item text) (isAddress : address = '(' :: (text ++ [')'])) :
    Peels address := by
  have grouped := @group?_argumentList text [] (by simpa using item) []
  rw [argumentList_singleton, ← isAddress] at grouped
  have inside : unwrapped address = text := by rw [unwrapped, grouped]; rfl
  exact ⟨inside ▸ item, .inr (inside ▸ isAddress)⟩

def holdsOne (expression : Text) : Bool :=
  match group? expression with
  | some cut => !cut.rest.isEmpty || (splitArguments cut.taken).length == 1
  | none => true

theorem peels_carries (carries : Accessor.Carries none (Detached none) found address)
    (single : holdsOne address = true) : Peels address := by
  have whole : Item address := ⟨found, carries.list⟩
  obtain ⟨total, given, _, list⟩ := carries_unwrapped carries
  suffices answer : Item (unwrapped address) ∧
      (address = unwrapped address ∨ address = '(' :: (unwrapped address ++ [')'])) from
    ⟨answer.1, answer.2⟩
  unfold unwrapped at list ⊢
  split at list
  · next cut grouped =>
    split at list
    · next alone =>
      rw [if_pos alone]
      have isAddress := group?_whole grouped
      rw [isEmpty_iff.1 alone] at isAddress
      simp only [holdsOne, grouped, alone, Bool.not_true, Bool.false_or, beq_iff_eq] at single
      obtain ⟨argument, arguments⟩ := length_eq_one_iff.1 single
      have counted := (groupCounts_eq_some_iff Nat.one_pos).2
        ⟨cut, grouped, single, by simp [givenCount, arguments, solid_of_single grouped arguments]⟩
      -- The list has the arguments that the group is counted to have.
      obtain ⟨first, others, flush, rfl, rfl, literals, runs⟩ := list
      have closes := @Tally.close_parted Tally.start rfl first others flush []
      have isParts := (@Runs.parts _ [')'] _ runs ⟨by simp, by simp⟩).1
      rw [parts_cons (first?_of_isPlain (by decide) _), Text.parts_nil] at isParts
      rw [← isAddress, groupCounts_paren, isParts, closes] at counted
      obtain ⟨total, given⟩ := Prod.mk.inj (Option.some.inj counted)
      refine ⟨⟨_, first, others, flush, ?_, ?_, literals, runs⟩, .inr isAddress.symm⟩
      · simpa [Tally.start] using total
      · rw [countP_cons]
        cases solid : isSolid first <;> simp_all [Tally.start, Nat.add_comm]
    · next notAlone =>
      rw [if_neg notAlone]
      exact ⟨whole, .inl rfl⟩
  · exact ⟨whole, .inl rfl⟩

theorem peels_fieldAddress (fit : Fit none base) {offset : Nat}
    (single : offset = 0 → holdsOne base.trim = true) : Peels (fieldAddress base offset) := by
  unfold fieldAddress
  split
  · next start =>
    have carries := (carries_operand fit).detached
    unfold operand at carries ⊢
    dsimp only at carries ⊢
    split
    · next bare =>
      rw [if_pos bare] at carries
      exact peels_carries carries (single start)
    · exact peels_enclosed fit.item rfl
  · exact peels_enclosed ⟨_, (carries_fieldSum fit offset).list⟩ (by simp)

theorem peels_elementAddress (isBase : Fit none base) (isIndex : Fit none index) (stride offset : Nat) :
    Peels (elementAddress base index stride offset) :=
  peels_enclosed ⟨_, (carries_elementTerm isBase isIndex stride offset).list⟩ (elementAddress_enclosed ..)

/-! ### Calls -/

def called (callee : Text) (items : List Text) : Text := callee ++ '(' :: (argumentList items ++ [')'])

/-- What a call passes: the view if it takes one, the address and the operands. -/
def passed (view : Option Scalar) (place : Text) (operands : List Text) : List Text :=
  match view with
  | some type => type.view.toList :: place :: operands.map Text.trim
  | none => place :: operands.map Text.trim

/-- The address as an argument: an index in a view, or an address that may lose its parentheses. -/
def IsPlace (target : Target) (address place : Text) : Prop :=
  match target with
  | .primitive (.simd type) => place = viewIndex type.lane address
  | .primitive (.atomic type) => place = viewIndex (.int type) address
  | .structure _ => address = place ∨ address = '(' :: (place ++ [')'])
  | _ => place = address

theorem viewCall_eq (callee : String) (type : Scalar) (place : Text)
    (fit : ∀ argument ∈ arguments, Fit none argument) :
    viewCall callee type place arguments = called callee.toList (passed (some type) place arguments) := by
  rw [viewCall, furtherArguments_eq fit, called, passed, argumentList, intercalate_listed, listed, listed,
    flatMap_cons]
  simp only [append_assoc]
  rfl

theorem access_called {access : Access} {callee : Text} (lowered : access.callee? = some (callee, view))
    (carries : Accessor.Carries none (Detached none) found address)
    (peels : ∀ type, access.target = .structure type → Peels address)
    (count : arguments.length = access.operation.operands)
    (supported : access.target.supports access.operation = true)
    (fit : ∀ argument ∈ arguments, Fit none argument) :
    ∃ place, IsPlace access.target address place ∧ Item place ∧
      Emit.access access.target address access.operation arguments =
        .ok (called callee (passed view place arguments)) := by
  obtain ⟨target, offset, operation, explicit⟩ := access
  have index := fun type => (⟨found, (carries_viewIndex carries type).list⟩ : Item _)
  unfold Access.callee? at lowered
  dsimp only at lowered count supported peels ⊢
  split at lowered
  · cases lowered
  next notRef =>
  unfold Emit.access
  rw [if_neg (by simp [count, supported]), if_neg notRef]
  rcases target with (type | type | type | type) | _ | type
  · cases lowered
  · cases lowered
    exact ⟨_, rfl, index _, congrArg _ (viewCall_eq _ _ _ fit)⟩
  · cases lowered
    exact ⟨_, rfl, index _, congrArg _ (viewCall_eq _ _ _ fit)⟩
  · cases lowered
    exact ⟨_, rfl, ⟨found, carries.list⟩, congrArg _ (viewCall_eq _ _ _ fit)⟩
  · cases lowered
  · cases lowered
    refine ⟨_, (peels type rfl).peels, (peels type rfl).item, ?_⟩
    have basic : operation = .get ∨ operation = .set := by
      cases operation <;> simp_all [Target.supports, Target.isBasic]
    rcases basic with rfl | rfl
    · obtain rfl := length_eq_zero_iff.1 count
      simp [structCopy, called, passed, argumentList_singleton]
    · obtain ⟨value, rfl⟩ := length_eq_one_iff.1 count
      simp [structCopy, called, passed, argumentList_cons, argumentList_singleton]

theorem exists_passed (item : Item place) (fit : ∀ argument ∈ arguments, Fit none argument) :
    ∃ first others, passed view place arguments = first :: others ∧
      ∀ text ∈ first :: others, Item text := by
  have operands : ∀ text ∈ arguments.map Text.trim, Item text :=
    forall_mem_map.2 fun text member => (fit text member).item
  cases view with
  | none => exact ⟨_, _, rfl, forall_mem_cons.2 ⟨item, operands⟩⟩
  | some type =>
    have isView : Item type.view.toList := ⟨[], (carries_view type).list⟩
    exact ⟨_, _, rfl, forall_mem_cons.2 ⟨isView, forall_mem_cons.2 ⟨item, operands⟩⟩⟩

end Emit

namespace Accessor

variable {scene : Scene} {before : Option Char} {text : Text} {call : Call} {start offset : Nat}

theorem Finds.arguments {session : Session} {found : Found} {arguments : List Argument}
    (finds : Finds session before text found) (formed : found.form = .call call start arguments) :
    ∀ argument ∈ arguments, Flush argument.text.parts ∧ argument.text.isBlank = false := by
  cases finds with
  | call _ _ _ _ _ _ _ _ flush solid =>
    cases formed
    exact fun argument member => ⟨flush argument member, solid argument member⟩
  | word _ _ _ _ stays => rcases stays with rfl | ⟨_, rfl⟩ <;> cases formed
  | _ => cases formed

theorem orderly_splitArguments {inner : Text} (closes : Closes [] inner) :
    ∀ argument ∈ splitArguments inner, Orderly argument.text := by
  obtain ⟨marks, ending, walk, nested⟩ := closes
  have orderly := walk.orderly (by simp [Orderly])
  rw [append_nil] at orderly
  obtain ⟨early, same, nests⟩ := (@Walk.change _ _ _ _ [')'] walk ⟨by simp, by simp⟩).parts
  have counted := Tally.nest_code .start early
  rw [show Tally.start.nesting = [] from rfl, nests, nested] at counted
  obtain ⟨next, passed, top⟩ := Option.map_eq_some_iff.1 counted.symm
  have grouped := group?_of_passAll same passed top
  obtain ⟨first, others, group⟩ := @groupParts_of_closeGroup [] (inner ++ [')']) ⟨inner, []⟩ grouped
  have pieces : commaPieces 0 inner = first :: others := group.pieces
  have literals : (first :: others).flatMap Text.literals = inner.literals := by
    rw [← literals_parted, parted, flatMap_map, ← group.inside]
    rfl
  rw [← pieces, ← literals_splitArguments] at literals
  intro argument member
  refine orderly.sub fun literal isLiteral => ?_
  rw [← literals]
  exact mem_flatMap.2 ⟨_, mem_map_of_mem member, isLiteral⟩

namespace Call

def address : Call → List Text → Text
  | field access, base :: _ => Emit.fieldAddress base access.offset
  | element array access, base :: index :: _ => Emit.elementAddress base index array.stride access.offset
  | _, _ => []

def places : Call → Nat
  | element _ _ => 2
  | _ => 1

/-- The struct at the start of a base that is one group in parentheses takes one argument from it. -/
def HoldsOne (call : Call) (texts : List Text) : Prop :=
  ∀ access type base, call = field access → access.target = .structure type → access.offset = 0 →
    texts.head? = some base → Emit.holdsOne base.trim = true

theorem emit_called {access : Access} {texts : List Text} {callee : Text} {view : Option Scalar}
    (accessed : call.access? = some access) (lowered : access.callee? = some (callee, view))
    (takes : call.Takes texts.length) (fit : ∀ text ∈ texts, Emit.Fit none text)
    (single : call.HoldsOne texts) :
    texts.length = call.places + access.operation.operands ∧
      ∃ place, Emit.IsPlace access.target (call.address texts) place ∧ Item place ∧
        call.emit texts = .ok (Emit.called callee (Emit.passed view place (texts.drop call.places))) := by
  cases call with
  | allocateArray item => cases accessed
  | field own =>
    cases accessed
    obtain ⟨base, arguments, rfl⟩ := exists_cons_of_length_eq_add_one takes.1
    obtain ⟨isBase, areArguments⟩ := forall_mem_cons.1 fit
    refine ⟨takes.1.trans (Nat.add_comm _ _), access_called lowered (carries_fieldAddress isBase _)
      (fun type isStruct => ?_) (Nat.succ.inj takes.1) takes.2 areArguments⟩
    exact peels_fieldAddress isBase fun start => single _ type base rfl isStruct start rfl
  | element array own =>
    cases accessed
    obtain ⟨base, others, rfl⟩ := exists_cons_of_length_eq_add_one takes.1
    obtain ⟨index, arguments, rfl⟩ := exists_cons_of_length_eq_add_one (Nat.succ.inj takes.1)
    obtain ⟨isBase, isIndex, areArguments⟩ := by simpa using fit
    exact ⟨takes.1.trans (Nat.add_comm _ _), access_called lowered
      (closed_elementAddress isBase isIndex array.stride access.offset).carries.anywhere
      (fun _ _ => peels_elementAddress isBase isIndex array.stride access.offset)
      (Nat.succ.inj (Nat.succ.inj takes.1)) takes.2 areArguments⟩

end Call

/-- An access that is emitted as a call passes one argument for its address, behind the view if there
is one, and one for each operand.  All that is in the parentheses has to be closed, no argument may end
in a line comment, and parentheses that are taken off the base of a struct have to hold one argument. -/
theorem lowered_calls_take_arguments {declarations : List Declaration}
    (accepts : Accepts declarations scene.session) {c : Char} {cs inner : Text} {access : Access}
    {texts : List Text} {callee : Text} {view : Option Scalar}
    (formed : (find scene.session before c cs).form = .call call start (splitArguments inner))
    (accessed : call.access? = some access) (lowered : access.callee? = some (callee, view))
    (closed : Closes [] inner)
    (isTidy : ∀ argument ∈ splitArguments inner, argument.text.endsInLineComment = false ∧
      tidy scene.session none argument.text = true)
    (expanded : (argumentTexts scene (offset + start) (splitArguments inner)).result = .ok texts)
    (single : call.HoldsOne texts) :
    texts.length = call.places + access.operation.operands ∧
      ∃ place, Emit.IsPlace access.target (call.address texts) place ∧
        let items := Emit.passed view place (texts.drop call.places)
        (replacement scene offset (find scene.session before c cs)).result =
          .ok (Emit.called callee items) ∧
        (∀ rest, group? ('(' :: (argumentList items ++ ')' :: rest)) = some ⟨argumentList items, rest⟩) ∧
        (splitArguments (argumentList items)).map Argument.text = spaced items := by
  have pairs := Warned.forall₂_of_mapM_result expanded
  have fit : ∀ text ∈ texts, Emit.Fit none text := by
    intro text member
    obtain ⟨argument, isArgument, expanding⟩ := exists_of_mem_forall₂ pairs.flip member
    obtain ⟨notComment, isTidy⟩ := isTidy argument isArgument
    have orderly := orderly_splitArguments closed argument isArgument
    obtain ⟨flush, solid⟩ := (finds_find scene.session before c cs).arguments formed argument isArgument
    have stable := stable_expand (by simp) accepts.loaded.named accepts.readable.named
      (inherited_tidy scene.session) ⟨isTidy, orderly⟩ expanding
    exact stable.fit flush solid (orderly.shut notComment)
  have takes := find_takes formed
  rw [pairs.length_eq] at takes
  obtain ⟨count, place, isPlace, item, emitted⟩ := Call.emit_called accessed lowered takes fit single
  obtain ⟨first, others, same, items⟩ := @Emit.exists_passed _ _ view item
    fun text member => fit text (mem_of_mem_drop member)
  refine ⟨count, place, isPlace, ?_, ?_⟩
  · rw [replacement, formed]
    dsimp only
    rw [Warned.bind_of_ok expanded, emitted]
    rfl
  · rw [same]
    exact ⟨group?_argumentList items, splitArguments_argumentList items⟩

def sampleStruct : Text := "@flatjs struct V\x7bx:int32;\x7d@end".toList

def sampleCall : Text := ".set((q), V.Array.get(a, i))".toList

def sampleArguments : Text := "(q), V.Array.get(a, i)".toList

def sampleExpands : Except Failure Bool := do
  let document ← Document.read "sample" sampleStruct
  let session ← Session.ofDocuments [document]
  let .call call start arguments := (find session none 'V' sampleCall).form | return false
  let some access := call.access? | return false
  return decide (start = 6 ∧ arguments = splitArguments sampleArguments ∧
    access.callee? = some ("V._set_impl".toList, none) ∧
    (argumentTexts ⟨session, "sample", .plain []⟩ (0 + 6) arguments).result =
      .ok ["(q)".toList, " V._get_impl(a + 4 * i)".toList] ∧
    ∀ argument ∈ arguments, argument.text.endsInLineComment = false ∧
      tidy session none argument.text = true)

theorem lowered_calls_take_arguments_sample : ∃ declarations session call access texts place,
    Accepts declarations session ∧
    (find session none 'V' sampleCall).form = .call call 6 (splitArguments sampleArguments) ∧
    call.access? = some access ∧ access.callee? = some ("V._set_impl".toList, none) ∧
    Closes [] sampleArguments ∧ texts = ["(q)".toList, " V._get_impl(a + 4 * i)".toList] ∧
    call.HoldsOne texts ∧ Emit.IsPlace access.target (call.address texts) place ∧
    let items := Emit.passed none place (texts.drop call.places)
    (replacement ⟨session, "sample", .plain []⟩ 0 (find session none 'V' sampleCall)).result =
      .ok (Emit.called "V._set_impl".toList items) ∧
    (splitArguments (argumentList items)).map Argument.text = spaced items := by
  have accepted : sampleExpands = .ok true := by decide +kernel
  obtain ⟨document, read, accepted⟩ := exists_of_bind_eq_ok accepted
  obtain ⟨session, analysed, accepted⟩ := exists_of_bind_eq_ok accepted
  split at accepted
  · next call start arguments formed =>
    split at accepted
    · next access accessed =>
      obtain ⟨rfl, rfl, lowered, expanded, isTidy⟩ := of_decide_eq_true (Except.ok.inj accepted)
      have accepts := Accepts.ofDocument read analysed
      have closed : Closes [] sampleArguments :=
        ⟨_, _, Walk.of_plain (all_eq_true.1 (by decide)), by decide⟩
      have single : call.HoldsOne ["(q)".toList, " V._get_impl(a + 4 * i)".toList] := by
        rintro _ _ _ _ _ _ ⟨⟩
        decide +kernel
      obtain ⟨_, place, isPlace, emitted, _, split⟩ := @lowered_calls_take_arguments
        ⟨session, "sample", .plain []⟩ _ _ _ 0 _ accepts _ _ _ _ _ _ _ formed accessed lowered closed
        isTidy expanded single
      exact ⟨_, session, call, access, _, place, accepts, formed, accessed, lowered, closed, rfl, single,
        isPlace, emitted, split⟩
    · cases accepted
  · cases accepted

/-- Calls with what their expansions pass: parentheses that hold two arguments are taken off, and a line
comment or a string that the end of its line cuts off takes the comma behind it. -/
def miscounted : List (Text × Text × Text) := [
  ("V.get((a, b))".toList, "V._get_impl".toList, "a, b".toList),
  ("V.set(p // c\n, v)".toList, "V._set_impl".toList, "(p // c), v".toList),
  ("V.set('p\n, v)".toList, "V._set_impl".toList, "('p), v".toList)]

theorem arguments_miscounted : ∃ declarations session, Accepts declarations session ∧
    (∀ texts ∈ miscounted, (session.expandAccessors "sample" (.plain texts.1)).result =
      .ok (Emit.called texts.2.1 [texts.2.2])) ∧
    miscounted.map (fun texts => (splitArguments texts.2.2).length) = [2, 1, 1] := by
  have accepted : (do
      let document ← Document.read "sample" sampleStruct
      let session ← Session.ofDocuments [document]
      return miscounted.all fun texts =>
        decide ((session.expandAccessors "sample" (.plain texts.1)).result =
          .ok (Emit.called texts.2.1 [texts.2.2]))) = Except.ok true := by
    decide +kernel
  obtain ⟨document, read, accepted⟩ := exists_of_bind_eq_ok accepted
  obtain ⟨session, analysed, answer⟩ := exists_of_bind_eq_ok accepted
  refine ⟨_, session, Accepts.ofDocument read analysed, fun texts member => ?_, by decide +kernel⟩
  exact of_decide_eq_true (all_eq_true.1 (Except.ok.inj answer) texts member)

end Accessor

end FlatMemory
