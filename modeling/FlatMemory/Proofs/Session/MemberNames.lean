import FlatMemory.Proofs.Document.Acceptance
import FlatMemory.Proofs.Session.FieldPaths
import Mathlib.Data.Set.Finite.List
import Mathlib.Order.WellFoundedSet

/-! # Names of members along a lineage

A field is checked against the slots in front of it and the methods of the classes above, a method
against all slots and against the virtual methods above.  Together the checks say that the names of
the members of a class and of all it inherits from do not clash, and nothing else. -/

namespace FlatMemory

open List Relation

variable {declarations : List Declaration} {declaration base : Declaration}
  {above : List Declaration} {name : String} {isClass : Bool} {item : Grammar.Item} {file : String}

/-! ### Getters and setters -/

theorem Grammar.Member.unnamed {first : List Token} (spelled : Grammar.Member isClass item first)
    {method : Method} (isMethod : item.method? = some method)
    (unnamed : method.kind.isNamed = false) : method.name = "" := by
  cases spelled with
  | field => cases isMethod
  | method marked =>
    cases isMethod
    rw [marked.isNamed] at unnamed
    cases unnamed
  | accessor =>
    cases isMethod
    rfl

theorem Grammar.Definition.unnamed {line : Nat} {block : List Token}
    (isBlock : Grammar.Definition file line declaration block) :
    ∀ method ∈ declaration.methods, method.kind.isNamed = false → method.name = "" := by
  obtain ⟨_, _, isMembers, _⟩ := isBlock
  intro method member unnamed
  obtain ⟨item, isItem, isMethod⟩ := mem_filterMap.1 member
  obtain ⟨_, spelled, _⟩ := isMembers.exists_member isItem
  exact spelled.unnamed isMethod unnamed

theorem Declaration.Parsed.unnamed (parsed : declaration.Parsed) :
    ∀ method ∈ declaration.methods, method.kind.isNamed = false → method.name = "" := by
  obtain ⟨file, source, document, read, member⟩ := parsed
  obtain ⟨tokens, pieces, _, derives, rfl⟩ := Document.read_eq_ok_iff.1 read
  obtain ⟨_, _, found, rfl⟩ := Piece.mem_declarations 0 member
  obtain ⟨_, _, isBlock, _⟩ := derives.exists_definition found
  exact isBlock.unnamed

namespace Scope

variable {field : Field} {scope : Scope} {plan : Plan}

inductive Embeds (scope : Scope) : Declaration → Declaration → Prop
  | field {inner outer : Declaration} {field : Field} (member : field ∈ outer.fields)
    (plain : field.isArray = false) (known : scope.fieldType? field = some (.user inner))
    (struct : inner.isClass = false) : Embeds scope inner outer

def Extends (scope : Scope) (base derived : Declaration) : Prop := scope.base? derived = some base

def fieldNames (lineage : List Declaration) : List String :=
  (lineage.flatMap Declaration.fields).map Field.name

theorem fieldNames_cons : fieldNames (declaration :: above) =
    declaration.fields.map Field.name ++ fieldNames above := by
  rw [fieldNames, flatMap_cons, map_append]
  rfl

structure Apart (lineage : List Declaration) : Prop where
  fields : (fieldNames lineage).Nodup
  methods : ∀ owner ∈ lineage, ∀ method ∈ owner.methods, method.name ∉ fieldNames lineage

/-- The members of a class and of all it inherits from have names apart, and no method of the class
hides a virtual one. -/
structure Coherent (declaration : Declaration) (above : List Declaration) : Prop where
  apart : Apart (declaration :: above)
  unshadowed : ∀ method ∈ declaration.methods, method.kind = .nonVirtual →
    ∀ owner ∈ above, ¬ owner.DeclaresVirtual method.name

structure Adds (declaration : Declaration) (above : List Declaration) : Prop where
  fields : ∀ field ∈ declaration.fields, field.name ∉ fieldNames above
  methods : ∀ method ∈ declaration.methods, method.name ∉ fieldNames (declaration :: above)
  unhidden : ∀ owner ∈ above, ∀ field ∈ declaration.fields, owner.hasMethod field.name = false

theorem apart_cons (distinct : (declaration.fields.map Field.name).Nodup) :
    Apart (declaration :: above) ↔ Adds declaration above ∧ Apart above := by
  constructor
  · rintro ⟨fields, methods⟩
    rw [fieldNames_cons] at fields
    obtain ⟨_, aboveFields, disjoint⟩ := nodup_append.1 fields
    refine ⟨⟨?_, methods declaration mem_cons_self, ?_⟩, aboveFields, ?_⟩
    · intro field isField isAbove
      exact disjoint _ (mem_map_of_mem isField) _ isAbove rfl
    · intro owner isOwner field isField
      rw [Declaration.hasMethod, any_eq_false]
      intro method isMethod same
      refine methods owner (mem_cons_of_mem _ isOwner) method isMethod ?_
      rw [fieldNames_cons, of_decide_eq_true same]
      exact mem_append_left _ (mem_map_of_mem isField)
    · intro owner isOwner method isMethod isField
      refine methods owner (mem_cons_of_mem _ isOwner) method isMethod ?_
      rw [fieldNames_cons]
      exact mem_append_right _ isField
  · rintro ⟨adds, apart⟩
    refine ⟨?_, ?_⟩
    · rw [fieldNames_cons, nodup_append]
      refine ⟨distinct, apart.fields, ?_⟩
      rintro _ isOwn _ isAbove rfl
      obtain ⟨field, isField, same⟩ := mem_map.1 isOwn
      exact adds.fields field isField (same ▸ isAbove)
    · intro owner isOwner method isMethod
      rcases mem_cons.1 isOwner with rfl | isAbove
      · exact adds.methods method isMethod
      · rw [fieldNames_cons, mem_append, not_or]
        refine ⟨?_, apart.methods owner isAbove method isMethod⟩
        intro isOwn
        obtain ⟨field, isField, same⟩ := mem_map.1 isOwn
        have hidden := any_eq_false.1 (adds.unhidden owner isAbove field isField) method isMethod
        simp [same] at hidden

/-! ### Lineages -/

theorem Lineage.cases_cons {lineage : List Declaration}
    (isLineage : scope.Lineage declaration lineage) :
    ∃ above, lineage = declaration :: above ∧ (declaration.baseName? = none ∧ above = [] ∨
      ∃ base, scope.base? declaration = some base ∧ scope.Lineage base above) := by
  cases isLineage with
  | root isRoot => exact ⟨[], rfl, .inl ⟨isRoot, rfl⟩⟩
  | derived extended isAbove => exact ⟨_, rfl, .inr ⟨_, extended, isAbove⟩⟩

theorem Above.lineage (isAbove : scope.Above declaration above) :
    scope.Lineage declaration (declaration :: above) := by
  obtain ⟨_, extended, isLineage⟩ := isAbove
  exact .derived extended isLineage

theorem Lineage.isAbove (isLineage : scope.Lineage declaration (declaration :: above))
    {owner : Declaration} (isOwner : owner ∈ above) : scope.Above declaration above := by
  obtain ⟨_, same, ⟨_, rfl⟩ | isAbove⟩ := isLineage.cases_cons
  · cases same
    cases isOwner
  · cases same
    exact isAbove

theorem baseName_of_struct (isStruct : declaration.isClass = false) :
    declaration.baseName? = none := by
  unfold Declaration.isClass at isStruct
  unfold Declaration.baseName?
  split at isStruct <;> simp_all

theorem find?_of_fieldType {struct : Declaration}
    (known : scope.fieldType? field = some (.user struct)) :
    scope.find? field.typeName = some struct := by
  unfold fieldType? at known
  split at known
  · obtain ⟨_, _, same⟩ := Option.map_eq_some_iff.1 known
    cases same
  · split at known
    · obtain ⟨_, found, same⟩ := Option.map_eq_some_iff.1 known
      cases same
      exact found
    · cases known

/-- On finitely many elements a relation without cycles has no endless descent. -/
theorem acc_of_acyclic {below : Declaration → Declaration → Prop}
    (inside : ∀ lower upper, below lower upper → lower ∈ declarations)
    (acyclic : ∀ declaration ∈ declarations, ¬ TransGen below declaration declaration)
    (declaration : Declaration) : Acc below declaration := by
  let under (lower upper : { declaration // declaration ∈ declarations }) : Prop :=
    TransGen below lower.1 upper.1
  have : Finite { declaration // declaration ∈ declarations } :=
    (finite_toSet declarations).to_subtype
  have : IsTrans _ under := ⟨fun _ _ _ first second => first.trans second⟩
  have : Std.Irrefl under := ⟨fun element => acyclic element.1 element.2⟩
  have grounded : WellFounded under := Finite.wellFounded_of_trans_of_irrefl under
  have walk : ∀ lower : { declaration // declaration ∈ declarations }, Acc below lower.1 := by
    intro lower
    induction lower using grounded.induction with
    | _ upper ih =>
      refine ⟨_, fun lower step => ?_⟩
      exact ih ⟨lower, inside lower upper.1 step⟩ (.single step)
  exact ⟨_, fun lower step => walk ⟨lower, inside lower declaration step⟩⟩

/-- Structs have no base and only structs are embedded, so a walk through parts goes up to bases
first and then stays in structs. -/
theorem acc_partOf (embeds : ∀ declaration, Acc scope.Embeds declaration)
    (inherits : Acc scope.Extends declaration) : Acc scope.PartOf declaration := by
  have structs : ∀ struct, struct.isClass = false → Acc scope.PartOf struct := by
    intro struct
    induction embeds struct with
    | intro struct _ ih =>
      intro isStruct
      refine ⟨_, fun part isPart => ?_⟩
      cases isPart with
      | base extended => exact absurd extended (base?_ne_of_root (baseName_of_struct isStruct))
      | field member plain known inner => exact ih part (.field member plain known inner) inner
  induction inherits with
  | intro declaration _ ih =>
    refine ⟨_, fun part isPart => ?_⟩
    cases isPart with
    | base extended => exact ih part extended
    | field _ _ _ inner => exact structs part inner

/-! ### What the checks of one type say -/

theorem hasPath_add {inner : Plan} {referent : Referent} (dotless : '.' ∉ name.toList) :
    (plan.add field referent inner).hasPath name = true ↔
      plan.hasPath name = true ∨ field.name = name := by
  have under : ∀ entry : Entry, ¬ (entry.under field.name).path = name :=
    fun entry same => ne_append_dot dotless field.name entry.path same.symm
  unfold Plan.add
  split
  · simp [Plan.hasPath, Plan.place, Entry.behind]
  · cases referent with
    | primitive type => simp [Plan.hasPath, Plan.place, Entry.behind]
    | user struct => simp [Plan.hasPath, Plan.place, Entry.behind, under]

/-- The paths without a dot in front of a field are the names of the fields placed so far. -/
theorem Lays.hasPath_iff {count : Nat} (lays : scope.Lays declaration count plan)
    (dotless : '.' ∉ name.toList) (isLineage : scope.Lineage declaration (declaration :: above)) :
    plan.hasPath name = true ↔
      name ∈ (declaration.fields.take count).map Field.name ++ fieldNames above := by
  induction lays generalizing above with
  | @root declaration isRoot =>
    obtain ⟨_, same, ⟨_, rfl⟩ | ⟨_, extended, _⟩⟩ := isLineage.cases_cons
    · cases same
      cases isClass : declaration.isClass <;> simp [Plan.start, Plan.hasPath, fieldNames]
    · exact absurd extended (base?_ne_of_root isRoot)
  | @derived declaration base plan extended _ ih =>
    obtain ⟨_, same, ⟨isRoot, _⟩ | ⟨_, again, isAbove⟩⟩ := isLineage.cases_cons
    · exact absurd extended (base?_ne_of_root isRoot)
    · cases same
      cases extended.symm.trans again
      obtain ⟨higher, rfl, _⟩ := isAbove.cases_cons
      rw [ih isAbove, take_length, fieldNames_cons]
      simp
  | @field declaration count plan inner field referent _ next _ _ ih _ =>
    rw [hasPath_add dotless, ih isLineage, take_add_one, next]
    simp only [map_append, mem_append, Option.toList_some, map_singleton,
      mem_singleton]
    grind

/-! ### Programs whose names resolve -/

structure Framed (scope : Scope) : Prop where
  named : ∀ name declaration, scope.find? name = some declaration → scope.Declares declaration
  parsed : ∀ declaration, scope.Declares declaration → declaration.Parsed
  known : ∀ declaration, scope.Declares declaration → scope.Known declaration
  inherits : ∀ declaration, Acc scope.Extends declaration
  grounded : ∀ declaration, Acc scope.PartOf declaration

namespace Framed

variable (framed : scope.Framed)

include framed

theorem declares_base (extended : scope.base? declaration = some base) : scope.Declares base := by
  obtain ⟨_, _, known, _⟩ := baseName_of_base extended
  exact framed.named _ _ known

theorem struct {struct : Declaration} (known : scope.fieldType? field = some (.user struct)) :
    scope.Declares struct :=
  framed.named _ _ (find?_of_fieldType known)

theorem lineage {lineage : List Declaration} (isLineage : scope.Lineage declaration lineage)
    (declared : scope.Declares declaration) : ∀ owner ∈ lineage, scope.Declares owner := by
  induction isLineage with
  | root _ => simpa using declared
  | derived extended _ ih =>
    intro owner isOwner
    rcases mem_cons.1 isOwner with rfl | isAbove
    · exact declared
    · exact ih (framed.declares_base extended) owner isAbove

theorem nodup_fields (declared : scope.Declares declaration) :
    (declaration.fields.map Field.name).Nodup :=
  (nodup_append.1 (framed.parsed declaration declared).wellFormed.distinct).1

variable (declared : scope.Declares declaration)

include declared

theorem exists_lineage : ∃ above, scope.Lineage declaration (declaration :: above) := by
  induction framed.inherits declaration with
  | intro declaration _ ih =>
    cases asked : declaration.baseName? with
    | none => exact ⟨[], .root asked⟩
    | some name =>
      obtain ⟨base, extended⟩ := (framed.known declaration declared).base name asked
      obtain ⟨above, isAbove⟩ := ih base extended (framed.declares_base extended)
      exact ⟨base :: above, .derived extended isAbove⟩

/-- Every run of fields from the first on has a plan. -/
theorem exists_lays : ∀ count ≤ declaration.fields.length, ∃ plan, scope.Lays declaration count plan := by
  induction framed.grounded declaration with
  | intro declaration _ ih =>
    intro count
    induction count with
    | zero =>
      intro _
      cases asked : declaration.baseName? with
      | none => exact ⟨_, .root asked⟩
      | some name =>
        obtain ⟨base, extended⟩ := (framed.known declaration declared).base name asked
        obtain ⟨plan, lays⟩ := ih base (.base extended) (framed.declares_base extended) _ (Nat.le_refl _)
        exact ⟨plan, .derived extended lays⟩
    | succ count ihCount =>
      intro inside
      obtain ⟨plan, lays⟩ := ihCount (by omega)
      have next := getElem?_eq_getElem inside
      have isField := mem_of_getElem? next
      obtain ⟨referent, isType⟩ := (framed.known declaration declared).fields _ isField
      obtain ⟨inner, within⟩ : ∃ inner, ∀ struct, referent = .user struct →
          declaration.fields[count].isArray = false → struct.isClass = false →
          scope.Lays struct struct.fields.length inner := by
        by_cases held : ∃ struct, referent = .user struct ∧
            declaration.fields[count].isArray = false ∧ struct.isClass = false
        · obtain ⟨struct, rfl, plain, isStruct⟩ := held
          obtain ⟨inner, lays⟩ := ih struct (.field isField plain isType isStruct)
            (framed.struct isType) _ (Nat.le_refl _)
          refine ⟨inner, fun other same _ _ => ?_⟩
          cases same
          exact lays
        · exact ⟨.start false, fun struct same plain isStruct =>
            absurd ⟨struct, same, plain, isStruct⟩ held⟩
      exact ⟨_, .field lays next isType within⟩

/-! ### The checks of one type -/

/-- The name of a method is an identifier or empty. -/
theorem method_dotless {method : Method} (isMethod : method ∈ declaration.methods) :
    '.' ∉ method.name.toList := by
  have parsed := framed.parsed declaration declared
  by_cases named : method.kind.isNamed = true
  · refine (parsed.wellFormed.identifiers method.name (mem_append_right _ ?_)).dotless
    exact mem_map_of_mem (mem_filter.2 ⟨isMethod, named⟩)
  · rw [parsed.unnamed method isMethod (by simpa using named)]
    simp

theorem field_dotless (isField : field ∈ declaration.fields) : '.' ∉ field.name.toList :=
  ((framed.parsed declaration declared).wellFormed.identifiers field.name
    (mem_append_left _ (mem_map_of_mem isField))).dotless

variable (isLineage : scope.Lineage declaration (declaration :: above))

include isLineage

/-- Checking each field against the slots in front of it is checking all against those above. -/
theorem fields_free_iff : (∀ done field rest plan, declaration.fields = done ++ field :: rest →
      scope.Lays declaration done.length plan → plan.hasPath field.name = false) ↔
    ∀ field ∈ declaration.fields, field.name ∉ fieldNames above := by
  constructor
  · intro free field isField isAbove
    obtain ⟨done, rest, split⟩ := append_of_mem isField
    obtain ⟨plan, lays⟩ := framed.exists_lays declared done.length (by simp [split])
    have taken := (lays.hasPath_iff (framed.field_dotless declared isField) isLineage).2
      (mem_append_right _ isAbove)
    rw [free done field rest plan split lays] at taken
    cases taken
  · intro free done field rest plan split lays
    have isField : field ∈ declaration.fields := by simp [split]
    rw [← Bool.not_eq_true, lays.hasPath_iff (framed.field_dotless declared isField) isLineage,
      split, take_left, mem_append, not_or]
    refine ⟨?_, free field isField⟩
    have distinct := framed.nodup_fields declared
    rw [split, map_append, map_cons] at distinct
    exact fun isDone => (nodup_append.1 distinct).2.2 _ isDone _ mem_cons_self rfl

theorem methods_free_iff : (∀ plan, scope.Lays declaration declaration.fields.length plan →
      ∀ method ∈ declaration.methods, plan.hasPath method.name = false) ↔
    ∀ method ∈ declaration.methods, method.name ∉ fieldNames (declaration :: above) := by
  have taken : ∀ plan, scope.Lays declaration declaration.fields.length plan →
      ∀ method ∈ declaration.methods, plan.hasPath method.name = true ↔
        method.name ∈ fieldNames (declaration :: above) := by
    intro plan lays method isMethod
    rw [lays.hasPath_iff (framed.method_dotless declared isMethod) isLineage, take_length,
      fieldNames_cons]
  constructor
  · intro free method isMethod isField
    obtain ⟨plan, lays⟩ := framed.exists_lays declared _ (Nat.le_refl _)
    have isTaken := (taken plan lays method isMethod).2 isField
    rw [free plan lays method isMethod] at isTaken
    cases isTaken
  · intro free plan lays method isMethod
    rw [← Bool.not_eq_true, taken plan lays method isMethod]
    exact free method isMethod

/-- A struct inherits nothing, and its getter and setter have no name. -/
theorem adds_of_struct (isStruct : declaration.isClass = false) : Adds declaration above := by
  obtain ⟨_, same, ⟨_, rfl⟩ | ⟨_, extended, _⟩⟩ := isLineage.cases_cons
  · cases same
    have parsed := framed.parsed declaration declared
    refine ⟨by simp [fieldNames], ?_, by simp⟩
    intro method isMethod isField
    rw [parsed.unnamed method isMethod ((parsed.wellFormed.kinds method isMethod).trans isStruct),
      fieldNames_cons] at isField
    refine (parsed.wellFormed.identifiers "" (mem_append_left _ ?_)).ne_empty rfl
    simpa [fieldNames] using isField
  · exact absurd extended (base?_ne_of_root (baseName_of_struct isStruct))

/-! ### The checks of all types together -/

omit isLineage in
/-- What a class adds to the classes above is checked for each of them, so all are apart. -/
theorem apart_of_adds {lineage : List Declaration} (isLineage : scope.Lineage declaration lineage)
    (adds : ∀ declaration, scope.Declares declaration → ∀ above,
      scope.Lineage declaration (declaration :: above) → Adds declaration above) : Apart lineage := by
  induction isLineage with
  | @root declaration isRoot =>
    exact (apart_cons (framed.nodup_fields declared)).2
      ⟨adds declaration declared [] (.root isRoot), by simp [fieldNames], by simp⟩
  | @derived declaration base above extended isAbove ih =>
    exact (apart_cons (framed.nodup_fields declared)).2
      ⟨adds declaration declared above (.derived extended isAbove), ih (framed.declares_base extended)⟩

theorem coherent (admissible : scope.Admissible) : Coherent declaration above := by
  refine ⟨framed.apart_of_adds declared isLineage fun declaration declared above isLineage => ?_, ?_⟩
  · refine ⟨?_, ?_, ?_⟩
    · exact (framed.fields_free_iff declared isLineage).1 (admissible.fields declaration declared)
    · exact (framed.methods_free_iff declared isLineage).1 (admissible.methods declaration declared)
    · intro owner isOwner
      exact admissible.unhidden declaration declared above (isLineage.isAbove isOwner) owner isOwner
  · intro method isMethod plain owner isOwner hides
    have isDeclared := framed.lineage isLineage declared owner (mem_cons_of_mem _ isOwner)
    have shadows := ((framed.parsed owner isDeclared).wellFormed.declaresVirtual_iff method.name).2 hides
    rw [admissible.unshadowed declaration declared above (isLineage.isAbove isOwner) owner isOwner
      method isMethod plain] at shadows
    cases shadows

omit declared isLineage in
theorem admissible
    (hashed : ∀ declaration, scope.Declares declaration → declaration.isClass = true →
      ∃ id, scope.Hashes declaration id)
    (distinct : ∀ first second id, scope.Declares first → scope.Declares second →
      first.isClass = true → second.isClass = true → scope.Hashes first id →
      scope.Hashes second id → first = second)
    (coherent : ∀ declaration, scope.Declares declaration → declaration.isClass = true → ∀ above,
      scope.Lineage declaration (declaration :: above) → Coherent declaration above) :
    scope.Admissible := by
  have adds : ∀ declaration, scope.Declares declaration → ∀ above,
      scope.Lineage declaration (declaration :: above) → Adds declaration above := by
    intro declaration declared above isLineage
    cases isClass : declaration.isClass with
    | false => exact framed.adds_of_struct declared isLineage isClass
    | true =>
      have apart := (coherent declaration declared isClass above isLineage).apart
      exact ((apart_cons (framed.nodup_fields declared)).1 apart).1
  refine ⟨framed.known, fun declaration _ => framed.grounded declaration, ?_, ?_, ?_, ?_, hashed,
    distinct⟩
  · intro declaration declared
    obtain ⟨above, isLineage⟩ := framed.exists_lineage declared
    exact (framed.fields_free_iff declared isLineage).2 (adds declaration declared above isLineage).fields
  · intro declaration declared
    obtain ⟨above, isLineage⟩ := framed.exists_lineage declared
    exact (framed.methods_free_iff declared isLineage).2 (adds declaration declared above isLineage).methods
  · intro declaration declared above isAbove
    exact (adds declaration declared above isAbove.lineage).unhidden
  · intro declaration declared above isAbove owner isOwner method isMethod plain
    have isClass : declaration.isClass = true := by
      by_contra isStruct
      obtain ⟨_, extended, _⟩ := isAbove
      exact base?_ne_of_root (baseName_of_struct (by simpa using isStruct)) extended
    have isDeclared := framed.lineage isAbove.lineage declared owner (mem_cons_of_mem _ isOwner)
    rw [← Bool.not_eq_true, (framed.parsed owner isDeclared).wellFormed.declaresVirtual_iff]
    exact (coherent declaration declared isClass above isAbove.lineage).unshadowed method isMethod plain
      owner isOwner

end Framed

end Scope

theorem Session.Registers.declares {session : Session} (registers : Registers declarations session)
    (declaration : Declaration) :
    (Scope.ofList declarations).Declares declaration ↔ declaration ∈ declarations := by
  refine ⟨mem_of_find?_eq_some, ?_⟩
  intro member
  rw [← registers.scope]
  have isType : UserType.ofDeclaration declaration ∈ session.types := by
    rw [registers.types]
    exact mem_map_of_mem member
  obtain ⟨_, found⟩ := mem_iff_getElem?.1 isType
  exact registers.named.declares found

/-- Where the names of a program resolve, nothing leads back to itself and no two classes share a
tag, the program is accepted exactly if every class is coherent with all it inherits from. -/
theorem accepted_iff_coherent {registered : Session}
    (parsed : ∀ declaration ∈ declarations, declaration.Parsed)
    (registers : Session.empty.registerAll declarations = .ok registered)
    (known : ∀ declaration ∈ declarations, (Scope.ofList declarations).Known declaration)
    (embeds : ∀ declaration ∈ declarations,
      ¬ TransGen (Scope.ofList declarations).Embeds declaration declaration)
    (inherits : ∀ declaration ∈ declarations,
      ¬ TransGen (Scope.ofList declarations).Extends declaration declaration)
    (hashed : ∀ declaration ∈ declarations, declaration.isClass = true →
      ∃ id, (Scope.ofList declarations).Hashes declaration id)
    (distinct : ∀ first ∈ declarations, ∀ second ∈ declarations, ∀ id, first.isClass = true →
      second.isClass = true → (Scope.ofList declarations).Hashes first id →
      (Scope.ofList declarations).Hashes second id → first = second) :
    (∃ analysed, registered.analyze = (.ok (), analysed)) ↔
      ∀ declaration ∈ declarations, declaration.isClass = true → ∃ above,
        (Scope.ofList declarations).Lineage declaration (declaration :: above) ∧
          Scope.Coherent declaration above := by
  have isRegistered := Session.registerAll_ok registers
  have declares := isRegistered.declares
  have inside : ∀ {name declaration}, (Scope.ofList declarations).find? name = some declaration →
      declaration ∈ declarations := mem_of_find?_eq_some
  have inheritsEnd := Scope.acc_of_acyclic (fun _ _ extended =>
    let ⟨_, _, found, _⟩ := Scope.baseName_of_base extended; inside found) inherits
  have embedsEnd := Scope.acc_of_acyclic (fun _ _ ⟨_, _, isType, _⟩ =>
    inside (Scope.find?_of_fieldType isType)) embeds
  have framed : (Scope.ofList declarations).Framed :=
    ⟨fun _ declaration found => (declares declaration).2 (inside found),
      fun declaration declared => parsed declaration ((declares declaration).1 declared),
      fun declaration declared => known declaration ((declares declaration).1 declared), inheritsEnd,
      fun declaration => Scope.acc_partOf embedsEnd (inheritsEnd declaration)⟩
  rw [Session.analyze_ok_iff isRegistered, isRegistered.scope]
  constructor
  · intro admissible declaration member _
    obtain ⟨above, isLineage⟩ := framed.exists_lineage ((declares declaration).2 member)
    exact ⟨above, isLineage, framed.coherent ((declares declaration).2 member) isLineage admissible⟩
  · intro coherent
    refine framed.admissible ?_ ?_ ?_
    · exact fun declaration declared => hashed declaration ((declares declaration).1 declared)
    · exact fun first second id isFirst isSecond =>
        distinct first ((declares first).1 isFirst) second ((declares second).1 isSecond) id
    · intro declaration declared isClass above isLineage
      obtain ⟨_, again, isCoherent⟩ := coherent declaration ((declares declaration).1 declared) isClass
      cases again.unique isLineage
      exact isCoherent

/-- A chain of three classes with an overridden method and a struct held twice. -/
def sampleChain : Text := "@flatjs struct P\x7bx:int32; @get(SELF)\x7breturn 1;\x7d\x7d@end
@flatjs class A\x7bp:P; @virtual area(SELF)\x7breturn 1;\x7d\x7d@end
@flatjs class B extends A\x7bq:P; @method grow(SELF)\x7breturn 2;\x7d\x7d@end
@flatjs class C extends B\x7bx:float64; @virtual area(SELF)\x7breturn 3;\x7d
@method grow(SELF)\x7breturn 4;\x7d\x7d@end".toList

def sampleClasses : Except Failure (List String) := do
  let document ← Document.read "sample" sampleChain
  let registered ← Session.empty.registerAll document.declarations
  let (.ok (), _) := registered.analyze | return []
  return (document.declarations.filter Declaration.isClass).map Declaration.name

theorem accepted_iff_coherent_sample : ∃ document registered,
    Document.read "sample" sampleChain = .ok document ∧
    Session.empty.registerAll document.declarations = .ok registered ∧
    (document.declarations.filter Declaration.isClass).map Declaration.name = ["A", "B", "C"] ∧
    ∀ declaration ∈ document.declarations, declaration.isClass = true → ∃ above,
      (Scope.ofList document.declarations).Lineage declaration (declaration :: above) ∧
        Scope.Coherent declaration above := by
  have accepted : sampleClasses = .ok ["A", "B", "C"] := by decide +kernel
  obtain ⟨document, read, accepted⟩ := exists_of_bind_eq_ok accepted
  obtain ⟨registered, registers, accepted⟩ := exists_of_bind_eq_ok accepted
  split at accepted
  · next analysed analysing =>
    have isRegistered := Session.registerAll_ok registers
    have admissible := (Session.analyze_ok_iff isRegistered).1
      ⟨analysed, analysing⟩
    rw [isRegistered.scope] at admissible
    have declares := isRegistered.declares
    have grounded := fun declaration member =>
      admissible.grounded declaration ((declares declaration).2 member)
    refine ⟨document, registered, read, registers, Except.ok.inj accepted, ?_⟩
    refine (accepted_iff_coherent (fun declaration member => ⟨_, _, document, read, member⟩)
      registers (fun declaration member => admissible.known declaration ((declares _).2 member))
      ?_ ?_ (fun declaration member => admissible.hashed declaration ((declares _).2 member))
      (fun first isFirst second isSecond id => admissible.distinct first second id
        ((declares _).2 isFirst) ((declares _).2 isSecond))).1 ⟨analysed, analysing⟩
    · intro declaration member cycle
      refine Analysis.not_self_of_acc (grounded declaration member) (TransGen.mono ?_ _ _ cycle)
      rintro inner outer ⟨isField, plain, known, struct⟩
      exact .field isField plain known struct
    · intro declaration member cycle
      exact Analysis.not_self_of_acc (grounded declaration member)
        (TransGen.mono (fun _ _ extended => .base extended) _ _ cycle)
  · cases accepted

end FlatMemory
