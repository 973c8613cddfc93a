import FlatMemory.Proofs.Code.Accessor
import FlatMemory.Proofs.Session.History
import FlatMemory.Proofs.Session.Inheritance

/-! # Array elements

The address of an element is written as a sum of products, which is read here as the number it
stands for.  Whatever calls a session has seen, the slots that an array form touches at different
indices share no byte.  They are aligned if the array is, unless its elements are synchronic cells of
a type narrower than a word: these cells ask for the alignment of their header, and their size is not
a multiple of it. -/

namespace FlatMemory

variable {session : Session} {access : Access}

namespace Emit

inductive Factor where
  | operand (expression : Text)
  | number (n : Nat)

abbrev Sum := List (List Factor)

def Factor.written : Factor → Text
  | operand expression => Emit.operand expression
  | number n => Emit.number n

/-- The number that a factor stands for, given those of the expressions. -/
def Factor.value (values : Text → Nat) : Factor → Nat
  | operand expression => values expression
  | number n => n

def Sum.written (sum : Sum) : Text :=
  "(".toList
    ++ " + ".toList.intercalate (sum.map fun product =>
      " * ".toList.intercalate (product.map Factor.written))
    ++ ")".toList

def Sum.value (values : Text → Nat) (sum : Sum) : Nat :=
  sum.foldr (fun product rest =>
    product.foldr (fun factor rest => factor.value values * rest) 1 + rest) 0

def elementSum (base index : Text) (stride offset : Nat) : Sum :=
  [[.operand base], [.number stride, .operand index]]
    ++ if offset = 0 then [] else [[.number offset]]

theorem elementAddress_eq (base index : Text) (stride offset : Nat) :
    elementAddress base index stride offset = (elementSum base index stride offset).written := by
  unfold elementAddress elementSum Sum.written
  by_cases none : offset = 0
  · simp [none, Factor.written, List.intercalate]
  · simp [none, Factor.written, List.intercalate]

theorem value_elementSum (values : Text → Nat) (base index : Text) (stride offset : Nat) :
    (elementSum base index stride offset).value values =
      values base + stride * values index + offset := by
  unfold elementSum Sum.value
  by_cases none : offset = 0
  · simp [none, Factor.value]
  · simp [none, Factor.value]
    omega

end Emit

/-! ### Strides -/

/-- Whether a target is a synchronic cell of a type narrower than a word. -/
def Target.isNarrowCell : Target → Bool
  | primitive (.synchronic type) => type.shift < 2
  | _ => false

theorem Primitive.align_dvd_size_iff (type : Primitive) :
    type.align ∣ type.size ↔ (Target.primitive type).isNarrowCell = false := by
  cases type with
  | scalar type => exact iff_of_true (Nat.dvd_refl _) rfl
  | simd type => exact iff_of_true (Nat.dvd_refl _) rfl
  | atomic type => exact iff_of_true (Nat.dvd_refl _) rfl
  | synchronic type => cases type <;> decide

namespace Session

variable {type : UserType} {ref : TypeRef} {path : List String}

theorem Lasting.slots_within (lasting : Lasting session) {index : Nat}
    (found : session.types[index]? = some type) :
    (∀ slot ∈ type.slots, (session.slotAlign slot ∣ slot.offset ∧
      session.slotAlign slot ∣ type.align) ∧ slot.offset + session.slotSize slot ≤ type.size) ∧
    (type.isClass = false → type.align ∣ type.size) := by
  unfold UserType.slots UserType.align UserType.size
  cases recorded : type.layout with
  | none => simp
  | some layout =>
    have firm := lasting.laid index layout ((layoutAt_eq found).trans recorded)
    obtain ⟨encloses, rounded⟩ := lasting.consistent.encloses firm.acc type layout found recorded
    exact ⟨fun slot member => ⟨encloses.aligned slot member, encloses.within slot member⟩, rounded⟩

theorem ofType_structure (same : Target.ofType session ref = .structure type) :
    ∃ index : Nat, session.types[index]? = some type ∧ type.isClass = false := by
  unfold Target.ofType at same
  split at same
  · cases same
  · next index =>
    split at same
    · next other found =>
      split at same
      · cases same
      · next notClass =>
        cases same
        exact ⟨index, found, by simpa using notClass⟩
    · cases same

theorem resolveInElement?_cases {element : Target}
    (resolved : session.resolveInElement? element path = some access) :
    (access.target = element ∧ access.offset = 0) ∨
    ∃ type slot, element = .structure type ∧ slot ∈ type.slots ∧
      access.target = Target.ofSlot session slot ∧ access.offset = slot.offset := by
  unfold resolveInElement? at resolved
  split at resolved
  · next type =>
    unfold resolveInType? at resolved
    split at resolved
    · next count slot found =>
      obtain ⟨_, _, rfl⟩ := Option.map_eq_some_iff.1 resolved
      have known := (UserType.longestField?_eq_some found).1
      exact .inr ⟨type, slot, rfl, (UserType.slot?_eq_some known).1, rfl, rfl⟩
    · split at resolved
      · cases resolved
      · obtain ⟨_, _, rfl⟩ := Option.map_eq_some_iff.1 resolved
        exact .inl ⟨rfl, rfl⟩
  · obtain ⟨_, _, rfl⟩ := Option.map_eq_some_iff.1 resolved
    exact .inl ⟨rfl, rfl⟩

/-- An access in an element stays inside it and is aligned in it. -/
theorem Lasting.access_within (lasting : Lasting session)
    (resolved : session.resolveInElement? (Target.ofType session ref) path = some access) :
    access.target.align ∣ access.offset ∧
      access.target.align ∣ (Target.ofType session ref).align ∧
      access.offset + access.target.stride ≤ (Target.ofType session ref).stride := by
  rcases resolveInElement?_cases resolved with ⟨target, offset⟩ | ⟨type, slot, same, member, target,
    offset⟩
  · rw [target, offset]
    exact ⟨Nat.dvd_zero _, Nat.dvd_refl _, by omega⟩
  · obtain ⟨index, found, _⟩ := ofType_structure same
    obtain ⟨⟨aligned, ofType⟩, inside⟩ := (lasting.slots_within found).1 slot member
    rw [target, offset, same]
    exact ⟨aligned, ofType, inside⟩

/-- Only narrow synchronic cells have a size that is no multiple of their alignment. -/
theorem Lasting.align_dvd_stride_iff (lasting : Lasting session) (ref : TypeRef) :
    (Target.ofType session ref).align ∣ (Target.ofType session ref).stride ↔
      (Target.ofType session ref).isNarrowCell = false := by
  rcases same : Target.ofType session ref with type | _ | type
  · exact type.align_dvd_size_iff
  · exact iff_of_true (Nat.dvd_refl _) rfl
  · obtain ⟨index, found, notClass⟩ := ofType_structure same
    exact iff_of_true ((lasting.slots_within found).2 notClass) rfl

end Session

/-! ### Array forms -/

namespace Accessor

variable {array : Target} {start : Nat} {arguments : List Argument}

theorem find_element {before : Option Char} {c : Char} {cs : Text}
    (formed : (find session before c cs).form = .call (.element array access) start arguments) :
    ∃ ref path, array = Target.ofType session ref ∧
      session.resolveInElement? array path = some access := by
  have seen := sees session before c cs
  generalize find session before c cs = found at seen formed
  cases seen with
  | literal | char | nameless => cases formed
  | @allocation marker =>
    have found := allocates session marker.taken marker.rest
    generalize allocation session marker.taken marker.rest = whole at found formed
    cases found <;> cases formed
  | accessor =>
    have found := accesses session (c :: cs)
    generalize accessor session (c :: cs) = whole at found formed
    cases found with
    | copied | refused => cases formed
    | call _ _ called =>
      cases formed
      cases standsFor_of_call? called with
      | element _ resolved => exact ⟨_, _, rfl, resolved⟩

end Accessor

def Access.address (access : Access) (array : Target) (base index : Nat) : Nat :=
  base + array.stride * index + access.offset

theorem Access.apart {array : Target} (inside : access.offset + access.target.stride ≤ array.stride)
    (base : Nat) {one other : Nat} (before : one < other) :
    access.address array base one + access.target.stride ≤ access.address array base other := by
  have next : array.stride * one + array.stride ≤ array.stride * other := by
    rw [← Nat.mul_succ]
    exact Nat.mul_le_mul_left array.stride before
  unfold address
  omega

/-- An array form writes the address of its slot as a sum.  The slots of an aligned array are aligned
exactly if it is no array of narrow synchronic cells, and those at different indices are apart. -/
theorem element_slots_aligned (calls : List Call) {before : Option Char} {c : Char} {cs : Text}
    {array : Target} {access : Access} {start : Nat} {arguments : List Argument}
    (found : (Accessor.find (Session.after calls) before c cs).form =
      .call (.element array access) start arguments) :
    (∀ base index further,
      (Accessor.Call.element array access).emit (base :: index :: further) =
        Emit.access access.target (Emit.elementSum base index array.stride access.offset).written
          access.operation further ∧
      ∀ values, (Emit.elementSum base index array.stride access.offset).value values =
        access.address array (values base) (values index)) ∧
    ((∀ base, array.align ∣ base → ∀ index,
      access.target.align ∣ access.address array base index) ↔ array.isNarrowCell = false) ∧
    ∀ base one other, one ≠ other →
      access.address array base one + access.target.stride ≤ access.address array base other ∨
        access.address array base other + access.target.stride ≤ access.address array base one := by
  have lasting := (Session.Standing.empty.calls calls).1.toLasting
  obtain ⟨ref, path, rfl, resolved⟩ := Accessor.find_element found
  obtain ⟨aligned, ofArray, inside⟩ := lasting.access_within resolved
  have stride := lasting.align_dvd_stride_iff ref
  refine ⟨?_, ⟨?_, ?_⟩, ?_⟩
  · intro base index further
    refine ⟨?_, fun values => Emit.value_elementSum values base index _ _⟩
    rw [← Emit.elementAddress_eq]
    rfl
  · intro all
    rcases Session.resolveInElement?_cases resolved with ⟨target, offset⟩ | ⟨type, _, same, _⟩
    · -- The second element of an array at address zero starts at the stride.
      have second := all 0 (Nat.dvd_zero _) 1
      rw [Access.address, target, offset, Nat.zero_add, Nat.mul_one, Nat.add_zero] at second
      exact stride.1 second
    · rw [same]
      rfl
  · intro wide base atBase index
    have whole := Nat.dvd_trans ofArray (stride.2 wide)
    exact Nat.dvd_add (Nat.dvd_add (Nat.dvd_trans ofArray atBase)
      (Nat.dvd_trans whole (Nat.dvd_mul_right _ index))) aligned
  · intro base one other different
    rcases Nat.lt_or_gt_of_ne different with less | more
    · exact .inl (Access.apart inside base less)
    · exact .inr (Access.apart inside base more)

def sampleElements : Text := "@flatjs struct I\x7ba:int8;s:int16.synchronic;\x7d@end
@flatjs struct S\x7bx:float64;i:I;\x7d@end".toList

def Accessor.Form.measures : Accessor.Form → Nat × Nat × Nat
  | .call (.element array access) _ _ => (array.align, array.stride, access.offset)
  | _ => (0, 0, 0)

theorem element_slots_aligned_sample : ∃ calls array access start arguments,
    (Accessor.find (Session.after calls) none 'S' ".Array.i.s.add(p, k, 1)".toList).form =
      .call (.element array access) start arguments ∧
    array.align = 8 ∧ array.stride = 24 ∧ access.offset = 12 ∧
    ((∀ base, array.align ∣ base → ∀ index,
      access.target.align ∣ access.address array base index) ↔ array.isNarrowCell = false) := by
  have ran : ((Document.read "sample" sampleElements).map fun document =>
      let session := Session.after (document.declarations.map Call.register ++ [Call.analyze])
      (Accessor.find session none 'S' ".Array.i.s.add(p, k, 1)".toList).form.measures) =
        Except.ok (8, 24, 12) := by
    decide +kernel
  obtain ⟨document, _, measured⟩ := exists_of_map_eq_ok ran
  dsimp only [Accessor.Form.measures] at measured
  split at measured
  · next array access start arguments found =>
    obtain ⟨align, measured⟩ := Prod.mk.inj measured
    obtain ⟨stride, offset⟩ := Prod.mk.inj measured
    exact ⟨_, array, access, start, arguments, found, align, stride, offset,
      (element_slots_aligned _ found).2.1⟩
  · cases measured

/-- The second cell of an array of bytes starts at address nine. -/
theorem narrow_cells_misaligned : ∃ array access start arguments,
    (Accessor.find (Session.after []) none 'i' "nt8.synchronic.Array(p, 1)".toList).form =
      .call (.element array access) start arguments ∧
    ((Session.after []).expandAccessors "sample"
      (.plain "int8.synchronic.Array(p, 1)".toList)).result =
        .ok "FlatJS.syncLoad(_mem_int8, (p + 9 * 1))".toList ∧
    array.align ∣ 0 ∧ ¬ access.target.align ∣ access.address array 0 1 := by
  refine ⟨.primitive (.synchronic .int8), ⟨.primitive (.synchronic .int8), 0, .get, false⟩, 22,
    [⟨"p".toList, 0⟩, ⟨" 1".toList, 2⟩], ?_, ?_, ?_, ?_⟩
  · decide +kernel
  · decide +kernel
  · decide
  · decide

end FlatMemory
