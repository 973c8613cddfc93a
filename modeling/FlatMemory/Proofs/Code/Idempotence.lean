import FlatMemory.Proofs.Code.Literals

/-! # Expansion in one pass

What an expansion leaves is left alone by another one.  The exceptions are forms whose emitted code runs
into the text around it, and names of the runtime that are names of the program too. -/

namespace FlatMemory

open List

namespace Accessor

variable {session : Session} {before : Option Char}

/-- Whether every form in a text is clear and no argument ends in an open literal. -/
def settled (session : Session) (before : Option Char) (text : Text) : Bool :=
  match text with
  | [] => true
  | c :: cs =>
    let found := find session before c cs
    have fits := fits_find session before c cs
    have := Cut.rest_length_lt fits.whole fits.taken
    let inside : Bool := match form : found.form with
      | .call call start arguments => arguments.attach.all fun ⟨argument, member⟩ =>
        have := fits.arguments call start arguments form argument member
        !endsOpen argument.text.parts && settled session none argument.text
      | _ => true
    isClear session before found && inside && settled session found.cut.taken.getLast? found.cut.rest
termination_by text.length
decreasing_by
  all_goals assumption

theorem settled_cons {c : Char} {cs : Text} (isSettled : settled session before (c :: cs) = true) :
    isClear session before (find session before c cs) = true ∧
      settled session (find session before c cs).cut.taken.getLast? (find session before c cs).cut.rest =
        true ∧
      ∀ call start arguments, (find session before c cs).form = .call call start arguments →
        ∀ argument ∈ arguments, endsOpen argument.text.parts = false ∧
          settled session none argument.text = true := by
  rw [settled] at isSettled
  obtain ⟨here, rest⟩ := Bool.and_eq_true_iff.1 isSettled
  obtain ⟨clear, inside⟩ := Bool.and_eq_true_iff.1 here
  refine ⟨clear, rest, fun call start arguments formed argument member => ?_⟩
  dsimp only at inside
  split at inside
  · next found =>
    rw [formed] at found
    cases found
    have both := all_eq_true.1 inside ⟨argument, member⟩ (mem_attach _ _)
    simpa using both
  · next other => exact absurd formed (other call start arguments)

theorem inherited_settled (session : Session) :
    Inherited session session fun before text => settled session before text = true := by
  intro before c cs isSettled
  obtain ⟨clear, rest, inside⟩ := settled_cons isSettled
  exact ⟨fun _ => clear, fun _ => rest, inside⟩

end Accessor

/-- A second expansion changes nothing if the text is settled: no emitted code runs into the text around
it, no argument ends in an open literal, and no slot has the name of a function of the runtime that is
called on its type. -/
theorem expansion_idempotent {declarations : List Declaration} {session : Session}
    (accepts : Accepts declarations session) {file other : String} {pasted : Pasted} {output : Text}
    (settled : Accessor.settled session none pasted.text = true)
    (expanded : (session.expandAccessors file pasted).result = .ok output) :
    (session.expandAccessors other (.plain output)).result = .ok output := by
  have stable : Accessor.Stable session none pasted.text output :=
    Accessor.stable_expand (by rintro _ ⟨⟩; rfl) accepts.loaded.named accepts.readable.named
      (Accessor.inherited_settled session) settled expanded
  obtain ⟨parts, passes, _⟩ := stable.passes
  exact @Accessor.Passes.expand none parts ⟨session, other, .plain output⟩ output passes 0

/-- Forms in forms, one that stands for its argument, a comment in an argument and a near miss. -/
def sampleForms : Text := "V.n.add(V.ref(p), \"]\" // (
+ C.v.n(@new C)), V.get((a, b)), V.n(p, q)".toList

def sampleOperations : Text := "(_mem_int32[(p + 8) >> 2] += \"]\" // (
+ _mem_int32[((C.initInstance(FlatJS.allocOrThrow(24, 8))) + 16) >> 2]), V._get_impl(a, b), V.n(p, q)".toList

theorem expansion_idempotent_sample : ∃ declarations session, Accepts declarations session ∧
    Accessor.settled session none sampleForms = true ∧
    (session.expandAccessors "sample" (.plain sampleForms)).result = .ok sampleOperations ∧
    (session.expandAccessors "sample" (.plain sampleOperations)).result = .ok sampleOperations := by
  have accepted : (do
      let document ← Document.read "sample" sampleTypes
      let session ← Session.ofDocuments [document]
      let output ← (session.expandAccessors "sample" (.plain sampleForms)).result
      return (Accessor.settled session none sampleForms, output)) =
        Except.ok (true, sampleOperations) := by
    decide +kernel
  obtain ⟨document, read, accepted⟩ := exists_of_bind_eq_ok accepted
  obtain ⟨session, analysed, accepted⟩ := exists_of_bind_eq_ok accepted
  obtain ⟨output, expanded, answer⟩ := exists_of_bind_eq_ok accepted
  obtain ⟨isSettled, same⟩ := Prod.mk.inj (Except.ok.inj answer)
  rw [same] at expanded
  have accepts := Accepts.ofDocument read analysed
  exact ⟨_, session, accepts, isSettled, expanded, expansion_idempotent accepts isSettled expanded⟩

def sampleClashes : Text := "@flatjs struct S\x7b_get_impl:int32;\x7d@end
@flatjs class T\x7binitInstance:int32;\x7d@end
@flatjs struct V\x7bx:int32;\x7d@end".toList

def repeatedExpansions : List (Text × Text × Text) := [
  ("S.get(p)".toList, "S._get_impl(p)".toList, "_mem_int32[p >> 2]".toList),
  ("@new T".toList, "T.initInstance(FlatJS.allocOrThrow(8, 4))".toList,
    "_mem_int32[((FlatJS.allocOrThrow(8, 4)) + 4) >> 2]".toList),
  ("V.ref(V).x(p)".toList, "V.x(p)".toList, "_mem_int32[p >> 2]".toList),
  ("@V.ref(new) V".toList, "@new V".toList, "FlatJS.allocOrThrow(4, 4)".toList),
  ("@new V@new V".toList, "FlatJS.allocOrThrow(4, 4)@new V".toList,
    "FlatJS.allocOrThrow(4, 4)FlatJS.allocOrThrow(4, 4)".toList),
  ("V.x(int32.Array.ref(q // c\n, i), r\n)))".toList, "V.x(((q // c) + 4 * i), r\n)))".toList,
    "_mem_int32[((q // c) + 4 * i), r\n)) >> 2]".toList)]

/-- A second expansion replaces what the first one emitted, or what came to stand next to it. -/
theorem expansion_repeated : ∃ declarations session, Accepts declarations session ∧
    ∀ texts ∈ repeatedExpansions,
      (session.expandAccessors "sample" (.plain texts.1)).result = .ok texts.2.1 ∧
      (session.expandAccessors "sample" (.plain texts.2.1)).result = .ok texts.2.2 ∧
      texts.2.2 ≠ texts.2.1 := by
  have accepted : (do
      let document ← Document.read "sample" sampleClashes
      let session ← Session.ofDocuments [document]
      return repeatedExpansions.all fun texts =>
        decide ((session.expandAccessors "sample" (.plain texts.1)).result = .ok texts.2.1 ∧
          (session.expandAccessors "sample" (.plain texts.2.1)).result = .ok texts.2.2 ∧
          texts.2.2 ≠ texts.2.1)) = Except.ok true := by
    decide +kernel
  obtain ⟨document, read, accepted⟩ := exists_of_bind_eq_ok accepted
  obtain ⟨session, analysed, answer⟩ := exists_of_bind_eq_ok accepted
  refine ⟨_, session, Accepts.ofDocument read analysed, fun texts member => ?_⟩
  exact of_decide_eq_true (List.all_eq_true.1 (Except.ok.inj answer) texts member)

end FlatMemory
