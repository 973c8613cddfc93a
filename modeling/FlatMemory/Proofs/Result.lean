import FlatMemory.Result
import Mathlib.Data.List.Forall2

/-! # Walks that can fail

What a walk over a list says about its steps when it succeeds, and which step is to blame when it
fails. -/

namespace FlatMemory

open List

variable {α β ε : Type} {results : List β}
variable {f : α → Except ε β} {items : List α}

theorem exists_of_bind_eq_error {result : Except ε α} {error : ε}
    (bound : (result >>= f) = .error error) :
    result = .error error ∨ ∃ a, result = .ok a ∧ f a = .error error := by
  cases result with
  | error first => exact .inl (by simpa [bind, Except.bind] using bound)
  | ok a => exact .inr ⟨a, rfl, bound⟩

theorem forall₂_of_mapM_eq_ok (mapped : items.mapM f = .ok results) :
    List.Forall₂ (fun item result => f item = .ok result) items results := by
  induction items generalizing results with
  | nil =>
    rw [mapM_nil] at mapped
    cases mapped
    exact .nil
  | cons item items ih =>
    rw [mapM_cons] at mapped
    obtain ⟨first, firstOk, mapped⟩ := exists_of_bind_eq_ok mapped
    obtain ⟨later, laterOk, mapped⟩ := exists_of_bind_eq_ok mapped
    cases mapped
    exact .cons firstOk (ih laterOk)

theorem mapM_eq_ok_of_forall₂
    (each : List.Forall₂ (fun item result => f item = .ok result) items results) :
    items.mapM f = .ok results := by
  induction each with
  | nil => rfl
  | cons first _ ih =>
    rw [mapM_cons, first, ih]
    rfl

theorem exists_of_mem_forall₂ {related : α → β → Prop} {others : List β}
    (each : List.Forall₂ related items others) {item : α} (member : item ∈ items) :
    ∃ other ∈ others, related item other := by
  induction each with
  | nil => cases member
  | cons first _ ih =>
    rcases mem_cons.1 member with rfl | member
    · exact ⟨_, mem_cons_self, first⟩
    · obtain ⟨other, isOther, found⟩ := ih member
      exact ⟨other, mem_cons_of_mem _ isOther, found⟩

theorem exists_of_mem_mapM (mapped : items.mapM f = .ok results) {result : β}
    (member : result ∈ results) : ∃ item ∈ items, f item = .ok result :=
  exists_of_mem_forall₂ (forall₂_of_mapM_eq_ok mapped).flip member

theorem exists_of_mapM_eq_error {error : ε} (mapped : items.mapM f = .error error) :
    ∃ item ∈ items, f item = .error error := by
  induction items with
  | nil => rw [mapM_nil] at mapped; cases mapped
  | cons item items ih =>
    rw [mapM_cons] at mapped
    rcases exists_of_bind_eq_error mapped with failed | ⟨first, _, mapped⟩
    · exact ⟨item, mem_cons_self, failed⟩
    · rcases exists_of_bind_eq_error mapped with failed | ⟨later, _, mapped⟩
      · obtain ⟨culprit, member, failed⟩ := ih failed
        exact ⟨culprit, mem_cons_of_mem _ member, failed⟩
      · cases mapped

theorem forM_eq_ok_iff {f : α → Except ε Unit} :
    items.forM f = .ok () ↔ ∀ item ∈ items, f item = .ok () := by
  induction items with
  | nil => exact ⟨fun _ => by simp, fun _ => rfl⟩
  | cons item items ih =>
    rw [forall_mem_cons, ← ih]
    change (f item >>= fun _ => items.forM f) = _ ↔ _
    cases f item with
    | error _ => simp [bind, Except.bind]
    | ok _ => simp [bind, Except.bind]

theorem exists_of_forM_eq_error {f : α → Except ε Unit} {error : ε}
    (walked : items.forM f = .error error) : ∃ item ∈ items, f item = .error error := by
  induction items with
  | nil => cases walked
  | cons item items ih =>
    rcases exists_of_bind_eq_error (show (f item >>= fun _ => items.forM f) = _ from walked) with
      failed | ⟨_, _, walked⟩
    · exact ⟨item, mem_cons_self, failed⟩
    · obtain ⟨culprit, member, failed⟩ := ih walked
      exact ⟨culprit, mem_cons_of_mem _ member, failed⟩

end FlatMemory
