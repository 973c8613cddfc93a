import FlatMemory.Proofs.Session.Containment
import FlatMemory.Session.Dispatch

/-! # Ancestors and subtrees

Without cycles the walks up and down the class hierarchy end before their bounds do, so ancestry
unfolds at the base and the subtree of a class holds exactly the classes that inherit from it. -/

namespace FlatMemory

open List Relation

/-- Finitely many places without an endless descent can be ranked below their number. -/
theorem exists_rank {size : Nat} {below : Nat → Nat → Prop}
    (inside : ∀ lower upper, below lower upper → lower < size)
    (grounded : ∀ place < size, Acc below place) :
    ∃ rank : Nat → Nat, (∀ lower upper, below lower upper → rank lower < rank upper) ∧
      ∀ place < size, rank place < size := by
  classical
  let lower : Nat → Finset Nat := fun upper =>
    (Finset.range size).filter fun place => TransGen below place upper
  have notSelf : ∀ place < size, ¬ TransGen below place place :=
    fun place bound => Analysis.not_self_of_acc (grounded place bound)
  refine ⟨fun upper => (lower upper).card, ?_, ?_⟩
  · intro first second step
    apply Finset.card_lt_card
    rw [Finset.ssubset_iff_of_subset]
    · refine ⟨first, ?_, ?_⟩
      · simp [lower, inside first second step, TransGen.single step]
      · simp [lower, notSelf first (inside first second step)]
    · intro place member
      simp only [lower, Finset.mem_filter] at member ⊢
      exact ⟨member.1, member.2.tail step⟩
  · intro place bound
    have strict : lower place ⊂ Finset.range size := by
      rw [Finset.ssubset_iff_of_subset (Finset.filter_subset _ _)]
      exact ⟨place, by simpa using bound, by simp [notSelf place bound]⟩
    simpa using Finset.card_lt_card strict

namespace Session

variable {session : Session} {index : Nat} {first second : Session} {derived base : Nat}

/-- The class at a place is the one at another place or inherits from it. -/
def Inherits (session : Session) (derived base : Nat) : Prop :=
  ReflTransGen (fun lower upper => session.baseAt lower = some upper) derived base

/-- What makes the walks through a hierarchy end and meet only classes that are there. -/
structure Wellformed (session : Session) : Prop where
  resolved : Resolved session
  grounded : Grounded session

theorem Wellformed.exists_rank (wellformed : Wellformed session) :
    ∃ rank : Nat → Nat, (∀ inner outer, session.PartOf inner outer → rank inner < rank outer) ∧
      ∀ index < session.types.length, rank index < session.types.length :=
  FlatMemory.exists_rank (fun _ _ => partOf_lt wellformed.resolved) wellformed.grounded

theorem Wellformed.agree (wellformed : Wellformed first)
    (same : Agree UserType.shape first second) :
    Wellformed second :=
  ⟨wellformed.resolved.agree same, wellformed.grounded.agree same⟩

/-! ### Ancestry -/

theorem ancestryUpTo_succ (session : Session) (steps index : Nat) :
    session.ancestryUpTo (steps + 1) index = index ::
      match session.baseAt index with
      | some base => session.ancestryUpTo steps base
      | none => [] := rfl

theorem ancestryUpTo_stable {rank : Nat → Nat}
    (ranked : ∀ inner outer, session.PartOf inner outer → rank inner < rank outer) :
    ∀ (steps more index : Nat), rank index < steps → rank index < more →
      session.ancestryUpTo steps index = session.ancestryUpTo more index := by
  intro steps
  induction steps with
  | zero => intro more index enough; omega
  | succ steps ih =>
    intro more index enough enoughMore
    obtain ⟨more, rfl⟩ : ∃ fewer, more = fewer + 1 := ⟨more - 1, by omega⟩
    rw [ancestryUpTo_succ, ancestryUpTo_succ]
    cases derived : session.baseAt index with
    | none => rfl
    | some base =>
      have lower := ranked base index (.inl derived)
      simp only [ih more base (by omega) (by omega)]

section

variable (wellformed : Wellformed session)

include wellformed

theorem Wellformed.ancestry_eq (inside : index < session.types.length) :
    session.ancestry index = index ::
      match session.baseAt index with
      | some base => session.ancestry base
      | none => [] := by
  obtain ⟨rank, ranked, bounded⟩ := wellformed.exists_rank
  unfold ancestry
  obtain ⟨steps, sized⟩ : ∃ steps, session.types.length = steps + 1 :=
    ⟨session.types.length - 1, by omega⟩
  rw [sized, ancestryUpTo_succ]
  cases derived : session.baseAt index with
  | none => rfl
  | some base =>
    have lower := ranked base index (.inl derived)
    have := bounded index inside
    have stable := ancestryUpTo_stable ranked steps (steps + 1) base (by omega) (by omega)
    simp only [stable]

/-- Induction along the base classes of a class. -/
theorem Wellformed.base_induction {motive : Nat → Prop} (step : ∀ index < session.types.length,
      (∀ base, session.baseAt index = some base → motive base) → motive index) :
    ∀ index < session.types.length, motive index := by
  intro index inside
  have grounded := wellformed.grounded index inside
  induction grounded with
  | intro index _ ih =>
    refine step index inside ?_
    intro base derived
    exact ih base (.inl derived) (wellformed.resolved.baseAt_lt derived)

theorem Wellformed.mem_ancestry (inside : index < session.types.length) (place : Nat) :
    place ∈ session.ancestry index ↔ session.Inherits index place := by
  refine wellformed.base_induction
    (motive := fun index => place ∈ session.ancestry index ↔ session.Inherits index place)
    ?_ index inside
  intro index inside ih
  rw [wellformed.ancestry_eq inside, Inherits, ReflTransGen.cases_head_iff, mem_cons]
  cases derived : session.baseAt index with
  | none => simp [eq_comm]
  | some base =>
    rw [ih base derived]
    simp [Inherits, eq_comm]

theorem Wellformed.inherits_lt (inside : derived < session.types.length)
    (inherits : session.Inherits derived base) : base < session.types.length := by
  induction inherits with
  | refl => exact inside
  | tail _ step _ => exact wellformed.resolved.baseAt_lt step

end

def level (session : Session) (index : Nat) : Nat := (session.ancestry index).length

theorem Wellformed.level_base (wellformed : Wellformed session)
    (inside : index < session.types.length) (derived : session.baseAt index = some base) :
    session.level index = session.level base + 1 := by
  simp [level, wellformed.ancestry_eq inside, derived]

theorem Wellformed.level_le (wellformed : Wellformed session)
    (inside : index < session.types.length) : session.level index ≤ session.types.length := by
  obtain ⟨rank, ranked, bounded⟩ := wellformed.exists_rank
  have ofRank : session.level index ≤ rank index + 1 := by
    refine wellformed.base_induction (motive := fun index => session.level index ≤ rank index + 1)
      ?_ index inside
    intro index inside ih
    cases derived : session.baseAt index with
    | none => simp [level, wellformed.ancestry_eq inside, derived]
    | some base =>
      have lower := ranked base index (.inl derived)
      have above := ih base derived
      rw [wellformed.level_base inside derived]
      omega
  have := bounded index inside
  omega

theorem Wellformed.level_inherits (wellformed : Wellformed session)
    (inside : derived < session.types.length) (inherits : session.Inherits derived base) :
    derived = base ∨ session.level base < session.level derived := by
  induction inherits with
  | refl => exact .inl rfl
  | @tail middle upper inherits step ih =>
    have climbed := wellformed.level_base (wellformed.inherits_lt inside inherits) step
    right
    rcases ih with same | lower
    · subst same
      omega
    · omega

theorem baseAt_rightUnique (session : Session) :
    Relator.RightUnique fun lower upper => session.baseAt lower = some upper := by
  intro lower one other isOne isOther
  rw [isOne] at isOther
  exact Option.some.inj isOther

theorem Wellformed.ancestor_unique (wellformed : Wellformed session) {first second : Nat}
    (inside : derived < session.types.length) (inFirst : session.Inherits derived first)
    (inSecond : session.Inherits derived second)
    (level : session.level first = session.level second) : first = second := by
  rcases ReflTransGen.total_of_right_unique session.baseAt_rightUnique inFirst inSecond with
    above | above
  · rcases wellformed.level_inherits (wellformed.inherits_lt inside inFirst) above with same | less
    · exact same
    · omega
  · rcases wellformed.level_inherits (wellformed.inherits_lt inside inSecond) above with
      same | less
    · exact same.symm
    · omega

/-! ### Subtrees -/

/-- Every type lists its direct subclasses, each once and in the order of registration. -/
def Linked (session : Session) : Prop :=
  ∀ (index : Nat) (type : UserType), session.types[index]? = some type → type.subclasses =
    (List.range session.types.length).filter fun sub => session.baseAt sub = some index

theorem baseAt_lt (derived : session.baseAt index = some base) : index < session.types.length := by
  obtain ⟨type, found, _⟩ := Option.bind_eq_some_iff.1 derived
  exact lt_of_getElem? found

theorem Linked.mem_subtreeUpTo_succ (linked : Linked session)
    (inside : index < session.types.length) (depth place : Nat) :
    place ∈ session.subtreeUpTo (depth + 1) index ↔
      place = index ∨
        ∃ sub, session.baseAt sub = some index ∧ place ∈ session.subtreeUpTo depth sub := by
  have found := getElem?_eq_getElem inside
  have subs := linked index _ found
  simp only [subtreeUpTo, found, Option.map_some, Option.getD_some, subs, mem_cons,
    mem_flatMap, mem_filter, mem_range, decide_eq_true_eq]
  constructor
  · rintro (same | ⟨sub, ⟨_, derived⟩, member⟩)
    · exact .inl same
    · exact .inr ⟨sub, derived, member⟩
  · rintro (same | ⟨sub, derived, member⟩)
    · exact .inl same
    · exact .inr ⟨sub, ⟨baseAt_lt derived, derived⟩, member⟩

section

variable (wellformed : Wellformed session)

include wellformed

theorem Wellformed.mem_subtreeUpTo (linked : Linked session) (place : Nat) :
    ∀ (depth index : Nat), index < session.types.length →
      session.types.length < depth + session.level index →
      (place ∈ session.subtreeUpTo depth index ↔
        place < session.types.length ∧ session.Inherits place index) := by
  intro depth
  induction depth with
  | zero =>
    intro index inside enough
    have := wellformed.level_le inside
    omega
  | succ depth ih =>
    intro index inside enough
    rw [linked.mem_subtreeUpTo_succ inside]
    constructor
    · rintro (same | ⟨sub, derived, member⟩)
      · subst same
        exact ⟨inside, ReflTransGen.refl⟩
      · have subInside := baseAt_lt derived
        have climbed := wellformed.level_base subInside derived
        obtain ⟨placeInside, inherits⟩ := (ih sub subInside (by omega)).1 member
        exact ⟨placeInside, inherits.tail derived⟩
    · rintro ⟨placeInside, inherits⟩
      rcases ReflTransGen.cases_tail inherits with same | ⟨sub, inherits, derived⟩
      · exact .inl same.symm
      · have subInside := baseAt_lt derived
        have climbed := wellformed.level_base subInside derived
        exact .inr ⟨sub, derived, (ih sub subInside (by omega)).2 ⟨placeInside, inherits⟩⟩

theorem Wellformed.nodup_subtreeUpTo (linked : Linked session) :
    ∀ (depth index : Nat), index < session.types.length →
      session.types.length < depth + session.level index →
      (session.subtreeUpTo depth index).Nodup := by
  intro depth
  induction depth with
  | zero => intro index _ _; exact nodup_nil
  | succ depth ih =>
    intro index inside enough
    have found := getElem?_eq_getElem inside
    simp only [subtreeUpTo, found, Option.map_some, Option.getD_some, linked index _ found]
    have below : ∀ sub, session.baseAt sub = some index → sub < session.types.length ∧
        session.types.length < depth + session.level sub := by
      intro sub derived
      have climbed := wellformed.level_base (baseAt_lt derived) derived
      exact ⟨baseAt_lt derived, by omega⟩
    have members : ∀ sub, session.baseAt sub = some index → ∀ place,
        place ∈ session.subtreeUpTo depth sub →
          place < session.types.length ∧ session.Inherits place sub := by
      intro sub derived place member
      obtain ⟨subInside, subEnough⟩ := below sub derived
      exact (wellformed.mem_subtreeUpTo linked place depth sub subInside subEnough).1 member
    rw [nodup_cons, nodup_flatMap]
    refine ⟨?_, ?_, ?_⟩
    · intro member
      obtain ⟨sub, isSub, member⟩ := mem_flatMap.1 member
      have derived : session.baseAt sub = some index := by simpa using (mem_filter.1 isSub).2
      obtain ⟨_, inherits⟩ := members sub derived index member
      have climbed := wellformed.level_base (baseAt_lt derived) derived
      rcases wellformed.level_inherits inside inherits with same | lower
      · subst same
        omega
      · omega
    · intro sub isSub
      have derived : session.baseAt sub = some index := by simpa using (mem_filter.1 isSub).2
      obtain ⟨subInside, subEnough⟩ := below sub derived
      exact ih sub subInside subEnough
    · refine List.Pairwise.imp_of_mem ?_ (nodup_range.filter _)
      intro first second isFirst isSecond distinct place inFirst inSecond
      have firstDerived : session.baseAt first = some index := by
        simpa using (mem_filter.1 isFirst).2
      have secondDerived : session.baseAt second = some index := by
        simpa using (mem_filter.1 isSecond).2
      obtain ⟨placeInside, toFirst⟩ := members first firstDerived place inFirst
      obtain ⟨_, toSecond⟩ := members second secondDerived place inSecond
      have firstLevel := wellformed.level_base (baseAt_lt firstDerived) firstDerived
      have secondLevel := wellformed.level_base (baseAt_lt secondDerived) secondDerived
      exact distinct (wellformed.ancestor_unique placeInside toFirst toSecond (by omega))

theorem Wellformed.level_pos (inside : index < session.types.length) : 0 < session.level index := by
  simp [level, wellformed.ancestry_eq inside]

theorem Wellformed.mem_subtree (linked : Linked session) (inside : index < session.types.length)
    (place : Nat) :
    place ∈ session.subtree index ↔
      place < session.types.length ∧ session.Inherits place index := by
  have := wellformed.level_pos inside
  exact wellformed.mem_subtreeUpTo linked place _ index inside (by omega)

theorem Wellformed.nodup_subtree (linked : Linked session) (inside : index < session.types.length) :
    (session.subtree index).Nodup := by
  have := wellformed.level_pos inside
  exact wellformed.nodup_subtreeUpTo linked _ index inside (by omega)

end

end Session

end FlatMemory
