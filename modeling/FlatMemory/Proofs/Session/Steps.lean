import FlatMemory.Session.Basic

/-! # How steps of the analysis end

`Ends step session well badly`: started in `session`, the step ends with an answer and a session
in `well`, or with a failure and a session in `badly`.  One equation unfolds each kind of step, so
a stage is followed by rewriting; a walk over all types carries an invariant. -/

namespace FlatMemory

open List

def Failure.IsFault : Failure → Prop
  | fault _ _ _ => True
  | bug _ => False

namespace Analysis

variable {α β : Type} {well : α → Session → Prop} {badly : Failure → Session → Prop}
variable {session : Session}

def Ends (step : Analysis α) (session : Session) (well : α → Session → Prop)
    (badly : Failure → Session → Prop) : Prop :=
  match step.run session with
  | .ok answer reached => well answer reached
  | .error failure reached => badly failure reached

@[simp] theorem ends_pure (answer : α) (session : Session) :
    Ends (pure answer) session well badly ↔ well answer session := Iff.rfl

@[simp] theorem ends_get {well : Session → Session → Prop} (session : Session) :
    Ends get session well badly ↔ well session session := Iff.rfl

@[simp] theorem ends_modify {well : Unit → Session → Prop} (change : Session → Session)
    (session : Session) :
    Ends (modify change) session well badly ↔ well () (change session) := Iff.rfl

@[simp] theorem ends_modifyAt {well : Unit → Session → Prop} (index : Nat)
    (change : UserType → UserType) (session : Session) :
    Ends (modifyAt index change) session well badly ↔ well () (session.modifyAt index change) :=
  Iff.rfl

@[simp] theorem ends_bind {well : β → Session → Prop} (step : Analysis α) (next : α → Analysis β)
    (session : Session) :
    Ends (step >>= next) session well badly ↔
      Ends step session (fun answer reached => Ends (next answer) reached well badly) badly := by
  unfold Ends
  rw [EStateM.run_bind]
  cases step.run session <;> rfl

theorem Ends.mono {well' : α → Session → Prop} {badly' : Failure → Session → Prop}
    {step : Analysis α} (ends : Ends step session well badly)
    (better : ∀ answer reached, well answer reached → well' answer reached)
    (worse : ∀ failure reached, badly failure reached → badly' failure reached) :
    Ends step session well' badly' := by
  unfold Ends at ends ⊢
  cases result : step.run session with
  | ok answer reached => rw [result] at ends; exact better answer reached ends
  | error failure reached => rw [result] at ends; exact worse failure reached ends

theorem ends_ask {question : Session → Except Failure α}
    (answered : ∀ answer, question session = .ok answer → well answer session)
    (refused : ∀ failure, question session = .error failure → badly failure session) :
    Ends (ask question) session well badly := by
  unfold ask
  simp only [ends_bind, ends_get]
  cases result : question session with
  | ok answer => exact answered answer result
  | error failure => exact refused failure result

theorem ends_userAt {well : UserType → Session → Prop} {index : Nat}
    (inside : index < session.types.length)
    (found : ∀ type, session.types[index]? = some type → well type session) :
    Ends (userAt index) session well badly := by
  have present : session.types[index]? = some session.types[index] :=
    getElem?_eq_getElem inside
  apply ends_ask
  · intro type same
    simp only [Session.userAt, present, Except.ok.injEq] at same
    exact same ▸ found _ present
  · intro failure same
    simp [Session.userAt, present] at same

/-- What every step keeps, all steps keep. -/
theorem ends_forM {items : List α} {step : α → Analysis Unit} (invariant : List α → Session → Prop)
    (start : invariant [] session)
    (keeps : ∀ done item rest reached, items = done ++ item :: rest → invariant done reached →
      Ends (step item) reached (fun _ => invariant (done ++ [item])) badly) :
    Ends (items.forM step) session (fun _ => invariant items) badly := by
  have walk : ∀ rest done reached, items = done ++ rest → invariant done reached →
      Ends (rest.forM step) reached (fun _ => invariant items) badly := by
    intro rest
    induction rest with
    | nil =>
      intro done reached whole kept
      rw [append_nil] at whole
      exact whole ▸ kept
    | cons item rest ih =>
      intro done reached whole kept
      change Ends (step item >>= fun _ => rest.forM step) reached _ badly
      rw [ends_bind]
      refine (keeps done item rest reached whole kept).mono ?_ (fun _ _ failed => failed)
      intro _ next kept
      exact ih (done ++ [item]) next (by simpa using whole) kept
  exact walk items [] session rfl start

theorem ends_foldlM {items : List α} {step : β → α → Analysis β} {first : β}
    (invariant : List α → β → Session → Prop) (start : invariant [] first session)
    (keeps : ∀ done item rest value reached, items = done ++ item :: rest →
      invariant done value reached →
      Ends (step value item) reached (invariant (done ++ [item])) badly) :
    Ends (items.foldlM step first) session (invariant items) badly := by
  have walk : ∀ rest done value reached, items = done ++ rest → invariant done value reached →
      Ends (rest.foldlM step value) reached (invariant items) badly := by
    intro rest
    induction rest with
    | nil =>
      intro done value reached whole kept
      rw [append_nil] at whole
      exact whole ▸ kept
    | cons item rest ih =>
      intro done value reached whole kept
      rw [foldlM_cons, ends_bind]
      refine (keeps done item rest value reached whole kept).mono ?_ (fun _ _ failed => failed)
      intro next after kept
      exact ih (done ++ [item]) next after (by simpa using whole) kept
  exact walk items [] first session rfl start

/-- A walk over all types: the invariant speaks of the number of types dealt with. -/
theorem ends_forTypes {action : Nat → UserType → Analysis Unit} {size : Nat}
    (invariant : Nat → Session → Prop) (start : invariant 0 session)
    (sized : session.types.length = size)
    (length : ∀ count reached, invariant count reached → reached.types.length = size)
    (keeps : ∀ index type reached, index < size → invariant index reached →
      reached.types[index]? = some type →
      Ends (action index type) reached (fun _ => invariant (index + 1)) badly) :
    Ends (forTypes action) session (fun _ => invariant size) badly := by
  unfold forTypes
  simp only [ends_bind, ends_get, sized]
  refine (ends_forM (fun done => invariant done.length) start ?_).mono ?_ (fun _ _ failed => failed)
  · intro done index rest reached whole kept
    have counted : done.length = index := by
      have here := congrArg (fun items => items[done.length]?) whole
      have inside : done.length < size := by
        have := congrArg List.length whole
        simp only [length_range, length_append, length_cons] at this
        omega
      simpa [getElem?_range, inside] using here
    have inside : index < size := by
      have member : index ∈ List.range size := whole ▸ by simp
      simpa using member
    subst counted
    rw [ends_bind]
    refine ends_userAt (by rw [length _ _ kept]; exact inside) ?_
    intro type found
    simpa using keeps _ type reached inside kept found
  · intro _ reached kept
    simpa using kept

end Analysis

end FlatMemory
