import FlatMemory.Proofs.Code.Accessor
import FlatMemory.Proofs.Code.Paste

/-! # What a batch can fail over

Each stage keeps the promises that the later ones rely on.  So a batch ends with outputs, with a
fault of the program or with a wrong path, and never with an internal error. -/

namespace FlatMemory

variable {α ε δ : Type} {result : Except ε α} {f : ε → δ}

theorem Failure.IsFault.toError_ne {failure : Failure} (isFault : failure.IsFault)
    (message : String) : failure.toError ≠ .internal message := by
  cases failure with
  | fault cause file line => simp [toError]
  | bug broken => cases isFault

theorem exists_of_mapError_eq_error {error : δ} (mapped : result.mapError f = .error error) :
    ∃ first, result = .error first ∧ f first = error := by
  cases result with
  | ok answer => cases mapped
  | error first => exact ⟨first, rfl, Except.error.inj mapped⟩

theorem exists_of_mapError_eq_ok {answer : α} (mapped : result.mapError f = .ok answer) :
    result = .ok answer := by
  cases result with
  | ok first => exact congrArg _ (Except.ok.inj mapped)
  | error first => cases mapped

theorem Answers.toError_ne {result : Except Failure α} {well : α → Prop}
    (answers : Answers result well) (message : String) :
    result.mapError Failure.toError ≠ .error (.internal message) := by
  intro failed
  obtain ⟨failure, found, same⟩ := exists_of_mapError_eq_error failed
  exact (answers.isFault found).toError_ne message same

theorem answers_read (file : String) (source : Text) :
    Answers (Document.read file source) fun _ => True := by
  unfold Document.read
  split
  · trivial
  · split <;> trivial

namespace Session

theorem answers_registerAll (session : Session) (declarations : List Declaration) :
    Answers (session.registerAll declarations) fun _ => True := by
  refine answers_foldlM (fun declaration _ reached => ?_) session
  rw [answers_map]
  unfold register
  split <;> trivial

theorem answers_ofDocuments (documents : List Document) :
    Answers (ofDocuments documents) fun _ => True := by
  unfold ofDocuments
  rw [answers_bind]
  cases registering : empty.registerAll (documents.flatMap Document.declarations) with
  | error failure => exact (empty.answers_registerAll _).isFault registering
  | ok registered =>
    rcases analysing : registered.analyze with ⟨failure | _, reached⟩
    · simp only [Answers, analysing]
      exact (analyze_error (registerAll_ok registering) analysing).1
    · simp only [Answers, analysing]
      trivial

theorem answers_expandDocument {documents : List Document} {session : Session}
    (read : ∀ document ∈ documents, ∃ file source, Document.read file source = .ok document)
    (accepted : ofDocuments documents = .ok session) {document : Document}
    (member : document ∈ documents) :
    Answers (session.expandDocument document).result fun _ => True := by
  obtain ⟨file, source, isRead⟩ := read document member
  obtain ⟨_, pieces, _, _, rfl⟩ := Document.read_ok isRead
  have accepts := Accepts.ofDocuments read accepted
  unfold expandDocument
  rw [Warned.answers_bind]
  refine (accepts.answers_paste ?_).mono fun pasted _ => ?_
  · intro declaration listed
    exact List.mem_flatMap.2 ⟨_, member, listed⟩
  · exact Accessor.answers_expand _ _ _ _

end Session

theorem compile_ne_internal (sources : List Source) (options : Options) (message : String) :
    compile sources options ≠ .error (.internal message) := by
  intro failed
  unfold compile at failed
  rcases exists_of_bind_eq_error failed with failed | ⟨paths, _, failed⟩
  · obtain ⟨source, _, failed⟩ := exists_of_mapM_eq_error failed
    unfold outputPath at failed
    split at failed <;> cases failed
  rcases exists_of_bind_eq_error failed with failed | ⟨documents, reading, failed⟩
  · obtain ⟨source, _, failed⟩ := exists_of_mapM_eq_error failed
    exact (answers_read _ _).toError_ne message failed
  have read : ∀ document ∈ documents, ∃ file source, Document.read file source = .ok document := by
    intro document member
    obtain ⟨source, _, found⟩ := exists_of_mem_mapM reading member
    exact ⟨_, _, exists_of_mapError_eq_ok found⟩
  rcases exists_of_bind_eq_error failed with failed | ⟨session, analysing, failed⟩
  · exact (Session.answers_ofDocuments documents).toError_ne message failed
  have accepted := exists_of_mapError_eq_ok analysing
  rcases exists_of_bind_eq_error failed with failed | ⟨texts, _, failed⟩
  · obtain ⟨expansion, member, failed⟩ := exists_of_mapM_eq_error failed
    obtain ⟨document, isDocument, rfl⟩ := List.mem_map.1 member
    exact (Session.answers_expandDocument read accepted isDocument).toError_ne message failed
  dsimp only at failed
  split at failed <;> cases failed

end FlatMemory
