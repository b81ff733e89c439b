import ReleaseRecovery.Git.Log
import ReleaseRecovery.Proofs.Refusals
import ReleaseRecovery.Repository.Memory

/-!
# What stores answer where they refuse

A store that refuses something says what it cannot find or cannot do, and only the log of a ref can
be refused because the ref is not there. So a failure that says anything else comes from the run.

## Main Definitions

* `Failure.isOfStore` — the failures that tell what a store cannot find or do
* `AnswersPlainly` — the stores of a kind say nothing else

## Main Statements

* `Memory.answersPlainly`, `Git.Store.answersPlainly`
-/

namespace ReleaseRecovery

/-- Whether a failure tells what a store cannot find or cannot do, a ref that is not there apart. -/
def Failure.isOfStore : Failure → Bool
  | objectNotFound _ | invalidObjectId _ | refConflict .. | store _ => true
  | _ => false

/-- Where a store of this kind refuses something, it says what it cannot find or cannot do. Only a
log is refused because its ref is not there. -/
def AnswersPlainly (ρ : Type) [Repository ρ] : Prop :=
  ∀ (store : ρ) action e, Refuses store action e →
    e.isOfStore = true ∨ ∃ ref, e = .refNotFound ref ∧ action = .log ref

section

variable {ρ : Type} [Repository ρ] {purpose : Action.Purpose}

theorem AnswersPlainly.not_isRefusal_missingScan (plain : AnswersPlainly ρ) {commit ref : String} :
    ¬ IsRefusal ρ purpose (.missingScan commit ref) := by
  rintro ⟨store, action, -, h⟩
  rcases plain store action _ h with hstore | ⟨_, hlog, -⟩
  · cases hstore
  · cases hlog

/-- A failure that a run comes to by itself is no refusal. -/
theorem AnswersPlainly.not_isRefusal (plain : AnswersPlainly ρ) {e : Failure}
    (h : e.isOfRun = true) : ¬ IsRefusal ρ purpose e := by
  rintro ⟨store, action, -, hrefuses⟩
  rcases plain store action e hrefuses with hstore | ⟨ref, rfl, -⟩
  · cases e <;> first | cases hstore; done | cases h
  · cases h

/-- Only where histories are collected a ref is not there. -/
theorem AnswersPlainly.purpose_of_refNotFound (plain : AnswersPlainly ρ) {ref : String}
    (h : IsRefusal ρ purpose (.refNotFound ref)) : purpose = .collecting := by
  obtain ⟨store, action, hpurpose, h⟩ := h
  rcases plain store action _ h with hstore | ⟨_, -, rfl⟩
  · cases hstore
  · exact hpurpose.symm

end

/-! ### Stores in memory -/

namespace Memory

theorem isOfStore_of_writeRef {m : Memory} {name : String} {target : CommitId} {e : Failure}
    (h : (m.writeRef name target).1 = .error e) : e.isOfStore = true := by
  obtain ⟨existing, -, -, rfl⟩ := writeRef_eq_error_iff.1 h
  rfl

theorem lookUp_error {α : Type} {missing : String → Failure} {m : SortedMap α} {key : String}
    {e : Failure} (h : lookUp missing m key = .error e) : e = missing key := by
  unfold lookUp at h
  split at h
  · cases h
  · exact (Except.error.inj h).symm

theorem answersPlainly : AnswersPlainly Memory := by
  intro m action e h
  cases h with
  | outage _ h => cases h
  | listRefs h => cases h
  | log h => exact .inr ⟨_, lookUp_error h, rfl⟩
  | commit h =>
    rw [lookUp_error (map_eq_error_iff.1 h)]
    exact .inl rfl
  | entries h =>
    rw [lookUp_error h]
    exact .inl rfl
  | createCommit h => cases h
  | createTag h => exact .inl (isOfStore_of_writeRef h)
  | createBranch h => exact .inl (isOfStore_of_writeRef h)

end Memory

/-! ### Stores of objects and refs -/

/-- If an answer is a refusal, it says what a store cannot find or cannot do. -/
def IsPlain {α : Type} (answer : Except Failure α) : Prop :=
  ∀ e, answer = .error e → e.isOfStore = true

namespace IsPlain

variable {α β : Type}

theorem ok (a : α) : IsPlain (.ok a) := by
  intro e h
  cases h

theorem error {e : Failure} (h : e.isOfStore = true) : IsPlain (.error e : Except Failure α) := by
  intro e' h'
  exact Except.error.inj h' ▸ h

theorem bind {x : Except Failure α} {f : α → Except Failure β} (h : IsPlain x)
    (hf : ∀ a, IsPlain (f a)) : IsPlain (x >>= f) := by
  intro e he
  rcases bind_eq_error_iff.1 he with hx | ⟨a, -, ha⟩
  · exact h e hx
  · exact hf a e ha

end IsPlain

namespace Git.Store

variable {s : Store}

theorem isPlain_parseId (given : String) : IsPlain (parseId given) := by
  unfold parseId
  split
  · exact .ok _
  · exact .error rfl

theorem isPlain_find {α : Type} (s : Store) (kind : ObjectKind) (read? : Bytes → Option α) (id : Id)
    (given : String) : IsPlain (s.find kind read? id given) := by
  unfold find
  split
  · split
    · exact .error rfl
    · exact .error rfl
  · split
    · exact .error rfl
    · split
      · exact .ok _
      · exact .error rfl

theorem isPlain_commit (s : Store) (id : CommitId) : IsPlain (s.commit id) :=
  (isPlain_parseId id).bind fun _ => (isPlain_find s _ _ _ _).bind fun _ => .ok _

theorem isPlain_entries (s : Store) (id : TreeId) : IsPlain (s.entries id) :=
  (isPlain_parseId id).bind fun _ => (isPlain_find s _ _ _ _).bind fun _ => .ok _

theorem isPlain_draft (s : Store) (c : NewCommit) : IsPlain (s.draft c) := by
  unfold draft
  refine (isPlain_parseId c.tree).bind fun treeId => ?_
  have hparent : IsPlain (c.parent.mapM parseId) := by
    cases c.parent with
    | none => exact .ok none
    | some given => exact (isPlain_parseId given).bind fun _ => .ok _
  refine hparent.bind fun parentId => ?_
  split
  · exact .error rfl
  refine (isPlain_find s _ _ _ _).bind fun _ => ?_
  split
  · split
    · exact (isPlain_find s _ _ _ _).bind fun _ => .error rfl
    · exact .error rfl
  · split
    · exact (isPlain_find s _ _ _ _).bind fun _ => .ok _
    · exact .ok _

theorem isPlain_createCommit (s : Store) (c : NewCommit) : IsPlain (s.createCommit c).1 := by
  unfold createCommit
  split
  · exact .ok _
  · rename_i e h
    exact .error (isPlain_draft s c e h)

theorem isPlain_vacancy (s : Store) (name : String) (target : CommitId) :
    IsPlain (s.vacancy name target) := by
  unfold vacancy
  refine (isPlain_parseId target).bind fun id => ?_
  split
  · exact .error rfl
  split
  · exact .error rfl
  · exact (isPlain_find s _ _ _ _).bind fun _ => .ok _
  · split
    · exact .error rfl
    · split
      · exact .ok _
      · exact .error rfl

theorem isPlain_addRef (s : Store) (name : String) (target : Id) {failure : Failure}
    (h : failure.isOfStore = true) : IsPlain (s.addRef name target failure).1 := by
  unfold addRef
  split
  · exact .error h
  dsimp only
  split
  · exact .error h
  split
  · exact .error h
  split
  · exact .error h
  · exact .ok _

theorem isPlain_writeRef (s : Store) (name : String) (target : CommitId) :
    IsPlain (s.writeRef name target).1 := by
  unfold writeRef
  split
  · rename_i e h
    exact .error (isPlain_vacancy s name target e h)
  · exact .ok _
  · exact isPlain_addRef s _ _ rfl

/-- A log is refused because its ref is not there, or because something cannot be read. -/
theorem log_error {ref : String} {e : Failure} (h : s.log ref = .error e) :
    e.isOfStore = true ∨ e = .refNotFound ref := by
  rcases bind_eq_error_iff.1 h with htip | ⟨id, -, h⟩
  · unfold tip at htip
    split at htip
    · exact .inr (Except.error.inj htip).symm
    · cases htip
      exact .inl rfl
    · split at htip
      · cases htip
      · cases htip
        exact .inl rfl
  · split at h
    · cases h
    · cases h
      exact .inl rfl

theorem answersPlainly : AnswersPlainly Store := by
  intro s action e h
  cases h with
  | outage _ h => cases h
  | listRefs h => cases h
  | log h => exact (log_error h).imp_right fun he => ⟨_, he, rfl⟩
  | commit h => exact .inl (isPlain_commit s _ e h)
  | entries h => exact .inl (isPlain_entries s _ e h)
  | createCommit h => exact .inl (isPlain_createCommit s _ e h)
  | createTag h => exact .inl (isPlain_writeRef s _ _ e h)
  | createBranch h => exact .inl (isPlain_writeRef s _ _ e h)

end Git.Store

end ReleaseRecovery
