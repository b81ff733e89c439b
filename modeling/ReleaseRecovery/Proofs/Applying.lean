import ReleaseRecovery.Proofs.Placing
import ReleaseRecovery.Proofs.Writings

/-!
# What applying a plan does

Applying one release looks at the request to stop, finds the commit to tag or makes it, and tags it.
Whatever happens, a store in memory only gets refs and commits that it did not have.

## Main Definitions

* `PlannedRelease.draft` — the commit that is made for a release
* `commitFor` — the commit that a release is tagged at
* `ApplyOptions.Names` — the refs that a plan can have written
* `Memory.Adds` — a store in memory has got nothing but some refs, and commits at the end

## Main Statements

* `applyRelease_eq` — one release, step by step
* `applyRelease_eq_ok`, `applyBranch_eq_ok`, `applyPlan_eq_ok` — what has been done where it
  succeeded
* `keeps_applyPlan` — what every change keeps, applying a plan keeps
* `Memory.keeps_adds_applyPlan` — what applying a plan does to a store in memory, however it ends
-/

namespace ReleaseRecovery

/-! ### One release -/

/-- The commit that is made for a release, as the child of another one. -/
def PlannedRelease.draft (options : ApplyOptions) (parent : Option CommitId) (r : PlannedRelease) :
    NewCommit :=
  ⟨r.tree, parent, legacyMessage r.version, options.identity, options.time⟩

namespace ApplyOptions

/-- The full name of the tag of a release. -/
def tagRef (options : ApplyOptions) (r : PlannedRelease) : String :=
  "refs/tags/" ++ options.tagName r.version

/-- The full name of the branch. -/
def branchRef (options : ApplyOptions) : String := "refs/heads/" ++ options.legacyBranch

/-- A ref is one of those that a plan can have written: the tag of a release, or the branch. -/
def Names (options : ApplyOptions) (plan : ReleasePlan) (name : String) : Prop :=
  (∃ r ∈ plan.releases, name = options.tagRef r) ∨ name = options.branchRef

end ApplyOptions

/-- No tag is named like a branch. -/
theorem tag_ne_branch (tag branch : String) : "refs/tags/" ++ tag ≠ "refs/heads/" ++ branch := by
  intro h
  have hchars := congrArg String.toList h
  rw [String.toList_append, String.toList_append] at hchars
  have hsixth := congrArg (·[5]?) hchars
  simp at hsixth

theorem tagRef_ne_branchRef (options : ApplyOptions) (r : PlannedRelease) :
    options.tagRef r ≠ options.branchRef :=
  tag_ne_branch _ _

/-- One more release was tagged, at a commit that was there or has been made for it. -/
def Progress.add (options : ApplyOptions) (p : Progress) (r : PlannedRelease) (commit : CommitId)
    (update : RefUpdate) : Progress :=
  (if r.trunkCommit.isSome then p else p.addCommit r commit).addTag
    (options.tagName r.version) commit update

@[simp] theorem Progress.tags_add (options : ApplyOptions) (p : Progress) (r : PlannedRelease)
    (commit : CommitId) (update : RefUpdate) :
    (p.add options r commit update).tags =
      p.tags ++ [⟨options.tagName r.version, commit, update == .created⟩] := by
  unfold add
  split <;> rfl

variable {ρ : Type} [Repository ρ]

/-- The commit that a release is tagged at: the one that is planned, or one that is made for it. -/
def commitFor (options : ApplyOptions) (last : Option CommitId) (r : PlannedRelease) :
    Writing ρ CommitId :=
  match r.trunkCommit with
  | some commit => pure commit
  | none => Writing.createCommit (r.draft options last)

/-- Applying a release is to look at the request to stop, to find its commit, and to tag it. -/
theorem applyRelease_eq (options : ApplyOptions) (interrupt : Interrupt) (total : Nat)
    (p : Progress) (r : PlannedRelease) :
    (applyRelease options interrupt total p r : Writing ρ Progress) = do
      Writing.unlessRaised interrupt (.interrupted .apply p.tags.length (total - p.tags.length))
      let commit ← commitFor options p.last r
      let update ← Writing.createTag (options.tagName r.version) commit
      return p.add options r commit update := by
  unfold applyRelease commitFor Progress.add
  cases r.trunkCommit with
  | some commit => simp
  | none => simp [synthesize, PlannedRelease.draft]

/-! ### What succeeds -/

section Success

variable {options : ApplyOptions} {interrupt : Interrupt} {total : Nat} {s s' : Session ρ}

/-- A release that was applied was tagged at its commit. -/
theorem applyRelease_eq_ok {p p' : Progress} {r : PlannedRelease}
    (h : (applyRelease options interrupt total p r).after s = (.ok p', s')) :
    ∃ commit s₁ update, (commitFor options p.last r).after s.polled = (.ok commit, s₁) ∧
      (Writing.createTag (options.tagName r.version) commit).after s₁ = (.ok update, s') ∧
      p' = p.add options r commit update := by
  rw [applyRelease_eq] at h
  obtain ⟨_, s₁, hraised, h₁⟩ := Writing.after_bind_eq_ok_iff.1 h
  obtain ⟨commit, s₂, hcommit, h₂⟩ := Writing.after_bind_eq_ok_iff.1 h₁
  obtain ⟨update, s₃, htag, h₃⟩ := Writing.after_bind_eq_ok_iff.1 h₂
  obtain rfl : s.polled = s₁ := (Prod.mk.inj hraised).2
  rw [Writing.after_pure, Prod.mk.injEq, Except.ok.injEq] at h₃
  obtain ⟨rfl, rfl⟩ := h₃
  exact ⟨commit, s₂, update, hcommit, htag, rfl⟩

/-- The branch is written at the last commit that was made for a release, if one was. -/
theorem applyBranch_eq_ok {p : Progress} {branch : Option RefOutcome}
    (h : (applyBranch options interrupt total p).after s = (.ok branch, s')) :
    (p.last = none ∧ branch = none ∧ s' = s) ∨
      ∃ commit update, p.last = some commit ∧
        (Writing.createBranch options.legacyBranch commit).after s.polled = (.ok update, s') ∧
        branch = some ⟨options.legacyBranch, commit, update == .created⟩ := by
  unfold applyBranch at h
  cases hlast : p.last with
  | none =>
    rw [hlast, Writing.after_pure, Prod.mk.injEq, Except.ok.injEq] at h
    exact .inl ⟨rfl, h.1.symm, h.2.symm⟩
  | some commit =>
    rw [hlast] at h
    obtain ⟨_, s₁, hraised, h₁⟩ := Writing.after_bind_eq_ok_iff.1 h
    obtain ⟨update, s₂, hbranch, h₂⟩ := Writing.after_bind_eq_ok_iff.1 h₁
    obtain rfl : s.polled = s₁ := (Prod.mk.inj hraised).2
    rw [Writing.after_pure, Prod.mk.injEq, Except.ok.injEq] at h₂
    obtain ⟨rfl, rfl⟩ := h₂
    exact .inr ⟨commit, update, rfl, hbranch, rfl⟩

/-- A plan that was applied had its releases applied one after the other, and then the branch
written. -/
theorem applyPlan_eq_ok {plan : ReleasePlan} {report : ApplyReport}
    (h : (applyPlan options interrupt plan).after s = (.ok report, s')) :
    ∃ p s₁ branch, (plan.ordered.foldlM (applyRelease options interrupt plan.ordered.length)
        Progress.start).after s = (.ok p, s₁) ∧
      (applyBranch options interrupt plan.ordered.length p).after s₁ = (.ok branch, s') ∧
      report = ⟨p.tags, p.synthesized, branch, plan.skipped⟩ := by
  obtain ⟨p, s₁, hreleases, h₁⟩ := Writing.after_bind_eq_ok_iff.1 h
  obtain ⟨branch, s₂, hbranch, h₂⟩ := Writing.after_bind_eq_ok_iff.1 h₁
  rw [Writing.after_pure, Prod.mk.injEq, Except.ok.injEq] at h₂
  obtain ⟨rfl, rfl⟩ := h₂
  exact ⟨p, s₁, branch, hreleases, hbranch, rfl⟩

end Success

/-! ### What stays -/

section Keeps

variable {R : ρ → ρ → Prop} (refl : ∀ store, R store store)
  (trans : ∀ a b c, R a b → R b c → R a c)
  (hcommit : ∀ store c, R store (Repository.createCommit store c).2)
  {options : ApplyOptions} {interrupt : Interrupt} {total : Nat}

include refl trans hcommit

theorem keeps_applyRelease {r : PlannedRelease}
    (htag : ∀ store c, R store (Repository.createTag store (options.tagName r.version) c).2)
    (p : Progress) : (applyRelease options interrupt total p r).Keeps R := by
  rw [applyRelease_eq]
  refine (Writing.keeps_unlessRaised refl interrupt _).bind trans fun _ => ?_
  have hfor : (commitFor options p.last r).Keeps R := by
    unfold commitFor
    split
    · exact .pure refl _
    · exact Writing.keeps_add fun store => hcommit store _
  refine hfor.bind trans fun commit => ?_
  refine (Writing.keeps_add fun store => htag store commit).bind trans fun update => ?_
  exact .pure refl _

/-- Applying a plan keeps what is kept by making commits, by writing the tags of its releases, and
by writing the branch. -/
theorem keeps_applyPlan {plan : ReleasePlan}
    (htag : ∀ store, ∀ r ∈ plan.releases, ∀ c,
      R store (Repository.createTag store (options.tagName r.version) c).2)
    (hbranch : ∀ store c, R store (Repository.createBranch store options.legacyBranch c).2) :
    (applyPlan options interrupt plan).Keeps R := by
  unfold applyPlan
  have hfold : (plan.ordered.foldlM (applyRelease options interrupt plan.ordered.length)
      Progress.start).Keeps R := by
    refine .foldlM refl trans (fun p r hr => ?_) _
    have hr : r ∈ plan.releases := List.mem_mergeSort.1 hr
    exact keeps_applyRelease refl trans hcommit (fun store c => htag store r hr c) p
  refine hfold.bind trans fun p => ?_
  refine Writing.Keeps.bind trans ?_ fun branch => .pure refl _
  unfold applyBranch
  split
  · exact .pure refl _
  · refine (Writing.keeps_unlessRaised refl interrupt _).bind trans fun _ => ?_
    refine (Writing.keeps_add fun store => hbranch store _).bind trans fun update => ?_
    exact .pure refl _

end Keeps

/-! ### Stores in memory -/

namespace Memory

/-- A store in memory has got nothing but some refs of given names, which it did not have, and some
commits after those that it had. -/
structure Adds (names : String → Prop) (old new : Memory) : Prop where
  kept : KeepsRefs old.refs new.refs
  added : ∀ name c, new.refs.get? name = some c → old.refs.get? name = some c ∨ names name
  written : old.written <+: new.written

variable {names : String → Prop} {options : ApplyOptions}

theorem Adds.refl (m : Memory) : Adds names m m :=
  ⟨.refl m.refs, fun _ _ h => .inl h, List.prefix_rfl⟩

theorem Adds.trans {a b c : Memory} (h : Adds names a b) (h' : Adds names b c) :
    Adds names a c := by
  refine ⟨h.kept.trans h'.kept, ?_, h.written.trans h'.written⟩
  intro name target ht
  rcases h'.added name target ht with ht | hname
  · exact h.added name target ht
  · exact .inr hname

theorem Adds.mono {wider : String → Prop} {old new : Memory} (h : Adds names old new)
    (hwider : ∀ name, names name → wider name) : Adds wider old new :=
  ⟨h.kept, fun name c hc => (h.added name c hc).imp_right (hwider name), h.written⟩

theorem adds_createCommit (m : Memory) (c : NewCommit) : Adds names m (m.createCommit c).2 :=
  ⟨.refl m.refs, fun _ _ h => .inl h, List.prefix_append _ _⟩

/-- Writing a ref adds it, unless it is there; then it stays where it is. -/
theorem adds_writeRef {name : String} (hname : names name) (m : Memory) (target : CommitId) :
    Adds names m (m.writeRef name target).2 := by
  rw [writeRef_eq_place]
  refine ⟨keepsRefs_place m.refs name target, fun key c hc => ?_, List.prefix_rfl⟩
  rcases get?_or_eq_of_place hc with hold | rfl
  · exact .inl hold
  · exact .inr hname

/-- A ref that points elsewhere is not written. -/
theorem writeRef_of_ne {m : Memory} {name : String} {existing target : CommitId}
    (hne : existing ≠ target) (h : m.refs.get? name = some existing) :
    m.writeRef name target = (.error (.refConflict name existing target), m) := by
  rw [writeRef_eq_place, place_of_ne h hne]

theorem after_createTag (name : String) (target : CommitId) (s : Session Memory) :
    (Writing.createTag name target).after s =
      ((s.repo.writeRef ("refs/tags/" ++ name) target).1,
        ⟨(s.repo.writeRef ("refs/tags/" ++ name) target).2, .createTag name :: s.done⟩) := rfl

theorem after_createBranch (name : String) (target : CommitId) (s : Session Memory) :
    (Writing.createBranch name target).after s =
      ((s.repo.writeRef ("refs/heads/" ++ name) target).1,
        ⟨(s.repo.writeRef ("refs/heads/" ++ name) target).2, .createBranch name :: s.done⟩) := rfl

/-- However the applying of a plan ends, a store in memory has then got nothing but refs of that
plan, and some commits. -/
theorem keeps_adds_applyPlan (options : ApplyOptions) (interrupt : Interrupt)
    (plan : ReleasePlan) :
    (applyPlan options interrupt plan).Keeps (Adds (options.Names plan)) := by
  refine keeps_applyPlan Adds.refl (fun _ _ _ => Adds.trans) adds_createCommit ?_ ?_
  · intro m r hr c
    exact adds_writeRef (.inl ⟨r, hr, rfl⟩) m c
  · intro m c
    exact adds_writeRef (.inr rfl) m c

/-- Finding the commit of a release succeeds. It is the planned one, or it is made at the end of the
store. -/
theorem after_commitFor (options : ApplyOptions) (last : Option CommitId) (r : PlannedRelease)
    (s : Session Memory) :
    ∃ commit s', (commitFor options last r).after s = (.ok commit, s') ∧
      s'.repo.refs = s.repo.refs ∧
      ((r.trunkCommit = some commit ∧ s'.repo.written = s.repo.written) ∨
        (r.trunkCommit = none ∧
          s'.repo.written = s.repo.written ++ [⟨commit, r.draft options last⟩])) := by
  unfold commitFor
  cases htrunk : r.trunkCommit with
  | some commit => exact ⟨commit, s, rfl, rfl, .inl ⟨rfl, rfl⟩⟩
  | none => exact ⟨_, _, rfl, rfl, .inr ⟨rfl, rfl⟩⟩

end Memory

end ReleaseRecovery
