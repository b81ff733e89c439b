import ReleaseRecovery.Proofs.Applying

/-!
# Applying a plan once more

Of a store that is written to, what can be seen at one moment comes before what can be seen later
on, and whatever was written may be there ever after. Then a plan that was applied is applied once
more without any change that can be seen, in every later store, and the report is the same but for
what was new.

## Main Definitions

* `ApplyReport.settled` — a report, as if all of its refs had been there before
* `ApplyReport.Matches` — a report is the same as another one, but for what is new
* `Writing.IsCompositional` — a relation of calculations holds of a whole if it holds of its parts
* `Lasts` — a request that has succeeded succeeds ever after
* `Remembers` — whatever was written to a store is found in every later one
* `Writing.RepeatedBy` — a calculation is repeated by another one in every later store

## Main Statements

* `Writing.IsCompositional.applyPlan` — a relation that holds of the parts of a plan holds of the
  plan
* `Remembers.isCompositional` — a calculation is repeated part by part
* `Remembers.applyPlan` — a plan that was applied is applied again without any change
-/

namespace ReleaseRecovery

/-! ### What is new -/

/-- The same ref, as if it had been there before. -/
def RefOutcome.settled (t : RefOutcome) : RefOutcome := { t with created := false }

theorem RefOutcome.settled_eq_self {t : RefOutcome} (h : t.created = false) : t.settled = t := by
  obtain ⟨name, commit, created⟩ := t
  cases h
  rfl

/-- The same progress, as if all refs had been there before. -/
def Progress.settled (p : Progress) : Progress := { p with tags := p.tags.map RefOutcome.settled }

/-- The same report, as if all refs had been there before. -/
def ApplyReport.settled (report : ApplyReport) : ApplyReport :=
  { report with
    tags := report.tags.map RefOutcome.settled
    legacyBranch := report.legacyBranch.map RefOutcome.settled }

theorem Progress.settled_add (options : ApplyOptions) (p : Progress) (r : PlannedRelease)
    (c : CommitId) (u : RefUpdate) :
    (p.add options r c u).settled = p.settled.add options r c .unchanged := by
  unfold add
  split <;> simp [settled, addTag, addCommit, RefOutcome.settled]

section Matches

variable {news : Prop}

/-- A second attempt has come as far as the first one. It has found something new only if that is
allowed. -/
structure Progress.Matches (news : Prop) (p p' : Progress) : Prop where
  settled_eq : p'.settled = p.settled
  allowed : ∀ t ∈ p'.tags, t.created = true → news

theorem Progress.Matches.last_eq {p p' : Progress} (h : p.Matches news p') : p'.last = p.last :=
  congrArg (·.last) h.settled_eq

theorem Progress.Matches.add {p p' : Progress} (h : p.Matches news p') (options : ApplyOptions)
    (r : PlannedRelease) (c : CommitId) {u u' : RefUpdate} (hu : u' = .created → news) :
    (p.add options r c u).Matches news (p'.add options r c u') where
  settled_eq := by rw [settled_add, settled_add, h.settled_eq]
  allowed := by
    rw [tags_add]
    intro t ht hcreated
    rcases List.mem_append.1 ht with ht | ht
    · exact h.allowed t ht hcreated
    · obtain rfl := List.mem_singleton.1 ht
      exact hu (eq_of_beq hcreated)

/-- The branch of a second attempt is that of the first one, and is new only if that is allowed. -/
structure BranchMatches (news : Prop) (branch branch' : Option RefOutcome) : Prop where
  settled_eq : branch'.map RefOutcome.settled = branch.map RefOutcome.settled
  allowed : ∀ t ∈ branch', t.created = true → news

/-- The report of a second attempt is that of the first one, but for what is new. There is something
new only if that is allowed. -/
structure ApplyReport.Matches (news : Prop) (report report' : ApplyReport) : Prop where
  settled_eq : report'.settled = report.settled
  tags : ∀ t ∈ report'.tags, t.created = true → news
  branch : ∀ t ∈ report'.legacyBranch, t.created = true → news

/-- If nothing new is allowed, the second report is the first one with all refs there before. -/
theorem ApplyReport.Matches.eq_settled {report report' : ApplyReport}
    (h : report.Matches False report') : report' = report.settled := by
  rw [← h.settled_eq]
  obtain ⟨tags, synthesized, branch, skipped⟩ := report'
  have htags : tags.map RefOutcome.settled = tags :=
    (List.map_congr_left fun t ht =>
      RefOutcome.settled_eq_self (Bool.eq_false_iff.2 (h.tags t ht))).trans (List.map_id _)
  have hbranch : branch.map RefOutcome.settled = branch := by
    cases branch with
    | none => rfl
    | some t =>
      have ht : t.created = false := Bool.eq_false_iff.2 (h.branch t rfl)
      exact congrArg some (RefOutcome.settled_eq_self ht)
  rw [settled, htags, hbranch]

end Matches

/-! ### Related calculations -/

namespace Writing

variable {ρ : Type} [Repository ρ]

/-- A relation between calculations that can be stopped and calculations that nobody stops, which
also says how their results are related. It holds of the parts that a plan consists of, and of a
whole if it holds of its parts. Refs need only have the given names. Where the first calculation
writes a ref, the second one may find that the ref is new only if news are allowed. -/
structure IsCompositional (names : String → Prop) (news : Prop)
    (Rel : ∀ {α : Type}, (α → α → Prop) → (Interrupt → Writing ρ α) → Writing ρ α → Prop) :
    Prop where
  pure {α : Type} {R : α → α → Prop} {a a' : α} : R a a' →
    Rel R (fun _ => Pure.pure a) (Pure.pure a')
  bind {α β : Type} {R : α → α → Prop} {R' : β → β → Prop} {w : Interrupt → Writing ρ α}
    {w' : Writing ρ α} {f : Interrupt → α → Writing ρ β} {f' : α → Writing ρ β} :
    Rel R w w' → (∀ a a', R a a' → Rel R' (f · a) (f' a')) →
      Rel R' (fun i => w i >>= f i) (w' >>= f')
  unlessRaised (e e' : Failure) :
    Rel Eq (Writing.unlessRaised · e) (Writing.unlessRaised .never e')
  createCommit (c : NewCommit) : Rel Eq (fun _ => Writing.createCommit c) (Writing.createCommit c)
  createTag (name : String) (target : CommitId) : names ("refs/tags/" ++ name) →
    Rel (fun _ u => u = RefUpdate.created → news) (fun _ => Writing.createTag name target)
      (Writing.createTag name target)
  createBranch (name : String) (target : CommitId) : names ("refs/heads/" ++ name) →
    Rel (fun _ u => u = RefUpdate.created → news) (fun _ => Writing.createBranch name target)
      (Writing.createBranch name target)

namespace IsCompositional

variable {names : String → Prop} {news : Prop}
  {Rel : ∀ {α : Type}, (α → α → Prop) → (Interrupt → Writing ρ α) → Writing ρ α → Prop}
  (h : IsCompositional names news Rel)

include h

theorem foldlM {α β : Type} {R : β → β → Prop} {f : Interrupt → β → α → Writing ρ β}
    {f' : β → α → Writing ρ β} {l : List α}
    (hf : ∀ b b', ∀ a ∈ l, R b b' → Rel R (f · b a) (f' b' a)) {b b' : β} (hb : R b b') :
    Rel R (fun i => l.foldlM (f i) b) (l.foldlM f' b') := by
  induction l generalizing b b' with
  | nil => exact h.pure hb
  | cons a l ih =>
    simp only [List.foldlM_cons]
    refine h.bind (hf b b' a List.mem_cons_self hb) fun b b' hb => ?_
    exact ih (fun b b' a' ha' => hf b b' a' (List.mem_cons_of_mem a ha')) hb

variable (options : ApplyOptions)

theorem commitFor (last : Option CommitId) (r : PlannedRelease) :
    Rel Eq (fun _ => commitFor options last r) (commitFor options last r) := by
  unfold ReleaseRecovery.commitFor
  cases r.trunkCommit with
  | some commit => exact h.pure rfl
  | none => exact h.createCommit _

theorem applyRelease {r : PlannedRelease} (hr : names (options.tagRef r)) (total : Nat)
    {p p' : Progress} (hp : p.Matches news p') :
    Rel (Progress.Matches news) (applyRelease options · total p r)
      (applyRelease options .never total p' r) := by
  simp only [applyRelease_eq, hp.last_eq]
  refine h.bind (h.unlessRaised _ _) fun _ _ _ => ?_
  refine h.bind (h.commitFor options p.last r) fun commit _ hcommit => ?_
  subst hcommit
  refine h.bind (h.createTag _ commit hr) fun u u' hu => ?_
  exact h.pure (hp.add options r commit hu)

theorem applyBranch (hbranch : names options.branchRef) (total : Nat) {p p' : Progress}
    (hp : p.Matches news p') :
    Rel (BranchMatches news) (applyBranch options · total p)
      (applyBranch options .never total p') := by
  unfold ReleaseRecovery.applyBranch
  rw [hp.last_eq]
  cases p.last with
  | none => exact h.pure ⟨rfl, nofun⟩
  | some commit =>
    refine h.bind (h.unlessRaised _ _) fun _ _ _ => ?_
    refine h.bind (h.createBranch _ commit hbranch) fun u u' hu => h.pure ⟨rfl, ?_⟩
    rintro _ ⟨⟩ hcreated
    exact hu (eq_of_beq hcreated)

/-- A relation that holds of the parts of a plan holds of the plan, with requests to stop on the one
side and without on the other. -/
theorem applyPlan (plan : ReleasePlan) (hnames : ∀ name, options.Names plan name → names name) :
    Rel (ApplyReport.Matches news) (applyPlan options · plan) (applyPlan options .never plan) := by
  unfold ReleaseRecovery.applyPlan
  have hreleases : Rel (Progress.Matches news)
      (fun i => plan.ordered.foldlM (ReleaseRecovery.applyRelease options i plan.ordered.length)
        Progress.start)
      (plan.ordered.foldlM (ReleaseRecovery.applyRelease options .never plan.ordered.length)
        Progress.start) := by
    refine h.foldlM (fun p p' r hr hp => ?_) ⟨rfl, nofun⟩
    exact h.applyRelease options (hnames _ (.inl ⟨r, List.mem_mergeSort.1 hr, rfl⟩)) _ hp
  refine h.bind hreleases fun p p' hp => ?_
  refine h.bind (h.applyBranch options (hnames _ (.inr rfl)) _ hp) fun b b' hb => ?_
  refine h.pure ⟨?_, hp.allowed, hb.allowed⟩
  have htags := congrArg Progress.tags hp.settled_eq
  have hsynthesized := congrArg Progress.synthesized hp.settled_eq
  simp only [Progress.settled] at htags hsynthesized
  simp only [ApplyReport.settled, htags, hsynthesized, hb.settled_eq]

end IsCompositional

end Writing

/-! ### Later stores -/

/-- Where a request has succeeded, what can be seen of the store is later than before. Wherever it
is later still, the request succeeds again, and changes nothing that can be seen. -/
def Lasts {ρ σ α : Type} (view : ρ → σ) (later : σ → σ → Prop) (settle : α → α)
    (change : ρ → Except Failure α × ρ) : Prop :=
  ∀ s a t, change s = (.ok a, t) → later (view s) (view t) ∧
    ∀ u, later (view t) (view u) → ∃ u', change u = (.ok (settle a), u') ∧ view u' = view u

/-- Whatever was written to a store is found in every later one, and is not written again there. -/
structure Remembers {ρ σ : Type} [Repository ρ] (view : ρ → σ) (later : σ → σ → Prop) :
    Prop where
  refl : ∀ a, later a a
  trans : ∀ {a b c}, later a b → later b c → later a c
  createCommit : ∀ c, Lasts view later id fun s => Repository.createCommit s c
  createTag : ∀ name target,
    Lasts view later (fun _ => .unchanged) fun s => Repository.createTag s name target
  createBranch : ∀ name target,
    Lasts view later (fun _ => .unchanged) fun s => Repository.createBranch s name target

namespace Writing

/-- Where one calculation has succeeded the store is a later one. In every store that is later still
another calculation then succeeds, too, and changes nothing that can be seen. -/
def RepeatedBy {ρ σ α : Type} (view : ρ → σ) (later : σ → σ → Prop) (R : α → α → Prop)
    (w w' : Writing ρ α) : Prop :=
  ∀ s a s', w.after s = (.ok a, s') → later (view s.repo) (view s'.repo) ∧
    ∀ u : Session ρ, later (view s'.repo) (view u.repo) →
      ∃ a' u', w'.after u = (.ok a', u') ∧ R a a' ∧ view u'.repo = view u.repo

namespace RepeatedBy

variable {ρ σ : Type} {view : ρ → σ} {later : σ → σ → Prop} {α β : Type} {R : α → α → Prop}
  {R' : β → β → Prop}

theorem add {settle : α → α} {change : ρ → Except Failure α × ρ}
    (lasts : Lasts view later settle change) (hsettle : ∀ a, R a (settle a)) (action : Action) :
    RepeatedBy view later R (Writing.add action change) (Writing.add action change) := by
  intro s a s' h
  rw [after_add] at h
  obtain ⟨hresult, rfl⟩ := Prod.mk.inj h
  obtain ⟨hlater, hagain⟩ := lasts s.repo a _ (Prod.ext hresult rfl)
  refine ⟨hlater, fun u hu => ?_⟩
  obtain ⟨u', hu', hview⟩ := hagain u.repo hu
  refine ⟨settle a, ⟨u', action :: u.done⟩, ?_, hsettle a, hview⟩
  rw [after_add, hu']

variable [Repository ρ] (remembers : Remembers view later)

include remembers

theorem pure {a a' : α} (h : R a a') : RepeatedBy view later R (Pure.pure a) (Pure.pure a') := by
  intro s b s' hrun
  obtain ⟨⟨⟩, rfl⟩ := Prod.mk.inj hrun
  exact ⟨remembers.refl _, fun u _ => ⟨a', u, rfl, h, rfl⟩⟩

/-- Nobody asks the second time. -/
theorem unlessRaised (interrupt : Interrupt) (e e' : Failure) :
    RepeatedBy view later Eq (Writing.unlessRaised interrupt e)
      (Writing.unlessRaised .never e') := by
  intro s b s' hrun
  obtain rfl : s.polled = s' := (Prod.mk.inj hrun).2
  exact ⟨remembers.refl _, fun u _ => ⟨(), u.polled, rfl, rfl, rfl⟩⟩

theorem bind {w w' : Writing ρ α} {f f' : α → Writing ρ β} (h : RepeatedBy view later R w w')
    (hf : ∀ a a', R a a' → RepeatedBy view later R' (f a) (f' a')) :
    RepeatedBy view later R' (w >>= f) (w' >>= f') := by
  intro s b s'' hrun
  obtain ⟨a, s', hfirst, hrest⟩ := after_bind_eq_ok_iff.1 hrun
  obtain ⟨hlater, hagain⟩ := h s a s' hfirst
  -- The first part can be repeated at once, so there is a result to go on with.
  obtain ⟨a', -, -, ha, -⟩ := hagain s' (remembers.refl _)
  obtain ⟨hlater', -⟩ := hf a a' ha s' b s'' hrest
  refine ⟨remembers.trans hlater hlater', fun u hu => ?_⟩
  obtain ⟨a', u', hu', ha, hview⟩ := hagain u (remembers.trans hlater' hu)
  obtain ⟨b', u'', hu'', hb, hview'⟩ := (hf a a' ha s' b s'' hrest).2 u' (hview ▸ hu)
  exact ⟨b', u'', by rw [after_bind_of_ok hu', hu''], hb, hview'.trans hview⟩

end RepeatedBy

end Writing

/-! ### Plans -/

namespace Remembers

open Writing (RepeatedBy)

variable {ρ σ : Type} [Repository ρ] {view : ρ → σ} {later : σ → σ → Prop}
  (remembers : Remembers view later)

include remembers

/-- A calculation is repeated part by part, and nothing is new then. -/
theorem isCompositional : Writing.IsCompositional (fun _ => True) False
    fun R (w : Interrupt → Writing ρ _) w' => ∀ i, RepeatedBy view later R (w i) w' where
  pure h _ := .pure remembers h
  bind h hf i := .bind remembers (h i) fun a a' ha => hf a a' ha i
  unlessRaised e e' i := .unlessRaised remembers i e e'
  createCommit c _ := .add (remembers.createCommit c) (fun _ => rfl) _
  createTag name target _ _ := .add (remembers.createTag name target) (fun _ => nofun) _
  createBranch name target _ _ := .add (remembers.createBranch name target) (fun _ => nofun) _

/-- A plan that was applied is applied again without any change in every later store, and nothing is
new then. -/
theorem applyPlan (options : ApplyOptions) (interrupt : Interrupt) (plan : ReleasePlan) :
    RepeatedBy view later (fun report report' => report' = report.settled)
      (applyPlan options interrupt plan) (applyPlan options .never plan) := by
  intro s report s' hrun
  obtain ⟨hlater, hagain⟩ := remembers.isCompositional.applyPlan options plan (fun _ _ => trivial)
    interrupt s report s' hrun
  refine ⟨hlater, fun u hu => ?_⟩
  obtain ⟨report', u', hu', hmatches, hview⟩ := hagain u hu
  exact ⟨report', u', hu', hmatches.eq_settled, hview⟩

end Remembers

end ReleaseRecovery
