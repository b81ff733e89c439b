import ReleaseRecovery.Proofs.Placing
import ReleaseRecovery.Proofs.Repeating

/-!
# Applying a plan in several attempts

A store may name commits by their content, so that the same commit is never made twice under two
names, and keep its refs where they are. Then a plan that was stopped anywhere, any number of times,
is completed as if it had been applied at once: what an earlier attempt has written is found by the
next one, which goes on from there as the first one would have gone on.

## Main Definitions

* `IsSteady` — what a request comes to is decided by what can be seen of the store
* `IsContentNamed` — a store names commits by their content, and keeps its refs
* `Writing.SameEnding` — two calculations come to the same, and leave stores that look alike
* `Writing.ResumedBy` — where a calculation is stopped, another one completes it

## Main Statements

* `PlacesRefs.isContentNamed` — a store that names commits by what they are made of alone, and
  places its refs, is content-named
* `IsContentNamed.isCompositional` — a calculation is resumed part by part
* `reapplied` — attempts that were stopped anywhere do not change what a plan comes to
* `applyPlan_resumes` — a plan can be applied in several attempts, and again

## Design Notes

Whether a commit can be made, or a ref be written, depends on what is in a store, so an answer need
not be the same in all stores. It is enough that answers agree along a run: a request that has
succeeded succeeds ever after, and one that has failed fails again.
-/

namespace ReleaseRecovery

/-! ### Content-named stores -/

section Store

variable {ρ σ τ : Type}

/-- What a request comes to is decided by what can be seen of the store. Where it has failed it
fails again, and nothing more can be seen then. -/
structure IsSteady {α : Type} (view : ρ → σ) (later : σ → σ → Prop)
    (change : ρ → Except Failure α × ρ) : Prop where
  alike : ∀ {s t}, view s = view t →
    (change s).1 = (change t).1 ∧ view (change s).2 = view (change t).2
  failed : ∀ {s t e}, change s = (.error e, t) →
    later (view s) (view t) ∧ (change t).1 = .error e ∧ view (change t).2 = view t

variable [Repository ρ]

/-- A store names commits by their content, and keeps its refs where they are when they are written
again. Its answers need only agree with each other in the stores that one run after the other
reaches: what has been written is found in every later store, and what has been refused is refused
again. Only a ref that is not of the given names may be refused in another way the second time. -/
structure IsContentNamed (refs : ρ → SortedMap τ) (view : ρ → σ) (later : σ → σ → Prop)
    (names : String → Prop) : Prop extends Remembers view later where
  refs_eq : ∀ {s t}, view s = view t → refs s = refs t
  steadyCommit : ∀ c, IsSteady view later fun s => Repository.createCommit s c
  steadyTag : ∀ name target, names ("refs/tags/" ++ name) →
    IsSteady view later fun s => Repository.createTag s name target
  steadyBranch : ∀ name target, names ("refs/heads/" ++ name) →
    IsSteady view later fun s => Repository.createBranch s name target

theorem IsContentNamed.mono {refs : ρ → SortedMap τ} {view : ρ → σ} {later : σ → σ → Prop}
    {names names' : String → Prop} (h : IsContentNamed refs view later names)
    (hnames : ∀ name, names' name → names name) : IsContentNamed refs view later names' :=
  { h with
    steadyTag := fun name target hname => h.steadyTag name target (hnames _ hname)
    steadyBranch := fun name target hname => h.steadyBranch name target (hnames _ hname) }

/-- A store after a plan was applied to it, however that ended. -/
def applied (options : ApplyOptions) (plan : ReleasePlan) (store : ρ) (interrupt : Interrupt) : ρ :=
  ((applyPlan options interrupt plan).after ⟨store, []⟩).2.repo

end Store

/-! ### Stores that place refs -/

section Placing

variable {ρ : Type} {refs : ρ → SortedMap CommitId} {name : String} {target : CommitId}
  {change : ρ → Except Failure RefUpdate × ρ}

/-- A ref that was placed is found ever after. -/
theorem lasts_of_place
    (h : ∀ store, ((change store).1, refs (change store).2) = place (refs store) name target) :
    Lasts refs KeepsRefs (fun _ => .unchanged) change := by
  intro s u t hs
  have hplace := h s
  rw [hs] at hplace
  refine ⟨?_, fun v hv => ?_⟩
  · have hkeeps := keepsRefs_place (refs s) name target
    rwa [← hplace] at hkeeps
  · have hplaced : (place (refs s) name target).1 = .ok u := congrArg Prod.fst hplace.symm
    have hthere : (refs t).get? name = some target := by
      have hget := (get?_place hplaced).1
      rwa [← hplace] at hget
    have hagain := h v
    rw [place_of_some (hv _ _ hthere)] at hagain
    obtain ⟨hunchanged, hsame⟩ := Prod.mk.inj hagain
    exact ⟨(change v).2, Prod.ext hunchanged rfl, hsame⟩

/-- Whether a ref can be placed is decided by the refs that are there. -/
theorem isSteady_of_place
    (h : ∀ store, ((change store).1, refs (change store).2) = place (refs store) name target) :
    IsSteady refs KeepsRefs change where
  alike {s t} hst := by
    have hs := h s
    rw [hst, ← h t] at hs
    exact Prod.mk.inj hs
  failed {s t e} hs := by
    have hplace := h s
    rw [hs] at hplace
    have hfailed := place_of_error (congrArg Prod.fst hplace).symm
    have hsame : refs t = refs s := congrArg Prod.snd (hplace.trans hfailed)
    have hagain := h t
    rw [hsame, hfailed] at hagain
    refine ⟨hsame ▸ .refl _, congrArg Prod.fst hagain, ?_⟩
    rw [hsame]
    exact congrArg Prod.snd hagain

variable [Repository ρ] {answer : NewCommit → Except Failure CommitId}

/-- A store that names a commit by what it is made of alone, if it makes it at all, and that adds a
ref that is missing, leaves one that points at the same commit, and refuses to move any, is
content-named. -/
theorem PlacesRefs.isContentNamed (h : PlacesRefs refs)
    (answers : ∀ (store : ρ) c, (Repository.createCommit store c).1 = answer c)
    (names : String → Prop) : IsContentNamed refs refs KeepsRefs names where
  refl := .refl
  trans := .trans
  refs_eq := id
  createCommit c := by
    intro s id t hs
    have hid : answer c = .ok id := (answers s c).symm.trans (congrArg Prod.fst hs)
    have hsame : refs t = refs s :=
      (congrArg (refs ·.2) hs).symm.trans (h.createCommit s c)
    refine ⟨hsame ▸ .refl _, fun u _ => ?_⟩
    exact ⟨_, Prod.ext ((answers u c).trans hid) rfl, h.createCommit u c⟩
  createTag name target := lasts_of_place fun store => h.createTag store name target
  createBranch name target := lasts_of_place fun store => h.createBranch store name target
  steadyCommit c :=
    { alike := fun {s t} hst => by
        rw [answers, answers, h.createCommit, h.createCommit, hst]
        exact ⟨rfl, rfl⟩
      failed := fun {s t e} hs => by
        have he : answer c = .error e := (answers s c).symm.trans (congrArg Prod.fst hs)
        have hsame : refs t = refs s :=
          (congrArg (refs ·.2) hs).symm.trans (h.createCommit s c)
        exact ⟨hsame ▸ .refl _, (answers t c).trans he, h.createCommit t c⟩ }
  steadyTag name target _ := isSteady_of_place fun store => h.createTag store name target
  steadyBranch name target _ := isSteady_of_place fun store => h.createBranch store name target

end Placing

/-! ### Resuming -/

namespace Writing

variable {ρ σ α β : Type} {view : ρ → σ} {later : σ → σ → Prop} {R : α → α → Prop}
  {R' : β → β → Prop}

/-- Two calculations end alike: both fail in the same way or come to related results, and what can
be seen of the stores is the same. -/
structure SameEnding (view : ρ → σ) (R : α → α → Prop) (x y : Except Failure α × Session ρ) :
    Prop where
  view_eq : view y.2.repo = view x.2.repo
  error : ∀ e, x.1 = .error e → y.1 = .error e
  ok : ∀ a, x.1 = .ok a → ∃ a', y.1 = .ok a' ∧ R a a'

/-- Two calculations that have ended alike go on alike. -/
theorem SameEnding.bind {w w' : Writing ρ α} {f f' : α → Writing ρ β} {s t : Session ρ}
    (h : SameEnding view R (w.after s) (w'.after t))
    (hf : ∀ a a' s' t', R a a' → view t'.repo = view s'.repo →
      SameEnding view R' ((f a).after s') ((f' a').after t')) :
    SameEnding view R' ((w >>= f).after s) ((w' >>= f').after t) := by
  rcases hw : w.after s with ⟨e | a, s'⟩ <;> rw [hw] at h
  · have hfailed : w'.after t = (.error e, (w'.after t).2) := Prod.ext (h.error e rfl) rfl
    rw [after_bind_of_error hw, after_bind_of_error hfailed]
    exact ⟨h.view_eq, fun _ => id, nofun⟩
  · obtain ⟨a', ha', hR⟩ := h.ok a rfl
    have hsucceeded : w'.after t = (.ok a', (w'.after t).2) := Prod.ext ha' rfl
    rw [after_bind_of_ok hw, after_bind_of_ok hsucceeded]
    exact hf a a' _ _ hR h.view_eq

/-- A calculation that can be stopped is resumed by another one. In a store that looks alike the
other one comes to the same, but for what is new. Where the first one has got to its end the other
one repeats it; where it was stopped the other one comes to what the first one would have come to
without a request to stop. -/
structure ResumedBy (view : ρ → σ) (later : σ → σ → Prop) (R : α → α → Prop)
    (w : Interrupt → Writing ρ α) (w' : Writing ρ α) : Prop where
  never : ∀ {i s a s'}, (w i).after s = (.ok a, s') → (w .never).after s = (.ok a, s')
  advances : ∀ i s, later (view s.repo) (view ((w i).after s).2.repo)
  agrees : ∀ s t, view t.repo = view s.repo →
    SameEnding view R ((w .never).after s) (w'.after t)
  repeated : ∀ i, RepeatedBy view later R (w i) w'
  resumed : ∀ i s t, view t.repo = view ((w i).after s).2.repo →
    SameEnding view R ((w .never).after s) (w'.after t)

namespace ResumedBy

/-- Whatever the first calculation has come to, there is a related result of the second one. -/
theorem exists_related {w : Interrupt → Writing ρ α} {w' : Writing ρ α} {i : Interrupt}
    {s s' : Session ρ} {a : α} (h : ResumedBy view later R w w')
    (hrun : (w i).after s = (.ok a, s')) : ∃ a', R a a' := by
  obtain ⟨a', -, ha⟩ := (h.agrees s s rfl).ok a (congrArg Prod.fst (h.never hrun))
  exact ⟨a', ha⟩

variable [Repository ρ] (remembers : Remembers view later)

include remembers

theorem pure {a a' : α} (h : R a a') :
    ResumedBy view later R (fun _ => Pure.pure a) (Pure.pure a') where
  never := id
  advances _ _ := remembers.refl _
  agrees _ _ hview := ⟨hview, nofun, fun _ ha => ⟨a', rfl, Except.ok.inj ha ▸ h⟩⟩
  repeated _ := .pure remembers h
  resumed _ _ _ hview := ⟨hview, nofun, fun _ ha => ⟨a', rfl, Except.ok.inj ha ▸ h⟩⟩

theorem unlessRaised (e e' : Failure) :
    ResumedBy view later Eq (Writing.unlessRaised · e) (Writing.unlessRaised .never e') where
  never {i s a s'} h := by
    obtain rfl : s.polled = s' := (Prod.mk.inj h).2
    rfl
  advances _ _ := remembers.refl _
  agrees _ _ hview := ⟨hview, nofun, fun _ _ => ⟨(), rfl, rfl⟩⟩
  repeated i := .unlessRaised remembers i e e'
  resumed _ _ _ hview := ⟨hview, nofun, fun _ _ => ⟨(), rfl, rfl⟩⟩

theorem add {settle : α → α} {change : ρ → Except Failure α × ρ}
    (lasts : Lasts view later settle change) (steady : IsSteady view later change)
    (hrefl : ∀ a, R a a) (hsettle : ∀ a, R a (settle a)) (action : Action) :
    ResumedBy view later R (fun _ => Writing.add action change) (Writing.add action change) where
  never := id
  advances i s := by
    rw [after_add]
    rcases h : change s.repo with ⟨e | a, t⟩
    · exact (steady.failed h).1
    · exact (lasts _ _ _ h).1
  agrees s t hview := by
    obtain ⟨hresult, hsame⟩ := steady.alike hview
    exact ⟨hsame, fun e he => hresult.trans he, fun a ha => ⟨a, hresult.trans ha, hrefl a⟩⟩
  repeated _ := .add lasts hsettle action
  resumed i s t hview := by
    rw [after_add] at hview
    rw [after_add, after_add]
    rcases h : change s.repo with ⟨e | a, s'⟩ <;> rw [h] at hview
    · -- The request fails again, as it does in the store that the first attempt has left.
      obtain ⟨-, hresult, hsame⟩ := steady.failed h
      obtain ⟨hresult', hsame'⟩ := steady.alike hview
      refine ⟨hsame'.trans hsame, ?_, nofun⟩
      rintro _ ⟨⟩
      exact hresult'.trans hresult
    · obtain ⟨u, hu, hsame⟩ := (lasts _ _ _ h).2 t.repo (hview ▸ remembers.refl _)
      rw [hu]
      refine ⟨hsame.trans hview, nofun, ?_⟩
      rintro _ ⟨⟩
      exact ⟨settle a, rfl, hsettle a⟩

/-- A calculation of two parts is stopped in the first or in the second. If the first part has got
to its end, the next attempt repeats it and resumes the second. -/
theorem bind {w : Interrupt → Writing ρ α} {w' : Writing ρ α} {f : Interrupt → α → Writing ρ β}
    {f' : α → Writing ρ β} (h : ResumedBy view later R w w')
    (hf : ∀ a a', R a a' → ResumedBy view later R' (f · a) (f' a')) :
    ResumedBy view later R' (fun i => w i >>= f i) (w' >>= f') where
  never {i s b s'} hrun := by
    obtain ⟨a, s₁, hfirst, hrest⟩ := after_bind_eq_ok_iff.1 hrun
    obtain ⟨a', ha⟩ := h.exists_related hfirst
    exact after_bind_eq_ok_iff.2 ⟨a, s₁, h.never hfirst, (hf a a' ha).never hrest⟩
  advances i s := by
    have hlater := h.advances i s
    rcases hfirst : (w i).after s with ⟨e | a, s₁⟩ <;> rw [hfirst] at hlater
    · rw [after_bind_of_error hfirst]
      exact hlater
    · obtain ⟨a', ha⟩ := h.exists_related hfirst
      rw [after_bind_of_ok hfirst]
      exact remembers.trans hlater ((hf a a' ha).advances i s₁)
  agrees s t hview :=
    (h.agrees s t hview).bind fun a a' s' t' ha hsame => (hf a a' ha).agrees s' t' hsame
  repeated i := .bind remembers (h.repeated i) fun a a' ha => (hf a a' ha).repeated i
  resumed i s t hview := by
    rcases hfirst : (w i).after s with ⟨e | a, s₁⟩
    · rw [after_bind_of_error hfirst, ← congrArg Prod.snd hfirst] at hview
      exact (h.resumed i s t hview).bind fun a a' s' t' ha hsame =>
        (hf a a' ha).agrees s' t' hsame
    · rw [after_bind_of_ok hfirst] at hview
      obtain ⟨a', ha⟩ := h.exists_related hfirst
      obtain ⟨a', t₁, ht₁, ha, hsame⟩ :=
        (h.repeated i s a s₁ hfirst).2 t (hview ▸ (hf a a' ha).advances i s₁)
      rw [after_bind_of_ok ht₁, after_bind_of_ok (h.never hfirst)]
      exact (hf a a' ha).resumed i s₁ t₁ (hsame.trans hview)

end ResumedBy

end Writing

/-! ### Applying a plan -/

section Applying

variable {ρ σ τ : Type} [Repository ρ] {refs : ρ → SortedMap τ} {view : ρ → σ}
  {later : σ → σ → Prop}

/-- A calculation is resumed part by part. -/
theorem IsContentNamed.isCompositional {names : String → Prop}
    (h : IsContentNamed refs view later names) :
    Writing.IsCompositional names True (Writing.ResumedBy view later) where
  pure ha := .pure h.toRemembers ha
  bind hw hf := .bind h.toRemembers hw hf
  unlessRaised e e' := .unlessRaised h.toRemembers e e'
  createCommit c :=
    .add h.toRemembers (h.createCommit c) (h.steadyCommit c) (fun _ => rfl) (fun _ => rfl) _
  createTag name target hname :=
    .add h.toRemembers (h.createTag name target) (h.steadyTag name target hname)
      (fun _ _ => trivial) (fun _ _ => trivial) _
  createBranch name target hname :=
    .add h.toRemembers (h.createBranch name target) (h.steadyBranch name target hname)
      (fun _ _ => trivial) (fun _ _ => trivial) _

variable {options : ApplyOptions} {plan : ReleasePlan}

/-- Attempts that were stopped anywhere do not change what a plan comes to. -/
theorem reapplied (h : IsContentNamed refs view later (options.Names plan))
    (earlier : List Interrupt) (store : ρ) :
    let atOnce : Except Failure ApplyReport × Session ρ :=
      (applyPlan options .never plan).after ⟨store, []⟩
    let resumed : Except Failure ApplyReport × Session ρ :=
      (applyPlan options .never plan).after ⟨earlier.foldl (applied options plan) store, []⟩
    resumed.1.map ApplyReport.settled = atOnce.1.map ApplyReport.settled ∧
      view resumed.2.repo = view atOnce.2.repo := by
  induction earlier generalizing store with
  | nil => exact ⟨rfl, rfl⟩
  | cons interrupt earlier ih =>
    obtain ⟨hresult, hview⟩ := ih (applied options plan store interrupt)
    obtain ⟨hsame, herror, hok⟩ := (h.isCompositional.applyPlan options plan fun _ => id).resumed
      interrupt ⟨store, []⟩ ⟨applied options plan store interrupt, []⟩ rfl
    refine ⟨hresult.trans ?_, hview.trans hsame⟩
    rcases hfirst : ((applyPlan options .never plan).after ⟨store, []⟩).1 with e | report
    · rw [herror e hfirst]
    · obtain ⟨report', hreport', hmatches⟩ := hok report hfirst
      rw [hreport']
      exact congrArg Except.ok hmatches.settled_eq

/-- A plan that is applied in several attempts, each of which was stopped anywhere or has got to its
end, comes to the same refs, and to the same report but for what is new, as if it had been applied
at once; a failure is the same, too. To apply it once more changes no ref, and finds that none is
new. Stores that name a commit by what it is made of and place their refs are content-named
(`PlacesRefs.isContentNamed`). -/
theorem applyPlan_resumes (options : ApplyOptions) (plan : ReleasePlan)
    (h : IsContentNamed refs view later (options.Names plan)) (store : ρ)
    (earlier : List Interrupt) :
    let atOnce : Except Failure ApplyReport × Session ρ :=
      (applyPlan options .never plan).after ⟨store, []⟩
    let resumed : Except Failure ApplyReport × Session ρ :=
      (applyPlan options .never plan).after ⟨earlier.foldl (applied options plan) store, []⟩
    resumed.1.map ApplyReport.settled = atOnce.1.map ApplyReport.settled ∧
      refs resumed.2.repo = refs atOnce.2.repo ∧
      ∀ report, resumed.1 = .ok report →
        let again := (applyPlan options .never plan).after ⟨resumed.2.repo, []⟩
        again.1 = .ok report.settled ∧ refs again.2.repo = refs resumed.2.repo := by
  intro atOnce resumed
  obtain ⟨hresult, hview⟩ := reapplied h earlier store
  refine ⟨hresult, h.refs_eq hview, fun report hreport => ?_⟩
  obtain ⟨-, hrepeat⟩ := h.toRemembers.applyPlan options .never plan _ _ _ (Prod.ext hreport rfl)
  obtain ⟨_, s', hrun, rfl, hsame⟩ := hrepeat ⟨resumed.2.repo, []⟩ (h.refl _)
  intro again
  have hagain : again = (.ok report.settled, s') := hrun
  rw [hagain]
  exact ⟨rfl, h.refs_eq hsame⟩

end Applying

/-! ### A content-named store -/

/-- A name that says all that a commit is made of. -/
def NewCommit.contentName (c : NewCommit) : CommitId :=
  "\n".intercalate [c.tree, c.parent.getD "", c.identity.name, c.identity.email, toString c.time,
    c.message]

/-- A store in memory, except that commits are named by their content. -/
structure Archive where
  memory : Memory

namespace Archive

instance : Repository Archive where
  isSound a := Repository.isSound a.memory
  listRefs a := Repository.listRefs a.memory
  log a := Repository.log a.memory
  commit a := Repository.commit a.memory
  entries a := Repository.entries a.memory
  depth a := Repository.depth a.memory
  createCommit a c :=
    (.ok c.contentName, ⟨{ a.memory with written := a.memory.written ++ [⟨c.contentName, c⟩] }⟩)
  createTag a name target :=
    ((Repository.createTag a.memory name target).1, ⟨(Repository.createTag a.memory name target).2⟩)
  createBranch a name target :=
    ((Repository.createBranch a.memory name target).1,
      ⟨(Repository.createBranch a.memory name target).2⟩)

/-- The refs of a store. -/
def refs (a : Archive) : SortedMap CommitId := a.memory.refs

theorem placesRefs : PlacesRefs refs where
  createCommit _ _ := rfl
  createTag a := Memory.placesRefs.createTag a.memory
  createBranch a := Memory.placesRefs.createBranch a.memory

theorem isContentNamed (names : String → Prop) : IsContentNamed refs refs KeepsRefs names :=
  placesRefs.isContentNamed (fun _ _ => rfl) names

end Archive

theorem applyPlan_resumes_archive :
    let options : ApplyOptions := ⟨"", "legacy", ⟨"Recovery", "recovery@example.com"⟩, 0⟩
    let plan : ReleasePlan := ⟨[⟨⟨[1, 0]⟩, "svn/tags/v1.0/", "T1", some "C1"⟩,
      ⟨⟨[2, 0]⟩, "svn/tags/v2.0/", "T2", none⟩, ⟨⟨[3, 0]⟩, "svn/tags/v3.0/", "T3", none⟩], []⟩
    let earlier : List Interrupt :=
      [.after (.createTag "v1.0"), .after (.createTag "v2.0"), .always]
    let atOnce := (applyPlan options .never plan).after ⟨(⟨.empty⟩ : Archive), []⟩
    let resumed := (applyPlan options .never plan).after
      ⟨earlier.foldl (applied options plan) (⟨.empty⟩ : Archive), []⟩
    IsContentNamed Archive.refs Archive.refs KeepsRefs (options.Names plan) ∧
      resumed.1.map ApplyReport.settled = atOnce.1.map ApplyReport.settled ∧
      resumed.2.repo.refs = atOnce.2.repo.refs ∧
      ∃ report, resumed.1 = .ok report ∧
        report.tags.map (fun t => (t.name, t.created)) =
          [("v1.0", false), ("v2.0", false), ("v3.0", true)] ∧
        let again := (applyPlan options .never plan).after ⟨resumed.2.repo, []⟩
        again.1 = .ok report.settled ∧ again.2.repo.refs = resumed.2.repo.refs := by
  intro options plan earlier atOnce resumed
  have h := applyPlan_resumes options plan (Archive.isContentNamed _) ⟨.empty⟩ earlier
  have hordered : plan.ordered = plan.releases := List.mergeSort_of_pairwise (by decide)
  have htags : (resumed.1.map fun r => r.tags.map fun t => (t.name, t.created)).toOption =
      some [("v1.0", false), ("v2.0", false), ("v3.0", true)] := by
    simp only [resumed, earlier, List.foldl_cons, List.foldl_nil, applied, applyPlan, hordered]
    decide +kernel
  cases hresumed : resumed.1 with
  | error e =>
    rw [hresumed] at htags
    cases htags
  | ok report =>
    rw [hresumed] at htags
    exact ⟨Archive.isContentNamed _, hresumed ▸ h.1, h.2.1, report, rfl, Option.some.inj htags,
      h.2.2 report hresumed⟩

end ReleaseRecovery
