import Mathlib.Data.List.Basic
import Mathlib.Logic.Equiv.Basic
import ReleaseRecovery.Proofs.Soundness

/-!
# Other names for commits and contents

Planning compares the names of contents and looks up the names of commits, and nothing else depends
on them. If the names of an index are exchanged for others, different ones for different ones, then
every step of planning comes to the same as before, with the names exchanged.

## Main Definitions

* `ContentIndex.rename`, `CrossReference.rename`, … — other names for commits and contents
* `Failure.rename` — the same in a failure
* `Renamed` — a calculation comes to the same as another one, with other names

## Main Statements

* `renamed_referenceIndex` — the reference line is told by the new names as by the old ones
* `renamed_subhistories` — the subhistories of an index with other names
* `resolveReleases_rename` — a plan with other names
* `crossReference_rename` — cross-referencing an index with other names
-/

namespace ReleaseRecovery

/-! ### Renaming -/

/-- The map with other keys. -/
def SortedMap.mapKeys {α : Type} (f : String → String) (m : SortedMap α) : SortedMap α :=
  .ofList (m.entries.map fun e => (f e.1, e.2))

/-- Other names for the contents in a record. -/
def InstallRecord.rename (g : TreeId → TreeId) (r : InstallRecord) : InstallRecord :=
  ⟨r.full.mapValues g, r.partly.mapValues g⟩

/-- Other names for the commits and the contents in an index. -/
def ContentIndex.rename (f : CommitId → CommitId) (g : TreeId → TreeId) (index : ContentIndex) :
    ContentIndex where
  histories := index.histories.mapValues (List.map f)
  records := (index.records.mapKeys f).mapValues (InstallRecord.rename g)

/-- Other names for the contents of a directory, and for the commits where they meet the reference
line. -/
def Subhistory.rename (f : CommitId → CommitId) (g : TreeId → TreeId) (s : Subhistory) :
    Subhistory :=
  ⟨s.history.map g, s.branchedFrom.map f, s.mergedTo.map f⟩

/-- Other names for what a copy comes to. -/
def Resolution.rename (f : CommitId → CommitId) (g : TreeId → TreeId) : Resolution → Resolution
  | trunk tree commit => trunk (g tree) (f commit)
  | synthesize tree => synthesize (g tree)
  | unresolved reason => unresolved reason

/-- Another name for the content and the commit of a release. -/
def PlannedRelease.rename (f : CommitId → CommitId) (g : TreeId → TreeId) (r : PlannedRelease) :
    PlannedRelease :=
  { r with tree := g r.tree, trunkCommit := r.trunkCommit.map f }

/-- Other names for the contents that are reported. -/
def UnresolvedRelease.rename (g : TreeId → TreeId) (u : UnresolvedRelease) : UnresolvedRelease :=
  { u with history := u.history.map g }

/-- Other names for the contents of a copy. -/
def Copy.rename (g : TreeId → TreeId) (c : Copy) : Copy := { c with history := c.history.map g }

/-- Other names for the commits and the contents in a plan. -/
def ReleasePlan.rename (f : CommitId → CommitId) (g : TreeId → TreeId) (p : ReleasePlan) :
    ReleasePlan :=
  ⟨p.releases.map (PlannedRelease.rename f g), p.unresolved.map (UnresolvedRelease.rename g)⟩

/-- Other names for the commits and the contents in subhistories and plan. -/
def CrossReference.rename (f : CommitId → CommitId) (g : TreeId → TreeId) (c : CrossReference) :
    CrossReference :=
  ⟨c.subhistories.mapValues (Subhistory.rename f g), c.plan.rename f g⟩

/-- Another name for the commit that has no record. -/
def Failure.rename (f : CommitId → CommitId) : Failure → Failure
  | missingScan commit ref => missingScan (f commit) ref
  | e => e

/-! ### Lists and maps -/

section Lists

variable {α β : Type}

/-- Different members stay different. -/
theorem eraseDups_map [DecidableEq α] [DecidableEq β] {g : α → β} (hg : g.Injective)
    (l : List α) : (l.map g).eraseDups = l.eraseDups.map g := by
  cases l with
  | nil => rfl
  | cons a l =>
    have hsame : (fun b => !b == g a) ∘ g = fun b => !b == a := by
      funext b
      simp only [Function.comp_def, hg.beq_eq]
    rw [List.map_cons, List.eraseDups_cons, List.eraseDups_cons, List.filter_map, hsame,
      eraseDups_map hg, List.map_cons]
termination_by l.length
decreasing_by
  have hle := List.length_filter_le (fun b => !b == a) l
  simp only [List.length_cons]
  omega

end Lists

namespace SortedMap

variable {α β : Type}

theorem mapValues_insert (h : α → β) (m : SortedMap α) (key : String) (value : α) :
    (m.insert key value).mapValues h = (m.mapValues h).insert key (h value) := by
  refine ext_get? fun k => ?_
  rw [get?_mapValues, get?_insert, get?_insert, get?_mapValues]
  split <;> rfl

theorem get?_mapKeys {f : String → String} (hf : f.Injective) (m : SortedMap α) (key : String) :
    (m.mapKeys f).get? (f key) = m.get? key := by
  have hkeys : (m.entries.map fun e => (f e.1, e.2)).Pairwise fun a b => a.1 ≠ b.1 :=
    List.pairwise_map.2 (m.distinct_entries.imp hf.ne)
  apply Option.ext
  intro value
  rw [mapKeys, get?_ofList_eq_some_iff hkeys, get?_eq_some_iff, List.mem_map]
  constructor
  · rintro ⟨e, he, hfe⟩
    obtain ⟨hkey, rfl⟩ := Prod.mk.inj hfe
    rwa [← hf hkey]
  · intro h
    exact ⟨_, h, rfl⟩

/-- A key that is no other name of any key has no value. -/
theorem get?_mapKeys_of_ne {f : String → String} {key : String} (h : ∀ k, f k ≠ key)
    (m : SortedMap α) : (m.mapKeys f).get? key = none := by
  rw [mapKeys, get?_ofList, List.lookup_eq_none_iff]
  intro e he
  obtain ⟨e', -, rfl⟩ := List.mem_map.1 (List.mem_reverse.1 he)
  exact bne_iff_ne.2 (h e'.1).symm

/-- The last of several entries with one key counts by whatever names. -/
theorem ofList_map {f : String → String} (hf : f.Injective) (h : α → β) (l : List (String × α)) :
    ofList (l.map (Prod.map f h)) = ((ofList l).mapKeys f).mapValues h := by
  refine ext_get? fun key => ?_
  rw [get?_ofList, get?_mapValues, ← List.map_reverse]
  by_cases hkey : ∃ k, f k = key
  · obtain ⟨k, rfl⟩ := hkey
    rw [get?_mapKeys hf, get?_ofList]
    induction l.reverse with
    | nil => rfl
    | cons e l ih =>
      rw [List.map_cons, lookup_cons_eq_ite, lookup_cons_eq_ite, ih]
      simp only [Prod.map_fst, Prod.map_snd, hf.eq_iff]
      split <;> rfl
  · rw [get?_mapKeys_of_ne fun k hk => hkey ⟨k, hk⟩, Option.map_none, List.lookup_eq_none_iff]
    intro e he
    obtain ⟨e', -, rfl⟩ := List.mem_map.1 he
    exact bne_iff_ne.2 fun hk => hkey ⟨e'.1, hk.symm⟩

end SortedMap

/-! ### Calculations -/

section Calculations

variable {α α' β β' ι : Type} {f : CommitId → CommitId}

/-- A calculation comes to the same as another one, with other names, or fails for the same cause,
with another name for the commit in it. -/
def Renamed (f : CommitId → CommitId) (rename : α → α') (x : Except Failure α)
    (x' : Except Failure α') : Prop :=
  x' = (x.map rename).mapError (Failure.rename f)

theorem Renamed.bind {rename : α → α'} {rename' : β → β'} {x : Except Failure α}
    {x' : Except Failure α'} {next : α → Except Failure β} {next' : α' → Except Failure β'}
    (hx : Renamed f rename x x') (h : ∀ a, Renamed f rename' (next a) (next' (rename a))) :
    Renamed f rename' (x >>= next) (x' >>= next') := by
  rw [Renamed] at hx
  subst hx
  cases x with
  | ok a => exact h a
  | error e => rfl

theorem Renamed.map {rename : α → α'} {rename' : β → β'} {x : Except Failure α}
    {x' : Except Failure α'} {h : α → β} {h' : α' → β'} (hx : Renamed f rename x x')
    (hh : ∀ a, h' (rename a) = rename' (h a)) : Renamed f rename' (x.map h) (x'.map h') := by
  rw [Renamed] at hx
  subst hx
  cases x with
  | ok a => exact congrArg Except.ok (hh a)
  | error e => rfl

/-- A calculation for every member of a list. -/
theorem Renamed.mapM {name : ι → ι} {rename : α → α'} {h : ι → Except Failure α}
    {h' : ι → Except Failure α'} (hh : ∀ i, Renamed f rename (h i) (h' (name i))) (l : List ι) :
    Renamed f (List.map rename) (l.mapM h) ((l.map name).mapM h') := by
  induction l with
  | nil => rfl
  | cons i l ih =>
    rw [List.map_cons, List.mapM_cons, List.mapM_cons]
    exact (hh i).bind fun a => ih.bind fun as => rfl

end Calculations

/-! ### The index -/

section Index

variable {f : CommitId → CommitId} {g : TreeId → TreeId} {index : ContentIndex}
  {reference : String}

theorem renamed_record (hf : f.Injective) (ref : String) (c : CommitId) :
    Renamed f (InstallRecord.rename g) (index.record ref c)
      ((index.rename f g).record ref (f c)) := by
  rw [Renamed, ContentIndex.record, ContentIndex.record, ContentIndex.rename,
    SortedMap.get?_mapValues, SortedMap.get?_mapKeys hf]
  cases index.records.get? c <;> rfl

theorem root?_rename (r : InstallRecord) : (r.rename g).root? = r.root?.map g :=
  SortedMap.get?_mapValues g r.full "/"

/-- The contents at the top of the commits of a ref. -/
theorem renamed_rootInstalls (hf : f.Injective) (ref : String) (commits : List CommitId) :
    Renamed f (List.map (Prod.map g f)) (rootInstalls index ref commits)
      (rootInstalls (index.rename f g) ref (commits.map f)) := by
  have hroots : Renamed f (List.map (Option.map (Prod.map g f)))
      (commits.mapM fun c => do let r ← index.record ref c; return r.root?.map fun t => (t, c))
      ((commits.map f).mapM fun c => do
        let r ← (index.rename f g).record ref c
        return r.root?.map fun t => (t, c)) := by
    refine .mapM (fun c => ?_) commits
    refine (renamed_record hf ref c).bind fun r => ?_
    rw [root?_rename]
    cases r.root? <;> rfl
  refine hroots.bind fun roots => ?_
  have hfilter : (roots.map (Option.map (Prod.map g f))).filterMap id =
      (roots.filterMap id).map (Prod.map g f) := by
    rw [List.filterMap_map, List.map_filterMap]
    rfl
  rw [hfilter]
  rfl

/-- Other names for the contents that tell the reference line, and for its commits. -/
def renameLine (f : CommitId → CommitId) (g : TreeId → TreeId) (trunk : SortedMap CommitId) :
    SortedMap CommitId :=
  (trunk.mapKeys g).mapValues f

theorem get?_renameLine (hg : g.Injective) (trunk : SortedMap CommitId) (t : TreeId) :
    (renameLine f g trunk).get? (g t) = (trunk.get? t).map f := by
  rw [renameLine, SortedMap.get?_mapValues, SortedMap.get?_mapKeys hg]

/-- The reference line is told by the new names as by the old ones. -/
theorem renamed_referenceIndex (hf : f.Injective) (hg : g.Injective) :
    Renamed f (renameLine f g) (referenceIndex index reference)
      (referenceIndex (index.rename f g) reference) := by
  have hget : (index.rename f g).histories.get? reference =
      (index.histories.get? reference).map (List.map f) :=
    SortedMap.get?_mapValues (List.map f) index.histories reference
  unfold referenceIndex
  rw [hget]
  cases index.histories.get? reference with
  | none => rfl
  | some commits =>
    exact (renamed_rootInstalls hf reference commits).map fun l => SortedMap.ofList_map hg f l

/-- The installs along the history of one ref. -/
theorem renamed_refObservations (hf : f.Injective) (ref : String) (commits : List CommitId) :
    Renamed f (List.map (Prod.map id g)) (refObservations index ref commits)
      (refObservations (index.rename f g) ref (commits.map f)) := by
  have hinstalls : Renamed f (List.map (List.map (Prod.map id g)))
      (commits.mapM fun c => do
        let r ← index.record ref c
        return r.full.entries.map fun e => (ref ++ e.1, e.2))
      ((commits.map f).mapM fun c => do
        let r ← (index.rename f g).record ref c
        return r.full.entries.map fun e => (ref ++ e.1, e.2)) := by
    refine .mapM (fun c => ?_) commits
    refine (renamed_record hf ref c).bind fun r => congrArg Except.ok ?_
    rw [InstallRecord.rename, SortedMap.mapValues, List.map_map, List.map_map]
    rfl
  refine hinstalls.bind fun installs => congrArg Except.ok ?_
  exact (List.map_flatten ..).symm

/-- The installs along the histories of all refs but the reference line. -/
theorem renamed_observations (hf : f.Injective) :
    Renamed f (List.map (Prod.map id g)) (observations index reference)
      (observations (index.rename f g) reference) := by
  have hrefs : ((index.rename f g).histories.entries.filter fun e => e.1 != reference) =
      (index.histories.entries.filter fun e => e.1 != reference).map
        (Prod.map id (List.map f)) := by
    rw [ContentIndex.rename, SortedMap.mapValues]
    exact List.filter_map
  unfold observations
  dsimp only
  rw [hrefs]
  refine .bind (.mapM (fun e => renamed_refObservations hf e.1 e.2) _) fun installs => ?_
  exact congrArg Except.ok (List.map_flatten ..).symm

end Index

/-! ### Subhistories -/

namespace Subhistory

variable {f : CommitId → CommitId} {g : TreeId → TreeId}

theorem push_rename (hg : g.Injective) (s : Subhistory) (t : TreeId) :
    (s.rename f g).push (g t) = (s.push t).rename f g := by
  have hlast : ((s.history.map g).getLast? = some (g t)) ↔ s.history.getLast? = some t := by
    rw [List.getLast?_map, Option.map_eq_some_iff]
    constructor
    · rintro ⟨u, hu, hgu⟩
      rwa [← hg hgu]
    · intro h
      exact ⟨t, h, rfl⟩
  unfold push rename
  dsimp only
  by_cases h : s.history.getLast? = some t
  · rw [if_pos h, if_pos (hlast.2 h)]
  · rw [if_neg h, if_neg (mt hlast.1 h), List.map_append]
    rfl

/-- What is gathered under a key does not depend on the names of contents. -/
theorem gather_rename (hg : g.Injective) (observed : List (String × TreeId)) :
    gather (observed.map (Prod.map id g)) = (gather observed).mapValues (rename f g) := by
  have hfold : ∀ (observed : List (String × TreeId)) (m : SortedMap Subhistory),
      (observed.map (Prod.map id g)).foldl
          (fun m o => m.insert o.1 (((m.get? o.1).getD empty).push o.2))
          (m.mapValues (rename f g)) =
        (observed.foldl (fun m o => m.insert o.1 (((m.get? o.1).getD empty).push o.2))
          m).mapValues (rename f g) := by
    intro observed
    induction observed with
    | nil => exact fun _ => rfl
    | cons o observed ih =>
      intro m
      have hprev : ((m.mapValues (rename f g)).get? o.1).getD empty =
          ((m.get? o.1).getD empty).rename f g := by
        rw [SortedMap.get?_mapValues]
        cases m.get? o.1 <;> rfl
      rw [List.map_cons, List.foldl_cons, List.foldl_cons, ← ih, SortedMap.mapValues_insert,
        Prod.map_fst, Prod.map_snd, id, hprev, push_rename hg]
  exact hfold observed .empty

/-- The contents meet the reference line where they met it. -/
theorem locate_rename (hg : g.Injective) (trunk : SortedMap CommitId) (s : Subhistory) :
    (s.rename f g).locate (renameLine f g trunk) = (s.locate trunk).rename f g := by
  have hmeet (t : Option TreeId) :
      (t.map g).bind (renameLine f g trunk).get? = (t.bind trunk.get?).map f := by
    cases t with
    | none => rfl
    | some t => exact get?_renameLine hg trunk t
  unfold locate rename
  simp only [oldest, newest, List.getLast?_map, List.head?_map, hmeet]

end Subhistory

/-- The subhistories of an index with other names. -/
theorem renamed_subhistories {f : CommitId → CommitId} {g : TreeId → TreeId}
    {index : ContentIndex} {reference : String} (hf : f.Injective) (hg : g.Injective)
    (trunk : SortedMap CommitId) :
    Renamed f (SortedMap.mapValues (Subhistory.rename f g))
      (subhistories index reference trunk)
      (subhistories (index.rename f g) reference (renameLine f g trunk)) := by
  refine (renamed_observations hf).map fun o => ?_
  rw [Subhistory.gather_rename (f := f) hg]
  refine SortedMap.ext ?_
  simp only [SortedMap.mapValues, List.map_map, Function.comp_def, Subhistory.locate_rename hg]

/-! ### Planning -/

section Planning

variable {f : CommitId → CommitId} {g : TreeId → TreeId} {trunk : SortedMap CommitId}

/-- A copy with other contents comes to the same, with other names. -/
theorem resolve_rename (hg : g.Injective) (history : List TreeId) (trunk : SortedMap CommitId) :
    resolve (history.map g) (renameLine f g trunk) = (resolve history trunk).rename f g := by
  have hfind : (history.map g).findSome? (fun t => ((renameLine f g trunk).get? t).map
      fun c => (t, c)) =
        (history.findSome? fun t => (trunk.get? t).map fun c => (t, c)).map (Prod.map g f) := by
    rw [List.findSome?_map, List.map_findSome?]
    congr 1
    funext t
    rw [Function.comp_apply, Function.comp_apply, get?_renameLine hg]
    cases trunk.get? t <;> rfl
  unfold resolve
  rw [hfind]
  cases history.findSome? fun t => (trunk.get? t).map fun c => (t, c) with
  | some found => rfl
  | none =>
    match history with
    | [] => rfl
    | [only] => rfl
    | t :: u :: rest =>
      have hdistinct : ((t :: u :: rest).map g).eraseDups.length =
          (t :: u :: rest).eraseDups.length := by
        rw [eraseDups_map hg, List.length_map]
      exact congrArg (fun n => Resolution.unresolved (.noTrunkMatch n)) hdistinct

theorem copies_rename (subs : SortedMap Subhistory) :
    copies (subs.mapValues (Subhistory.rename f g)) = (copies subs).map (Copy.rename g) := by
  rw [copies, copies, SortedMap.mapValues, List.filterMap_map, List.map_filterMap]
  congr 1
  funext e
  rw [Function.comp_apply]
  cases Version.ofSource? e.1 <;> rfl

theorem planned?_rename (hg : g.Injective) (c : Copy) :
    (c.rename g).planned? (renameLine f g trunk) =
      (c.planned? trunk).map (PlannedRelease.rename f g) := by
  unfold Copy.planned? Copy.rename
  dsimp only
  rw [resolve_rename hg]
  cases resolve c.history trunk <;> rfl

theorem unresolved?_rename (hg : g.Injective) (c : Copy) :
    (c.rename g).unresolved? (renameLine f g trunk) =
      (c.unresolved? trunk).map (UnresolvedRelease.rename g) := by
  unfold Copy.unresolved? Copy.rename
  dsimp only
  rw [resolve_rename hg]
  cases resolve c.history trunk <;> rfl

theorem agrees_rename (hf : f.Injective) (hg : g.Injective) (a b : PlannedRelease) :
    (a.rename f g).agrees (b.rename f g) = a.agrees b := by
  unfold PlannedRelease.agrees PlannedRelease.rename
  rw [hg.beq_eq, (Option.map_injective hf).beq_eq]

theorem all_agrees_rename (hf : f.Injective) (hg : g.Injective) (first : PlannedRelease)
    (rest : List PlannedRelease) :
    (rest.map (PlannedRelease.rename f g)).all (first.rename f g).agrees =
      rest.all first.agrees := by
  rw [List.all_map]
  congr 1
  funext r
  exact agrees_rename hf hg first r

theorem agreed?_rename (hf : f.Injective) (hg : g.Injective) (l : List PlannedRelease) :
    agreed? (l.map (PlannedRelease.rename f g)) = (agreed? l).map (PlannedRelease.rename f g) := by
  cases l with
  | nil => rfl
  | cons first rest =>
    rw [List.map_cons, agreed?, agreed?, all_agrees_rename hf hg]
    split <;> rfl

theorem conflict?_rename (hf : f.Injective) (hg : g.Injective) (l : List PlannedRelease) :
    conflict? (l.map (PlannedRelease.rename f g)) =
      (conflict? l).map (UnresolvedRelease.rename g) := by
  cases l with
  | nil => rfl
  | cons first rest =>
    rw [List.map_cons, conflict?, conflict?, all_agrees_rename hf hg]
    split
    · rfl
    · simp only [UnresolvedRelease.rename, PlannedRelease.rename, List.map_cons, List.map_map,
        Function.comp_def, Option.map_some]

/-- What the copies of one version come to. -/
theorem filterMap_planned?_rename (hg : g.Injective) (cs : List Copy) :
    (cs.map (Copy.rename g)).filterMap (Copy.planned? (renameLine f g trunk)) =
      (cs.filterMap (Copy.planned? trunk)).map (PlannedRelease.rename f g) := by
  rw [List.filterMap_map, List.map_filterMap]
  congr 1
  funext c
  exact planned?_rename hg c

theorem filterMap_unresolved?_rename (hg : g.Injective) (cs : List Copy) :
    (cs.map (Copy.rename g)).filterMap (Copy.unresolved? (renameLine f g trunk)) =
      (cs.filterMap (Copy.unresolved? trunk)).map (UnresolvedRelease.rename g) := by
  rw [List.filterMap_map, List.map_filterMap]
  congr 1
  funext c
  exact unresolved?_rename hg c

/-- A plan with other names. Versions and keys are not renamed, so the order stays. -/
theorem ofCopies_rename (hf : f.Injective) (hg : g.Injective) (cs : List Copy) :
    ReleasePlan.ofCopies (renameLine f g trunk) (cs.map (Copy.rename g)) =
      (ReleasePlan.ofCopies trunk cs).rename f g := by
  have hversions : (cs.map (Copy.rename g)).map (·.version) = cs.map (·.version) := by
    rw [List.map_map]
    rfl
  have hgroup (v : Version) : ((cs.map (Copy.rename g)).filter fun c => decide (c.version = v)) =
      (cs.filter fun c => decide (c.version = v)).map (Copy.rename g) := List.filter_map
  have hreports (l : List UnresolvedRelease) :
      (l.map (UnresolvedRelease.rename g)).mergeSort UnresolvedRelease.notAfter =
        (l.mergeSort UnresolvedRelease.notAfter).map (UnresolvedRelease.rename g) := by
    have hsame : ∀ a ∈ l, ∀ b ∈ l, a.notAfter b = (a.rename g).notAfter (b.rename g) :=
      fun _ _ _ _ => rfl
    exact (List.map_mergeSort hsame).symm
  have hplanned (cs : List Copy) :
      agreed? ((cs.map (Copy.rename g)).filterMap (Copy.planned? (renameLine f g trunk))) =
        (agreed? (cs.filterMap (Copy.planned? trunk))).map (PlannedRelease.rename f g) := by
    rw [filterMap_planned?_rename hg, agreed?_rename hf hg]
  have hreported (cs : List Copy) :
      (cs.map (Copy.rename g)).filterMap (Copy.unresolved? (renameLine f g trunk)) ++
          (conflict? ((cs.map (Copy.rename g)).filterMap
            (Copy.planned? (renameLine f g trunk)))).toList =
        (cs.filterMap (Copy.unresolved? trunk) ++
          (conflict? (cs.filterMap (Copy.planned? trunk))).toList).map
            (UnresolvedRelease.rename g) := by
    rw [filterMap_unresolved?_rename hg, filterMap_planned?_rename hg, conflict?_rename hf hg,
      Option.toList_map, List.map_append]
  rw [ReleasePlan.ofCopies, ReleasePlan.ofCopies, ReleasePlan.rename, hversions]
  dsimp only
  rw [← hreports, List.map_filterMap, List.map_flatMap, List.filterMap_map, List.filterMap_map,
    List.flatMap_map, List.flatMap_map]
  simp only [Function.comp_def, hgroup, hplanned, hreported]

/-- A plan with other names. -/
theorem resolveReleases_rename (hf : f.Injective) (hg : g.Injective)
    (subs : SortedMap Subhistory) :
    resolveReleases (subs.mapValues (Subhistory.rename f g)) (renameLine f g trunk) =
      (resolveReleases subs trunk).rename f g := by
  rw [resolveReleases, copies_rename, ofCopies_rename hf hg, resolveReleases]

end Planning

/-- Cross-referencing an index with other names comes to the same, with these names, and it fails
exactly if it failed before, with the other name of the commit in the failure. -/
theorem crossReference_rename {f : CommitId → CommitId} {g : TreeId → TreeId} (hf : f.Injective)
    (hg : g.Injective) (index : ContentIndex) (reference : String) :
    crossReference (index.rename f g) reference =
      match crossReference index reference with
      | .ok c => .ok (c.rename f g)
      | .error e => .error (e.rename f) := by
  have hrenamed : Renamed f (CrossReference.rename f g) (crossReference index reference)
      (crossReference (index.rename f g) reference) := by
    refine (renamed_referenceIndex hf hg).bind fun trunk => ?_
    refine (renamed_subhistories hf hg trunk).bind fun subs => ?_
    rw [resolveReleases_rename hf hg]
    rfl
  rw [hrenamed]
  cases crossReference index reference <;> rfl

/-- A release whose copy changed, and one that was taken from the reference line. -/
def changedCopy : ContentIndex where
  histories := .ofList [("svn/tags", ["G2", "G1"]), ("svn/trunk", ["C2", "C1"])]
  records := .ofList
    [("C1", ⟨.ofList [("/", "T1")], .empty⟩), ("C2", ⟨.ofList [("/", "T2")], .empty⟩),
      ("G1", ⟨.ofList [("/v1.0/", "T8"), ("/v2.0/", "T1")], .empty⟩),
      ("G2", ⟨.ofList [("/v1.0/", "T9"), ("/v2.0/", "T1")], .empty⟩)]

/-- Names are exchanged against their order, in an index with and in one without its records. -/
theorem crossReference_rename_changedCopy :
    let f : CommitId → CommitId := Equiv.swap "C2" "G1"
    let g : TreeId → TreeId := Equiv.swap "T1" "T9"
    let unread : ContentIndex := ⟨changedCopy.histories, .empty⟩
    (∃ c, crossReference changedCopy "svn/trunk" = .ok c ∧
      c.subhistories.get? "svn/tags/v2.0/" = some ⟨["T1"], some "C1", some "C1"⟩ ∧
      crossReference (changedCopy.rename f g) "svn/trunk" = .ok (c.rename f g)) ∧
    crossReference unread "svn/trunk" = .error (.missingScan "C2" "svn/trunk") ∧
    crossReference (unread.rename f g) "svn/trunk" = .error (.missingScan "G1" "svn/trunk") := by
  intro f g unread
  have hf : f.Injective := (Equiv.swap "C2" "G1").injective
  have hg : g.Injective := (Equiv.swap "T1" "T9").injective
  let trunk : SortedMap CommitId := .ofList [("T1", "C1"), ("T2", "C2")]
  let subs : SortedMap Subhistory := .ofList
    [("svn/tags/v1.0/", ⟨["T9", "T8"], none, none⟩),
      ("svn/tags/v2.0/", ⟨["T1"], some "C1", some "C1"⟩)]
  have hc : crossReference changedCopy "svn/trunk" = .ok ⟨subs, resolveReleases subs trunk⟩ :=
    crossReference_eq_ok_iff.2 ⟨trunk, by decide +kernel, by decide +kernel, rfl⟩
  have hunread : crossReference unread "svn/trunk" = .error (.missingScan "C2" "svn/trunk") := by
    decide +kernel
  refine ⟨⟨_, hc, by decide +kernel, ?_⟩, hunread, ?_⟩
  · rw [crossReference_rename hf hg, hc]
  · rw [crossReference_rename hf hg, hunread]
    decide +kernel

end ReleaseRecovery
