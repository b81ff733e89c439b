import ReleaseRecovery.Proofs.GitGrowth

/-!
# Writing to a repository again

A store of objects and refs names a commit by its content, and does not move a ref. So a commit that
was made is made again without any change, and a ref that was written is found where it is to point,
however much the store has grown since.

## Main Definitions

* `Git.Store.LogsOnly` — nothing but logs has been written
* `Git.Store.Adds` — nothing but objects, some refs and logs have been written

## Main Statements

* `Git.Store.createCommit_again`, `Git.Store.writeRef_again` — what was written is not written again
* `Git.Store.adds_createCommit`, `Git.Store.adds_writeRef` — what a store has got
-/

namespace ReleaseRecovery.Git.Store

variable {s t u : Store}

/-! ### Logs -/

/-- A store has got nothing but logs. -/
def LogsOnly (s t : Store) : Prop :=
  ∃ logs, t = { s with others := logs ++ s.others } ∧
    ∀ path ∈ logs, RefName.isBelow "logs" path = true

theorem LogsOnly.refl (s : Store) : LogsOnly s s := ⟨[], rfl, nofun⟩

theorem LogsOnly.trans (h : LogsOnly s t) (h' : LogsOnly t u) : LogsOnly s u := by
  obtain ⟨logs, rfl, hlogs⟩ := h
  obtain ⟨logs', rfl, hlogs'⟩ := h'
  refine ⟨logs' ++ logs, by simp, fun path hpath => ?_⟩
  rcases List.mem_append.1 hpath with hpath | hpath
  · exact hlogs' path hpath
  · exact hlogs path hpath

theorem logsOnly_withLog? {name : String} (h : s.withLog? name = some t) : LogsOnly s t := by
  unfold withLog? at h
  dsimp only at h
  split at h
  · exact Option.some.inj h ▸ .refl s
  split at h
  · cases h
  · obtain rfl := Option.some.inj h
    refine ⟨[logPath name], rfl, fun path hpath => ?_⟩
    rw [List.mem_singleton.1 hpath, RefName.isBelow, logPath, String.toList_append]
    exact List.isPrefixOf_iff_prefix.2 (List.prefix_append _ _)

/-- Noting a change writes nothing but logs. -/
theorem logsOnly_noteChange (s : Store) (name : String) : LogsOnly s (s.noteChange name).2 := by
  unfold noteChange
  split
  · exact .refl s
  split
  · exact .refl s
  rename_i own hown
  have hfirst := logsOnly_withLog? hown
  split
  · exact hfirst
  split
  · exact hfirst
  split
  · exact hfirst
  · rename_i both hboth
    exact hfirst.trans (logsOnly_withLog? hboth)

/-! ### What is added -/

/-- A store has got nothing but objects, refs of given names that point at objects, and logs. -/
structure Adds (names : String → Prop) (s t : Store) : Prop extends Within s t where
  added : ∀ name target, t.refs.get? name = some target →
    s.refs.get? name = some target ∨ (names name ∧ ∃ id, target = .object id)
  others : ∀ path ∈ t.others, path ∈ s.others ∨ RefName.isBelow "logs" path = true

variable {names : String → Prop}

theorem Adds.refl (s : Store) : Adds names s s :=
  ⟨.refl s, fun _ _ h => .inl h, fun _ h => .inl h⟩

theorem Adds.trans (h : Adds names s t) (h' : Adds names t u) : Adds names s u := by
  refine ⟨h.toWithin.trans h'.toWithin, fun name target htarget => ?_, fun path hpath => ?_⟩
  · rcases h'.added name target htarget with htarget | hnew
    · exact h.added name target htarget
    · exact .inr hnew
  · rcases h'.others path hpath with hpath | hlog
    · exact h.others path hpath
    · exact .inr hlog

theorem Adds.mono {wider : String → Prop} (h : Adds names s t)
    (hwider : ∀ name, names name → wider name) : Adds wider s t :=
  ⟨h.toWithin, fun name target ht => (h.added name target ht).imp_right (.imp_left (hwider name)),
    h.others⟩

/-! ### Commits -/

theorem within_add (s : Store) (o : Object) : Within s (s.add o) := by
  unfold add
  split
  · exact .refl s
  · rename_i hnew
    refine ⟨fun hex o' ho' => ?_, fun _ _ h => h⟩
    have hne : hex ≠ o.id.hex := by
      rintro rfl
      rw [SortedMap.contains, ho'] at hnew
      exact hnew rfl
    rw [SortedMap.get?_insert, if_neg hne, ho']

theorem adds_add (s : Store) (o : Object) : Adds names s (s.add o) := by
  have hothers : (s.add o).others = s.others := by
    unfold add
    split <;> rfl
  refine ⟨within_add s o, fun name target h => .inl ?_, fun path h => .inl (hothers ▸ h)⟩
  rwa [refs_add] at h

theorem contains_add (s : Store) (o : Object) : (s.add o).objects.contains o.id.hex = true := by
  unfold add
  split
  · assumption
  · rw [SortedMap.contains, SortedMap.get?_insert, if_pos rfl]
    rfl

theorem add_of_contains {o : Object} (h : s.objects.contains o.id.hex = true) : s.add o = s :=
  if_pos h

theorem createCommit_eq_ok {c : NewCommit} {id : CommitId}
    (h : s.createCommit c = (.ok id, t)) :
    ∃ o, s.draft c = .ok o ∧ id = o.id.hex ∧ t = s.add o := by
  unfold createCommit at h
  split at h
  · rename_i o ho
    rw [Prod.mk.injEq, Except.ok.injEq] at h
    exact ⟨o, ho, h.1.symm, h.2.symm⟩
  · cases h

/-- Making a commit adds an object. -/
theorem adds_createCommit {c : NewCommit} {id : CommitId} (h : s.createCommit c = (.ok id, t)) :
    Adds names s t := by
  obtain ⟨o, -, -, rfl⟩ := createCommit_eq_ok h
  exact adds_add s o

/-- A commit that was made is there, and to make it again changes nothing. -/
theorem createCommit_again {c : NewCommit} {id : CommitId} (h : s.createCommit c = (.ok id, t))
    (hwithin : Within t u) : u.createCommit c = (.ok id, u) := by
  obtain ⟨o, hdraft, rfl, rfl⟩ := createCommit_eq_ok h
  have hsu : Within s u := (within_add s o).trans hwithin
  have hthere : u.objects.contains o.id.hex = true := by
    obtain ⟨o', ho'⟩ := Option.isSome_iff_exists.1 (contains_add s o)
    rw [SortedMap.contains, hwithin.objects _ _ ho']
    rfl
  unfold createCommit
  rw [hsu.draft c o hdraft]
  dsimp only
  rw [add_of_contains hthere]

/-! ### Refs -/

variable {name : String} {target : CommitId}

/-- A name is not vacant exactly if its ref points at the commit already. -/
theorem vacancy_eq_ok_none_iff :
    s.vacancy name target = .ok none ↔ ∃ id normal existing, parseId target = .ok id ∧
      (RefName.normal? name).filter RefName.fits = some normal ∧
      s.refs.get? normal = some existing ∧ s.pointsAt? existing = some id := by
  unfold vacancy
  rw [bind_eq_ok_iff]
  refine exists_congr fun id => ?_
  constructor
  · rintro ⟨hid, h⟩
    split at h
    · cases h
    rename_i normal hnormal
    split at h
    · cases h
    · obtain ⟨_, -, h⟩ := bind_eq_ok_iff.1 h
      cases h
    rename_i existing hlook
    split at h
    · cases h
    rename_i current hpoints
    split at h
    · rename_i heq
      exact ⟨normal, existing, hid, hnormal, lookUp_eq_ok_iff.1 hlook, heq ▸ hpoints⟩
    · cases h
  · rintro ⟨normal, existing, hid, hnormal, hget, hpoints⟩
    refine ⟨hid, ?_⟩
    rw [hnormal]
    dsimp only
    rw [lookUp_eq_ok_iff.2 hget]
    dsimp only
    rw [hpoints]
    exact if_pos rfl

/-- A name is vacant exactly if nothing stands under it and the commit that its ref is to point at
is there. -/
theorem vacancy_eq_ok_some_iff {normal : String} {id : Id} :
    s.vacancy name target = .ok (some (normal, id)) ↔ parseId target = .ok id ∧
      (RefName.normal? name).filter RefName.fits = some normal ∧
      s.lookUp normal = .error .missing ∧ ∃ c, s.findCommit id target = .ok c := by
  unfold vacancy
  rw [bind_eq_ok_iff]
  constructor
  · rintro ⟨id', hid, h⟩
    split at h
    · cases h
    rename_i normal' hnormal
    split at h
    · cases h
    · rename_i hmissing
      obtain ⟨c, hc, h⟩ := bind_eq_ok_iff.1 h
      cases h
      exact ⟨hid, hnormal, hmissing, c, hc⟩
    · split at h
      · cases h
      · split at h
        · cases h
        · cases h
  · rintro ⟨hid, hnormal, hmissing, c, hc⟩
    refine ⟨id, hid, ?_⟩
    rw [hnormal]
    dsimp only
    rw [hmissing]
    exact bind_eq_ok_iff.2 ⟨c, hc, rfl⟩

/-- A commit leads to itself. -/
theorem peel?_of_findCommit {id : Id} {given : String} {c : Commit}
    (h : s.findCommit id given = .ok c) : s.peel? id = some id := by
  unfold findCommit find at h
  split at h
  · split at h <;> cases h
  rename_i o ho
  split at h
  · cases h
  rename_i hkind
  split at h
  · rename_i c' hdecode
    have hcommit : isCommit o = true := by
      rw [isCommit, hdecode, not_not.1 hkind]
      rfl
    refine Option.bind_eq_some_iff.2 ⟨o, ho, ?_⟩
    rw [if_neg (by simp), if_pos hcommit]
  · cases h

/-- A ref that was added is there, and logs at most have come with it. -/
theorem addRef_eq_ok {normal : String} {id : Id} {failure : Failure} {update : RefUpdate}
    (h : s.addRef normal id failure = (.ok update, t)) :
    update = .created ∧ t.objects = s.objects ∧ t.refs = s.refs.insert normal (.object id) ∧
      ∀ path ∈ t.others, path ∈ s.others ∨ RefName.isBelow "logs" path = true := by
  unfold addRef at h
  split at h
  · cases h
  dsimp only at h
  split at h
  · cases h
  split at h
  · cases h
  obtain ⟨logs, hlogsOnly, hlogs⟩ := logsOnly_noteChange (s.opened normal) normal
  split at h
  · cases h
  · rename_i noted hnoted
    rw [hnoted] at hlogsOnly
    dsimp only at hlogsOnly
    rw [Prod.mk.injEq, Except.ok.injEq] at h
    obtain ⟨rfl, rfl⟩ := h
    rw [hlogsOnly]
    refine ⟨rfl, rfl, rfl, fun path hpath => ?_⟩
    rcases List.mem_append.1 hpath with hpath | hpath
    · exact .inr (hlogs path hpath)
    · exact .inl hpath

/-- Writing a ref has found it where it is to point, or has added it. -/
theorem writeRef_eq_ok {update : RefUpdate} (h : s.writeRef name target = (.ok update, t)) :
    (update = .unchanged ∧ t = s ∧ s.vacancy name target = .ok none) ∨
      ∃ normal id, update = .created ∧ s.vacancy name target = .ok (some (normal, id)) ∧
        s.addRef normal id (.store ("creating " ++ name)) = (.ok update, t) := by
  unfold writeRef at h
  split at h
  · cases h
  · rename_i hvacancy
    rw [Prod.mk.injEq, Except.ok.injEq] at h
    exact .inl ⟨h.1.symm, h.2.symm, hvacancy⟩
  · rename_i normal id hvacancy
    exact .inr ⟨normal, id, (addRef_eq_ok h).1, hvacancy, h⟩

/-- Writing a ref adds it, unless it was there. -/
theorem adds_writeRef {update : RefUpdate} (h : s.writeRef name target = (.ok update, t)) :
    Adds (fun full => update = .created ∧ RefName.normal? name = some full) s t := by
  rcases writeRef_eq_ok h with ⟨-, rfl, -⟩ | ⟨normal, id, hcreated, hvacancy, hadd⟩
  · exact .refl t
  obtain ⟨-, hobjects, hrefs, hothers⟩ := addRef_eq_ok hadd
  have hfresh := get?_refs_of_vacancy hvacancy
  have hnormal := Option.eq_some_of_filter_eq_some (vacancy_eq_ok_some_iff.1 hvacancy).2.1
  refine ⟨⟨fun hex o ho => by rw [hobjects, ho], fun full existing hfull => ?_⟩,
    fun full existing hfull => ?_, hothers⟩
  · have hne : full ≠ normal := by
      rintro rfl
      rw [hfresh] at hfull
      cases hfull
    rw [hrefs, SortedMap.get?_insert, if_neg hne, hfull]
  · rw [hrefs, SortedMap.get?_insert] at hfull
    split at hfull
    · rename_i heq
      exact .inr ⟨⟨hcreated, heq ▸ hnormal⟩, id, (Option.some.inj hfull).symm⟩
    · exact .inl hfull

/-- A ref that was written is found where it is to point, and to write it again changes nothing. -/
theorem writeRef_again {update : RefUpdate} (h : s.writeRef name target = (.ok update, t))
    (hwithin : Within t u) : u.writeRef name target = (.ok .unchanged, u) := by
  have hsu : Within s u := (adds_writeRef h).toWithin.trans hwithin
  have hfound : u.vacancy name target = .ok none := by
    rw [vacancy_eq_ok_none_iff]
    rcases writeRef_eq_ok h with ⟨-, -, hvacancy⟩ | ⟨normal, id, -, hvacancy, hadd⟩
    · obtain ⟨id, normal, existing, hid, hnormal, hget, hpoints⟩ :=
        vacancy_eq_ok_none_iff.1 hvacancy
      exact ⟨id, normal, existing, hid, hnormal, hsu.refs _ _ hget, hsu.pointsAt? hpoints⟩
    · obtain ⟨hid, hnormal, -, c, hc⟩ := vacancy_eq_ok_some_iff.1 hvacancy
      have hget : t.refs.get? normal = some (.object id) := by
        rw [(addRef_eq_ok hadd).2.2.1, SortedMap.get?_insert, if_pos rfl]
      exact ⟨id, normal, .object id, hid, hnormal, hwithin.refs _ _ hget,
        hsu.peel? (peel?_of_findCommit hc)⟩
  unfold writeRef
  rw [hfound]

end ReleaseRecovery.Git.Store
