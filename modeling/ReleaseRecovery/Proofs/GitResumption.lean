import ReleaseRecovery.Proofs.GitNames
import ReleaseRecovery.Proofs.Resumption

/-!
# Applying a plan to a repository in several attempts

A repository of objects and refs names a commit by what it is made of, and what has been written is
found ever after. An attempt that fails half-way can leave directories behind, or the log of a ref
that was not made. They do not stand in the way of the next attempt, which fails in the same way,
unless a part of the name of the ref is too long for a file.

## Main Definitions

* `Git.RefName.HasShortParts` — no part of the name of a ref is too long for a file

## Main Statements

* `Git.Store.remembers` — whatever was written to a repository is found in every larger one
* `Git.Store.writeRef_refused_again` — a ref that could not be written cannot be written later
* `Git.Store.isContentNamed` — a repository names commits by their content, and keeps its refs
* `Git.Store.applyPlan_reattempted` — a plan that is applied to a repository in several attempts
  leaves the same repository as one that is applied at once
-/

namespace ReleaseRecovery.Git

/-! ### Names below `refs/` -/

namespace RefName

variable {directory name rest : String}

/-- No part of the name of a ref is too long for a file. -/
def HasShortParts (full : String) : Prop :=
  ∀ name, normal? full = some name → (Path.parts name).all isShort = true

theorem isBelow_iff :
    isBelow directory name = true ↔ directory.toList ++ ['/'] <+: name.toList := by
  rw [isBelow, List.isPrefixOf_iff_prefix]

theorem isBelow_trans {a b c : String} (h : isBelow a b = true) (h' : isBelow b c = true) :
    isBelow a c = true := by
  rw [isBelow_iff] at h h' ⊢
  exact (h.trans (List.prefix_append _ _)).trans h'

theorem isBelow_append (h : isBelow directory name = true) (rest : String) :
    isBelow directory (name ++ rest) = true := by
  rw [isBelow_iff] at h ⊢
  rw [String.toList_append]
  exact h.trans (List.prefix_append _ _)

/-- What is below one of two directories whose names differ in the first letter is not below the
other one. -/
theorem not_isBelow_of_head_ne {other : String} {c d : Char}
    (h : isBelow directory name = true) (hc : directory.toList.head? = some c)
    (hd : other.toList.head? = some d) (hne : c ≠ d) : ¬ isBelow other name = true := by
  intro hbelow
  rw [isBelow_iff] at h hbelow
  obtain ⟨_, hname⟩ := h
  obtain ⟨_, hname'⟩ := hbelow
  have hfirst : name.toList.head? = some c := by
    rw [← hname, List.append_assoc, List.head?_append, hc]
    rfl
  have hfirst' : name.toList.head? = some d := by
    rw [← hname', List.append_assoc, List.head?_append, hd]
    rfl
  exact hne (Option.some.inj (hfirst.symm.trans hfirst'))

theorem not_isBelow_logs (h : isBelow "refs" name = true) : ¬ isBelow "logs" name = true :=
  not_isBelow_of_head_ne h (c := 'r') (d := 'l') rfl rfl (by decide)

/-- A name below `refs/` stays there in its normal form. -/
theorem isBelow_of_normal? (h : normal? ("refs/" ++ rest) = some name) :
    isBelow "refs" name = true := by
  have hsplit : ("refs/" ++ rest).toList.splitOn '/' =
      "refs".toList :: rest.toList.splitOn '/' := by
    rw [String.toList_append]
    exact List.splitOn_append_cons_self "refs".toList rest.toList
  unfold normal? at h
  dsimp only at h
  split at h
  · rename_i hcond
    obtain ⟨-, -, -, -, -, hcapital⟩ := hcond
    rw [hsplit, List.filter_cons_of_pos (by decide)] at h hcapital
    -- A name of one part would have to be in capital letters.
    cases hparts : (rest.toList.splitOn '/').filter (· != []) with
    | nil =>
      rw [hparts] at hcapital
      exact absurd hcapital (by decide)
    | cons part parts =>
      rw [hparts] at h
      rw [isBelow_iff, ← Option.some.inj h, String.toList_intercalate]
      exact ⟨_, (List.intercalate_cons_cons).symm⟩
  · cases h

/-- A name below `refs/` with no part that is too long leads to a ref or to nothing. -/
theorem isClear_of_short (h : isBelow "refs" name = true)
    (hshort : (Path.parts name).all isShort = true) : isClear name = true := by
  have hlogs := not_isBelow_logs h
  have hobjects : ¬ isBelow "objects" name = true :=
    not_isBelow_of_head_ne h (c := 'r') (d := 'o') rfl rfl (by decide)
  rw [Bool.not_eq_true] at hlogs hobjects
  rw [isClear, hlogs, hobjects, hshort]
  rfl

end RefName

namespace Store

variable {s t : Store} {name : String}

theorem clear_clear (s : Store) (name : String) : (s.clear name).clear name = s.clear name := by
  simp [clear]

theorem opened_opened (s : Store) (name : String) :
    (s.opened name).opened name = s.opened name := by
  simp only [opened, clear]
  congr 1
  by_cases h : RefName.reach name ∈ s.spare.filter fun d => d != name && !RefName.isBelow name d
  · rw [List.insert_of_mem h, List.filter_filter]
    simp only [Bool.and_self]
    rw [List.insert_of_mem h]
  · rw [List.insert_of_not_mem h, List.filter_cons]
    split
    · simp
    · simp only [List.filter_filter, Bool.and_self]
      rw [List.insert_of_not_mem h]

theorem withLog?_again (h : s.withLog? name = some t) :
    t.others.contains (logPath name) = true ∧ t.withLog? name = some t := by
  have hthere : t.others.contains (logPath name) = true := by
    unfold withLog? at h
    dsimp only at h
    split at h
    · rename_i hlog
      rwa [← Option.some.inj h]
    split at h
    · cases h
    · rw [← Option.some.inj h]
      exact List.contains_iff_mem.2 List.mem_cons_self
  exact ⟨hthere, if_pos hthere⟩

/-- A change that could not be noted cannot be noted later, either. -/
theorem noteChange_again (h : s.noteChange name = (false, t)) : t.noteChange name = (false, t) := by
  have horiginal := h
  unfold noteChange at h
  split at h
  · cases h
  split at h
  · obtain ⟨-, rfl⟩ := Prod.mk.inj h
    exact horiginal
  rename_i own hown
  obtain ⟨hlog, hagain⟩ := withLog?_again hown
  have hlogged : own.isLogged name = true := by
    rw [isLogged, hlog]
    rfl
  have hchange : own.noteChange name = (false, t) := by
    unfold noteChange
    rw [hlogged, hagain]
    exact h
  -- Whatever goes wrong after that, the log of the ref is what has been written.
  obtain rfl : own = t := by
    split at h
    · exact (Prod.mk.inj h).2
    split at h
    · cases h
    split at h
    · exact (Prod.mk.inj h).2
    · cases h
  exact hchange

/-- Whether there are certain files in a store does not depend on its logs if no log is one of
them. -/
theorem LogsOnly.any_files (h : LogsOnly s t) {p : String → Bool}
    (hp : ∀ path, RefName.isBelow "logs" path = true → p path = false) :
    t.files.any p = s.files.any p := by
  obtain ⟨logs, rfl, hlogs⟩ := h
  have hnone : logs.any p = false := List.any_eq_false.2 fun path hpath => by
    rw [hp path (hlogs path hpath)]
    exact Bool.false_ne_true
  simp [files, hnone]

/-- Whether the file of a ref can be written does not depend on logs. -/
theorem LogsOnly.allows_eq (h : LogsOnly s t) (hbelow : RefName.isBelow "refs" name = true) :
    t.allows name = s.allows name := by
  obtain ⟨logs, rfl, hlogs⟩ := h
  have hlock : logs.contains (name ++ ".lock") = false := by
    rw [Bool.eq_false_iff, ne_eq, List.contains_iff_mem]
    exact fun hmem =>
      RefName.not_isBelow_logs (RefName.isBelow_append hbelow ".lock") (hlogs _ hmem)
  simp only [allows, List.contains_append, hlock, Bool.false_or]

/-- A way that has been made stays while changes are noted. -/
theorem LogsOnly.opened_eq_self (h : LogsOnly (s.opened name) t) : t.opened name = t := by
  obtain ⟨logs, rfl, -⟩ := h
  exact congrArg (fun u : Store => { u with others := logs ++ s.others }) (s.opened_opened name)

section Refused

variable {id : Id} {failure e : Failure}

/-- Why a ref cannot be added, and what the store has got then: a file stands on the way to its
place, or beyond it, or its own file cannot be written, or its change cannot be noted. -/
theorem addRef_eq_error_iff : s.addRef name id failure = (.error e, t) ↔
    failure = e ∧
      (s.files.any (RefName.isBelow · name) = true ∧ s = t ∨
      s.files.any (RefName.isBelow · name) = false ∧
        (s.files.any (RefName.isBelow name) = true ∧ s.clear name = t ∨
        s.files.any (RefName.isBelow name) = false ∧
          (s.allows name = false ∧ s.opened name = t ∨
          s.allows name = true ∧ (s.opened name).noteChange name = (false, t)))) := by
  unfold addRef
  show (if s.files.any (RefName.isBelow · name) then (Except.error failure, s)
    else if s.files.any (RefName.isBelow name) then (.error failure, s.clear name)
    else if !s.allows name then (.error failure, s.opened name)
    else _) = _ ↔ _
  cases s.files.any (RefName.isBelow · name) with
  | true => simp
  | false =>
    cases s.files.any (RefName.isBelow name) with
    | true => simp
    | false =>
      cases s.allows name with
      | false => simp
      | true =>
        rcases (s.opened name).noteChange name with ⟨_ | _, noted⟩
        · simp
        · simp

/-- What a store has got where a ref could not be added: directories, and logs at most. -/
theorem adds_of_addRef_eq_error {names : String → Prop}
    (h : s.addRef name id failure = (.error e, t)) : Adds names s t := by
  have hlogs : ∀ {u : Store}, LogsOnly (s.opened name) u → Adds names s u := by
    rintro _ ⟨logs, rfl, hlogs⟩
    refine ⟨⟨fun _ _ h => h, fun _ _ h => h⟩, fun _ _ h => .inl h, fun path hpath => ?_⟩
    rcases List.mem_append.1 hpath with hpath | hpath
    · exact .inr (hlogs path hpath)
    · exact .inl hpath
  obtain ⟨-, ⟨-, rfl⟩ | ⟨-, ⟨-, rfl⟩ | ⟨-, ⟨-, rfl⟩ | ⟨-, hchange⟩⟩⟩⟩ := addRef_eq_error_iff.1 h
  · exact .refl s
  · exact ⟨⟨fun _ _ h => h, fun _ _ h => h⟩, fun _ _ h => .inl h, fun _ h => .inl h⟩
  · exact hlogs (.refl _)
  · have hnoted := logsOnly_noteChange (s.opened name) name
    rw [hchange] at hnoted
    exact hlogs hnoted

/-- A ref that could not be added cannot be added later, either. -/
theorem addRef_again (hbelow : RefName.isBelow "refs" name = true)
    (h : s.addRef name id failure = (.error e, t)) :
    t.addRef name id failure = (.error e, t) := by
  rw [addRef_eq_error_iff] at h ⊢
  obtain ⟨hfailure, ⟨hway, rfl⟩ | ⟨hway, h⟩⟩ := h
  · exact ⟨hfailure, .inl ⟨hway, rfl⟩⟩
  refine ⟨hfailure, .inr ?_⟩
  obtain ⟨hbeyond, rfl⟩ | ⟨hbeyond, ⟨hforbidden, rfl⟩ | ⟨hallowed, hchange⟩⟩ := h
  · exact ⟨hway, .inl ⟨hbeyond, clear_clear s name⟩⟩
  · exact ⟨hway, .inr ⟨hbeyond, .inl ⟨hforbidden, opened_opened s name⟩⟩⟩
  -- What has been noted are logs, none of which is in the way.
  have hnoted := logsOnly_noteChange (s.opened name) name
  rw [hchange] at hnoted
  refine ⟨?_, .inr ⟨?_, .inr ⟨?_, ?_⟩⟩⟩
  · rw [hnoted.any_files fun path hlog => Bool.eq_false_iff.2 fun hpath => ?_]
    · exact hway
    · exact RefName.not_isBelow_logs hbelow (RefName.isBelow_trans hlog hpath)
  · rw [hnoted.any_files fun path hlog => Bool.eq_false_iff.2 fun hpath => ?_]
    · exact hbeyond
    · exact RefName.not_isBelow_logs (RefName.isBelow_trans hbelow hpath) hlog
  · rw [hnoted.allows_eq hbelow]
    exact hallowed
  · rw [hnoted.opened_eq_self]
    exact noteChange_again hchange

/-- A name that is vacant is still vacant once a ref could not be added under it, if it leads to a
ref or to nothing. -/
theorem vacancy_again {target : CommitId} {given : String} (hclear : RefName.isClear name = true)
    (hadds : Adds (fun _ => False) s t) (h : s.vacancy given target = .ok (some (name, id))) :
    t.vacancy given target = .ok (some (name, id)) := by
  obtain ⟨hid, hname, hmissing, c, hc⟩ := vacancy_eq_ok_some_iff.1 h
  refine vacancy_eq_ok_some_iff.2 ⟨hid, hname, ?_, c, hadds.find _ _ _ _ _ hc⟩
  exact hadds.lookUp_missing hclear not_false hmissing

/-- A ref that could not be written cannot be written later, either, and the store stays as the
first attempt has left it. -/
theorem writeRef_refused_again {full rest : String} {target : CommitId}
    (hfull : full = "refs/" ++ rest) (hshort : RefName.HasShortParts full)
    (h : s.writeRef full target = (.error e, t)) :
    Within s t ∧ t.writeRef full target = (.error e, t) := by
  have horiginal := h
  unfold writeRef at h
  split at h
  · obtain ⟨-, rfl⟩ := Prod.mk.inj h
    exact ⟨.refl s, horiginal⟩
  · cases h
  rename_i name id hvacancy
  have hname : RefName.normal? full = some name :=
    Option.eq_some_of_filter_eq_some (vacancy_eq_ok_some_iff.1 hvacancy).2.1
  have hbelow := RefName.isBelow_of_normal? (hfull ▸ hname)
  have hclear := RefName.isClear_of_short hbelow (hshort name hname)
  have hadds : Adds (fun _ => False) s t := adds_of_addRef_eq_error h
  refine ⟨hadds.toWithin, ?_⟩
  rw [writeRef, vacancy_again hclear hadds hvacancy]
  exact addRef_again hbelow h

end Refused

/-! ### Resuming -/

/-- Whatever was written to a repository is found in every larger one, and is not written again
there. -/
theorem remembers : Remembers (id : Store → Store) Within where
  refl := .refl
  trans := .trans
  createCommit c s _ t h := by
    have hadds : Adds (fun _ => False) s t := adds_createCommit h
    exact ⟨hadds.toWithin, fun u hu => ⟨u, createCommit_again h hu, rfl⟩⟩
  createTag _ _ _ _ _ h := ⟨(adds_writeRef h).toWithin, fun u hu => ⟨u, writeRef_again h hu, rfl⟩⟩
  createBranch _ _ _ _ _ h :=
    ⟨(adds_writeRef h).toWithin, fun u hu => ⟨u, writeRef_again h hu, rfl⟩⟩

/-- Whether a ref can be written is settled by the first attempt. -/
theorem isSteady_writeRef {full rest : String} (hfull : full = "refs/" ++ rest)
    (hshort : RefName.HasShortParts full) (target : CommitId) :
    IsSteady (id : Store → Store) Within fun s => s.writeRef full target where
  alike := by
    rintro s _ rfl
    exact ⟨rfl, rfl⟩
  failed h := by
    obtain ⟨hwithin, hagain⟩ := writeRef_refused_again hfull hshort h
    exact ⟨hwithin, congrArg Prod.fst hagain, congrArg Prod.snd hagain⟩

/-- Whether a commit can be made is settled by the first attempt. -/
theorem isSteady_createCommit (c : NewCommit) :
    IsSteady (id : Store → Store) Within fun s => s.createCommit c where
  alike := by
    rintro s _ rfl
    exact ⟨rfl, rfl⟩
  failed {s t e} h := by
    have hsame : s = t := by
      unfold createCommit at h
      split at h
      · cases h
      · exact (Prod.mk.inj h).2
    subst hsame
    exact ⟨.refl s, congrArg Prod.fst h, congrArg Prod.snd h⟩

/-- A repository names commits by their content, and keeps its refs. Whether a ref can be written is
settled by the first attempt if no part of its name is too long for a file. -/
theorem isContentNamed : IsContentNamed refs id Within RefName.HasShortParts where
  toRemembers := remembers
  refs_eq := congrArg refs
  steadyCommit := isSteady_createCommit
  steadyTag name target h := by
    have hfull : "refs/tags/" ++ name = "refs/" ++ ("tags/" ++ name) := by
      rw [← String.append_assoc]
      rfl
    exact isSteady_writeRef hfull h target
  steadyBranch name target h := by
    have hfull : "refs/heads/" ++ name = "refs/" ++ ("heads/" ++ name) := by
      rw [← String.append_assoc]
      rfl
    exact isSteady_writeRef hfull h target

/-- A plan that is applied to a repository in several attempts, each of which was stopped anywhere
or has got to its end, comes to the same report but for what is new, or fails in the same way, and
leaves the same repository as if it had been applied at once. -/
theorem applyPlan_reattempted {options : ApplyOptions} {plan : ReleasePlan}
    (hshort : ∀ name, options.Names plan name → RefName.HasShortParts name)
    (earlier : List Interrupt) (store : Store) :
    let atOnce : Except Failure ApplyReport × Session Store :=
      (applyPlan options .never plan).after ⟨store, []⟩
    let resumed : Except Failure ApplyReport × Session Store :=
      (applyPlan options .never plan).after ⟨earlier.foldl (applied options plan) store, []⟩
    resumed.1.map ApplyReport.settled = atOnce.1.map ApplyReport.settled ∧
      resumed.2.repo = atOnce.2.repo :=
  reapplied (isContentNamed.mono hshort) earlier store

end Store

end ReleaseRecovery.Git
