import Mathlib.Data.List.Induction
import ReleaseRecovery.Proofs.Applying
import ReleaseRecovery.Proofs.Runs

/-!
# Refs that are there

A ref that is there is never moved or deleted, whatever is done with a store in memory, in which
order, and however it ends. Every ref that is new is a tag of a planned release or the branch.

## Main Definitions

* `Deed` — a plan is applied to a store, or a whole run takes place on it
* `Deed.MayWrite` — the refs that a deed can have written
* `Memory.afterDeeds` — a store after some deeds

## Main Statements

* `Deed.adds` — a deed only adds to a store
* `Memory.adds_afterDeeds` — so do several deeds
* `refs_never_move` — what deeds do to refs and commits
-/

namespace ReleaseRecovery

/-- Something that is done with a store: a plan is applied, or a whole run takes place, with
whatever files there are. Both can be asked to stop at any moment. -/
inductive Deed
  | apply (options : ApplyOptions) (interrupt : Interrupt) (plan : ReleasePlan)
  | run (settings : Settings) (interrupt : Interrupt) (now : Instant) (files : Files)
    (schedule : Schedule)

namespace Deed

/-- The store after a deed, whether that succeeds or fails. -/
def store (m : Memory) : Deed → Memory
  | apply options interrupt plan => ((applyPlan options interrupt plan).after ⟨m, []⟩).2.repo
  | run settings interrupt now files schedule =>
    (ReleaseRecovery.run settings interrupt now m files schedule).repo

/-- A ref is one of those that a deed can have written: a tag of a release of the plan that is
applied, or the branch. A run applies the plan that follows from its own index, if it goes that
far. -/
def MayWrite (m : Memory) (name : String) : Deed → Prop
  | apply options _ plan => options.Names plan name
  | run settings interrupt now files schedule =>
    settings.stage = .apply ∧ ∃ index x,
      (buildIndex m settings interrupt files schedule).result = .ok index ∧
      crossReference index settings.layout.reference = .ok x ∧
      (settings.applyOptions now).Names x.plan name

end Deed

/-- A store in memory after some deeds, one after the other. -/
def Memory.afterDeeds (m : Memory) (deeds : List Deed) : Memory := deeds.foldl Deed.store m

section Planning

variable {settings : Settings} {interrupt : Interrupt} {now : Instant} {index : ContentIndex}

/-- Planning and applying adds nothing to a store but refs of the plan, and some commits. -/
theorem adds_planAndApply (s : Session Memory) :
    Memory.Adds
      (fun name => settings.stage = .apply ∧ ∃ x,
        crossReference index settings.layout.reference = .ok x ∧
        (settings.applyOptions now).Names x.plan name)
      s.repo ((planAndApply settings interrupt now index).after s).2.repo := by
  cases hcross : crossReference index settings.layout.reference with
  | error e =>
    rw [after_planAndApply_of_error hcross]
    exact .refl s.repo
  | ok x =>
    have hkeeps : (planAndApply settings interrupt now index).Keeps
        (Memory.Adds fun name => settings.stage = .apply ∧
          (settings.applyOptions now).Names x.plan name) := by
      rw [planAndApply_of_ok hcross]
      have htrans : ∀ a b c, Memory.Adds (fun name => settings.stage = .apply ∧
          (settings.applyOptions now).Names x.plan name) a b →
          Memory.Adds _ b c → Memory.Adds _ a c := fun _ _ _ => Memory.Adds.trans
      refine (Writing.keeps_unlessRaised Memory.Adds.refl interrupt _).bind htrans fun _ => ?_
      split
      · rename_i hstage
        refine (Writing.keeps_unlessRaised Memory.Adds.refl interrupt _).bind htrans fun _ => ?_
        refine Writing.Keeps.bind htrans ?_ fun _ => .pure Memory.Adds.refl _
        intro s
        have := Memory.keeps_adds_applyPlan (settings.applyOptions now) interrupt x.plan s
        exact this.mono fun name hname => ⟨hstage, hname⟩
      · exact .pure Memory.Adds.refl _
    refine (hkeeps s).mono ?_
    rintro name ⟨hstage, hname⟩
    exact ⟨hstage, x, rfl, hname⟩

end Planning

/-- A deed adds nothing to a store but refs that it may write, and some commits. -/
theorem Deed.adds (m : Memory) (deed : Deed) :
    Memory.Adds (fun name => deed.MayWrite m name) m (deed.store m) := by
  cases deed with
  | apply options interrupt plan => exact Memory.keeps_adds_applyPlan options interrupt plan ⟨m, []⟩
  | run settings interrupt now files schedule =>
    show Memory.Adds _ m (ReleaseRecovery.run settings interrupt now m files schedule).repo
    rcases run_cases settings interrupt now m files schedule with
      ⟨hsame, -⟩ | ⟨index, hindex, -, hrepo, -⟩
    · rw [hsame]
      exact .refl m
    · rw [hrepo]
      let s : Session Memory := ⟨m, (buildIndex m settings interrupt files schedule).done⟩
      refine (adds_planAndApply s).mono ?_
      rintro name ⟨hstage, x, hcross, hname⟩
      exact ⟨hstage, index, x, hindex, hcross, hname⟩

namespace Memory

variable {m : Memory} {earlier later : List Deed}

theorem afterDeeds_append (m : Memory) (earlier later : List Deed) :
    m.afterDeeds (earlier ++ later) = (m.afterDeeds earlier).afterDeeds later :=
  List.foldl_append

/-- Deeds add nothing to a store but refs that one of them has written, and some commits. -/
theorem adds_afterDeeds (m : Memory) (deeds : List Deed) :
    Adds
      (fun name => ∃ earlier deed later, deeds = earlier ++ deed :: later ∧
        deed.MayWrite (m.afterDeeds earlier) name)
      m (m.afterDeeds deeds) := by
  induction deeds using List.reverseRecOn with
  | nil => exact .refl m
  | append_singleton deeds deed ih =>
    rw [afterDeeds_append]
    refine Adds.trans (ih.mono ?_) ((deed.adds (m.afterDeeds deeds)).mono ?_)
    · rintro name ⟨earlier, first, later, rfl, hname⟩
      exact ⟨earlier, first, later ++ [deed], by simp, hname⟩
    · intro name hname
      exact ⟨deeds, deed, [], rfl, hname⟩

end Memory

/-- Whatever is done with a store in memory, refs stay where they are once they are there, and
commits are only made after those that are there. A ref that is there in the end and was not there
at the start was added by one of the deeds: it is a tag of a release in the plan that was applied,
or the branch. To write a ref that points elsewhere fails and leaves everything as it is. -/
theorem refs_never_move (m : Memory) (deeds : List Deed) :
    (∀ earlier later, deeds = earlier ++ later →
      (∀ name c, (m.afterDeeds earlier).refs.get? name = some c →
        (m.afterDeeds deeds).refs.get? name = some c) ∧
      (m.afterDeeds earlier).written <+: (m.afterDeeds deeds).written) ∧
    (∀ name c, m.refs.get? name = none → (m.afterDeeds deeds).refs.get? name = some c →
      ∃ earlier deed later, deeds = earlier ++ deed :: later ∧
        deed.MayWrite (m.afterDeeds earlier) name) ∧
    ∀ (store : Memory) (name : String) (existing target : CommitId), existing ≠ target →
      (store.refs.get? ("refs/tags/" ++ name) = some existing →
        Repository.createTag store name target =
          (.error (.refConflict ("refs/tags/" ++ name) existing target), store)) ∧
      (store.refs.get? ("refs/heads/" ++ name) = some existing →
        Repository.createBranch store name target =
          (.error (.refConflict ("refs/heads/" ++ name) existing target), store)) := by
  refine ⟨?_, ?_, ?_⟩
  · rintro earlier later rfl
    rw [Memory.afterDeeds_append]
    have hadds := (m.afterDeeds earlier).adds_afterDeeds later
    exact ⟨hadds.kept, hadds.written⟩
  · intro name c hnone hc
    rcases (m.adds_afterDeeds deeds).added name c hc with hold | hname
    · rw [hnone] at hold
      cases hold
    · exact hname
  · intro store name existing target hne
    exact ⟨Memory.writeRef_of_ne hne, Memory.writeRef_of_ne hne⟩

end ReleaseRecovery
