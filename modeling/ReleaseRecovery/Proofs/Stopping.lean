import ReleaseRecovery.Proofs.Refusals

/-!
# Applying a plan and being stopped

A run that is asked to stop while it applies a plan starts nothing any more. The release that is
being written at that moment is finished; after that nothing follows. Where the run stops, the store
is what applying the first releases of the plan alone comes to.

## Main Definitions

* `IsOneWriting` — what is written between two looks at the request to stop
* `Obeys` — what has been done since some moment, in view of the request to stop
* `Writing.Preserves` — what holds before a calculation holds after it

## Main Statements

* `obeys_applyPlan` — what is done while a plan is applied
* `repo_applyPlan_of_raised` — what a run that is asked to stop before it applies its plan does
* `interrupted_applyPlan` — what has been applied where a run was stopped
-/

namespace ReleaseRecovery

variable {ρ α β : Type}

/-! ### What is done -/

/-- What is written between two looks at the request to stop: the commit of a release, if it needs
one, and its tag, as far as the store does not refuse them, or else the branch. -/
inductive IsOneWriting : List Action → Prop
  | commit (tree : TreeId) : IsOneWriting [.createCommit tree]
  | tag (name : String) : IsOneWriting [.createTag name]
  | release (name : String) (tree : TreeId) :
    IsOneWriting [.createTag name, .createCommit tree]
  | branch (name : String) : IsOneWriting [.createBranch name]

/-- What has been done since some moment, in view of the request to stop: once the request stands,
nothing is done but to look at it, and to finish what was begun right after the last look that did
not find it. -/
def Obeys (interrupt : Interrupt) (start done : List Action) : Prop :=
  ∀ later earlier, done = later ++ earlier → start <:+ earlier → interrupt.raised earlier = true →
    unpolled later = [] ∨
      ∃ begun before, earlier = begun ++ .poll :: before ∧ start <:+ before ∧
        interrupt.raised before = false ∧ IsOneWriting (unpolled later ++ begun)

section Obeys

variable {interrupt : Interrupt} {start done : List Action}

/-- A request to stop stands from then on. -/
theorem Interrupt.raised_of_suffix (interrupt : Interrupt) {earlier done : List Action}
    (h : earlier <:+ done) (hraised : interrupt.raised earlier = true) :
    interrupt.raised done = true := by
  obtain ⟨later, rfl⟩ := h
  induction later with
  | nil => exact hraised
  | cons action later ih => exact interrupt.stays action _ ih

theorem IsOneWriting.ne_poll {writing : List Action} (h : IsOneWriting writing) :
    ∀ action ∈ writing, action ≠ .poll := by
  cases h <;> simp

theorem Obeys.refl (interrupt : Interrupt) (start : List Action) : Obeys interrupt start start := by
  intro later earlier hdone hstart _
  have hlength := hstart.length_le
  rw [hdone, List.length_append] at hlength
  obtain rfl : later = [] := List.eq_nil_of_length_eq_zero (by omega)
  exact .inl rfl

/-- Looking at the request does no harm. -/
theorem Obeys.poll (h : Obeys interrupt start done) : Obeys interrupt start (.poll :: done) := by
  intro later earlier hdone hstart hraised
  rcases List.cons_eq_append_iff.1 hdone with ⟨rfl, -⟩ | ⟨later', rfl, hdone'⟩
  · exact .inl rfl
  · rw [unpolled_poll]
    exact h later' earlier hdone' hstart hraised

/-- What is begun right after a look that does not find the request may be finished. -/
theorem obeys_writing (hstart : start <:+ done) (quiet : interrupt.raised done = false)
    {writing : List Action} (h : IsOneWriting writing) :
    Obeys interrupt start (writing ++ .poll :: done) := by
  intro later earlier hdone _ hraised
  -- The request comes after that look, so while this is being written.
  obtain ⟨begun, rfl, hearlier⟩ : ∃ begun, writing = later ++ begun ∧
      earlier = begun ++ .poll :: done := by
    obtain ⟨rest, rfl, hrest⟩ | h := List.append_eq_append_iff.1 hdone
    · rcases List.cons_eq_append_iff.1 hrest with ⟨rfl, hearlier⟩ | ⟨rest', -, hdone'⟩
      · exact ⟨[], by simp, hearlier⟩
      · rw [interrupt.raised_of_suffix ⟨rest', hdone'.symm⟩ hraised] at quiet
        cases quiet
    · exact h
  rw [unpolled_of_forall fun action hmem => h.ne_poll action (List.mem_append_left _ hmem)]
  exact .inr ⟨begun, done, hearlier, hstart, quiet, h⟩

end Obeys

/-! ### What a calculation preserves -/

namespace Writing

/-- What holds of the store and the actions before a calculation holds after it, however that
ends. -/
def Preserves (P : Session ρ → Prop) (w : Writing ρ α) : Prop := ∀ s, P s → P (w.after s).2

/-- What is made of a result leaves the store and the actions. -/
theorem session_bind_pure (w : Writing ρ α) (f : α → β) (s : Session ρ) :
    ((w >>= fun a => pure (f a)).after s).2 = (w.after s).2 := by
  rw [after_bind]
  rcases w.after s with ⟨e | a, s'⟩ <;> rfl

variable {P : Session ρ → Prop}

theorem Preserves.pure (a : α) : (Pure.pure a : Writing ρ α).Preserves P := by
  intro s h
  rw [after_pure]
  exact h

theorem preserves_unlessRaised (h : ∀ s, P s → P s.polled) (interrupt : Interrupt) (e : Failure) :
    (unlessRaised interrupt e).Preserves P := by
  intro s hs
  rw [after_unlessRaised]
  exact h s hs

theorem Preserves.bind {w : Writing ρ α} {f : α → Writing ρ β} (h : w.Preserves P)
    (hf : ∀ a, (f a).Preserves P) : (w >>= f).Preserves P := by
  intro s hs
  have hfirst := h s hs
  rcases hw : w.after s with ⟨e | a, s'⟩
  · rw [hw] at hfirst
    rw [after_bind_of_error hw]
    exact hfirst
  · rw [hw] at hfirst
    rw [after_bind_of_ok hw]
    exact hf a s' hfirst

theorem Preserves.foldlM {f : β → α → Writing ρ β} (h : ∀ b a, (f b a).Preserves P) (l : List α)
    (b : β) : (l.foldlM f b).Preserves P := by
  induction l generalizing b with
  | nil => exact .pure b
  | cons a l ih =>
    rw [List.foldlM_cons]
    exact (h b a).bind ih

end Writing

/-! ### Applying a plan -/

section Applying

variable [Repository ρ] {options : ApplyOptions} {interrupt : Interrupt} {start : List Action}

/-- All that has been done since some moment obeys the request to stop. -/
structure Session.Obeys (interrupt : Interrupt) (start : List Action) (s : Session ρ) : Prop where
  isSuffix : start <:+ s.done
  obeys : ReleaseRecovery.Obeys interrupt start s.done

namespace Session.Obeys

omit [Repository ρ]

theorem polled {s : Session ρ} (h : s.Obeys interrupt start) : s.polled.Obeys interrupt start :=
  ⟨h.isSuffix.trans (List.suffix_cons _ _), h.obeys.poll⟩

theorem writing {s : Session ρ} (h : s.Obeys interrupt start)
    (quiet : interrupt.raised s.done = false) {writing : List Action} (hone : IsOneWriting writing)
    {s' : Session ρ} (hdone : s'.done = writing ++ .poll :: s.done) :
    s'.Obeys interrupt start := by
  refine ⟨?_, hdone ▸ obeys_writing h.isSuffix quiet hone⟩
  rw [hdone]
  exact (h.isSuffix.trans (List.suffix_cons _ _)).trans (List.suffix_append _ _)

end Session.Obeys

theorem obeys_applyRelease (options : ApplyOptions) (interrupt : Interrupt) (start : List Action)
    (total : Nat) (p : Progress) (r : PlannedRelease) :
    (applyRelease options interrupt total p r : Writing ρ Progress).Preserves
      (Session.Obeys interrupt start) := by
  intro s hs
  rw [applyRelease_eq, Writing.after_unlessRaised_bind]
  split
  · exact hs.polled
  rename_i hquiet
  rw [Bool.not_eq_true] at hquiet
  cases htrunk : r.trunkCommit with
  | some commit =>
    rw [commitFor, htrunk, pure_bind, Writing.session_bind_pure]
    exact hs.writing hquiet (.tag (options.tagName r.version)) rfl
  | none =>
    rw [commitFor, htrunk]
    rcases hcommit : (Writing.createCommit (r.draft options p.last)).after s.polled with
      ⟨e | commit, s₁⟩
    · rw [Writing.after_bind_of_error hcommit]
      obtain rfl := (Prod.mk.inj hcommit).2
      exact hs.writing hquiet (.commit r.tree) rfl
    · rw [Writing.after_bind_of_ok hcommit, Writing.session_bind_pure]
      obtain rfl := (Prod.mk.inj hcommit).2
      exact hs.writing hquiet (.release (options.tagName r.version) r.tree) rfl

theorem obeys_applyPlan (options : ApplyOptions) (interrupt : Interrupt) (start : List Action)
    (plan : ReleasePlan) :
    (applyPlan options interrupt plan : Writing ρ ApplyReport).Preserves
      (Session.Obeys interrupt start) := by
  unfold applyPlan
  refine .bind (.foldlM (obeys_applyRelease options interrupt start _) _ _) fun p => ?_
  refine .bind ?_ fun branch => .pure _
  unfold applyBranch
  split
  · exact .pure _
  · intro s hs
    rw [Writing.after_unlessRaised_bind]
    split
    · exact hs.polled
    · rename_i hquiet
      rw [Writing.session_bind_pure]
      exact hs.writing (Bool.not_eq_true _ ▸ hquiet) (.branch options.legacyBranch) rfl

/-- If the request to stop stands before a plan is applied, the store stays as it is. -/
theorem repo_applyPlan_of_raised (plan : ReleasePlan) {s : Session ρ}
    (h : interrupt.raised s.done = true) :
    ((applyPlan options interrupt plan).after s).2.repo = s.repo := by
  unfold applyPlan
  cases plan.ordered with
  | nil => rfl
  | cons r l =>
    have hstopped : ((r :: l).foldlM (applyRelease options interrupt (r :: l).length)
        Progress.start).after s = (.error (.interrupted .apply 0 (r :: l).length), s.polled) := by
      rw [List.foldlM_cons]
      refine Writing.after_bind_of_error ?_ _
      rw [applyRelease_eq, Writing.after_unlessRaised_bind, if_pos h]
      rfl
    rw [Writing.after_bind_of_error hstopped, Session.repo_polled]

/-! ### Where a run is stopped -/

/-- A release that was applied would have been applied without a request to stop. -/
theorem applyRelease_never {total : Nat} {p p' : Progress} {r : PlannedRelease} {s s' : Session ρ}
    (h : (applyRelease options interrupt total p r).after s = (.ok p', s')) :
    (applyRelease options .never total p r).after s = (.ok p', s') := by
  rw [applyRelease_eq, Writing.after_unlessRaised_bind] at h ⊢
  split at h
  · cases h
  · exact h

/-- A release that was applied has been tagged. -/
theorem length_tags_of_applyRelease {total : Nat} {p p' : Progress} {r : PlannedRelease}
    {s s' : Session ρ} (h : (applyRelease options interrupt total p r).after s = (.ok p', s')) :
    p'.tags.length = p.tags.length + 1 := by
  obtain ⟨commit, _, update, -, -, rfl⟩ := applyRelease_eq_ok h
  rw [Progress.tags_add, List.length_append]
  rfl

/-- A release that is not applied has not been begun, or the store has refused something. -/
theorem applyRelease_error {total : Nat} {p : Progress} {r : PlannedRelease} {s s' : Session ρ}
    {e : Failure} (h : (applyRelease options interrupt total p r).after s = (.error e, s')) :
    (interrupt.raised s.done = true ∧ s' = s.polled ∧
        e = .interrupted .apply p.tags.length (total - p.tags.length)) ∨
      IsRefusal ρ .writing e := by
  rw [applyRelease_eq, Writing.after_unlessRaised_bind] at h
  split at h
  · rename_i hraised
    obtain ⟨hfailure, rfl⟩ := Prod.mk.inj h
    exact .inl ⟨hraised, rfl, (Except.error.inj hfailure).symm⟩
  · exact .inr (tagRelease_failsOnly options p r s.polled e (congrArg Prod.fst h))

/-- A branch that is not written has not been begun, or the store has refused it. -/
theorem applyBranch_error {total : Nat} {p : Progress} {s s' : Session ρ} {e : Failure}
    (h : (applyBranch options interrupt total p).after s = (.error e, s')) :
    (interrupt.raised s.done = true ∧ s' = s.polled ∧ e = .interrupted .apply total 0) ∨
      IsRefusal ρ .writing e := by
  unfold applyBranch at h
  split at h
  · cases h
  rw [Writing.after_unlessRaised_bind] at h
  split at h
  · rename_i hraised
    obtain ⟨hfailure, rfl⟩ := Prod.mk.inj h
    exact .inl ⟨hraised, rfl, (Except.error.inj hfailure).symm⟩
  · rcases Writing.after_bind_eq_error_iff.1 h with hbranch | ⟨_, _, -, hnone⟩
    · exact .inr (createBranch_failsOnly _ _ s.polled e (congrArg Prod.fst hbranch))
    · cases hnone

/-- Where applying releases one after the other was stopped, the first of them have been applied and
nothing else has been done, unless the store has refused something. -/
theorem interrupted_releases {total : Nat} {l : List PlannedRelease} {p : Progress}
    {s s' : Session ρ} {e : Failure}
    (h : (l.foldlM (applyRelease options interrupt total) p).after s = (.error e, s')) :
    (∃ k p' s₁, k < l.length ∧
        ((l.take k).foldlM (applyRelease options .never total) p).after s = (.ok p', s₁) ∧
        p'.tags.length = p.tags.length + k ∧ interrupt.raised s₁.done = true ∧ s' = s₁.polled ∧
        e = .interrupted .apply p'.tags.length (total - p'.tags.length)) ∨
      IsRefusal ρ .writing e := by
  induction l generalizing p s with
  | nil => cases h
  | cons r l ih =>
    rw [List.foldlM_cons] at h
    rcases Writing.after_bind_eq_error_iff.1 h with hfirst | ⟨p₁, s₁, hfirst, hrest⟩
    · refine (applyRelease_error hfirst).imp_left ?_
      rintro ⟨hraised, rfl, rfl⟩
      exact ⟨0, p, s, Nat.succ_pos _, rfl, rfl, hraised, rfl, rfl⟩
    · refine (ih hrest).imp_left ?_
      rintro ⟨k, p', s₂, hk, happlied, htags, hraised, rfl, rfl⟩
      have hlength := length_tags_of_applyRelease hfirst
      refine ⟨k + 1, p', s₂, Nat.succ_lt_succ hk, ?_, by omega, hraised, rfl, rfl⟩
      rw [List.take_succ_cons, List.foldlM_cons,
        Writing.after_bind_of_ok (applyRelease_never hfirst)]
      exact happlied

/-- Releases that were applied would have been applied without a request to stop. -/
theorem applyReleases_never {total : Nat} {l : List PlannedRelease} {p p' : Progress}
    {s s' : Session ρ}
    (h : (l.foldlM (applyRelease options interrupt total) p).after s = (.ok p', s')) :
    (l.foldlM (applyRelease options .never total) p).after s = (.ok p', s') ∧
      p'.tags.length = p.tags.length + l.length := by
  induction l generalizing p s with
  | nil =>
    obtain ⟨⟨⟩, rfl⟩ := Prod.mk.inj h
    exact ⟨rfl, rfl⟩
  | cons r l ih =>
    rw [List.foldlM_cons] at h ⊢
    obtain ⟨p₁, s₁, hfirst, hrest⟩ := Writing.after_bind_eq_ok_iff.1 h
    obtain ⟨hnever, htags⟩ := ih hrest
    have hlength := length_tags_of_applyRelease hfirst
    rw [Writing.after_bind_of_ok (applyRelease_never hfirst)]
    exact ⟨hnever, by rw [htags, hlength, List.length_cons]; omega⟩

/-- Where applying a plan was stopped, as many releases have been applied as the failure says, and
nothing else has been done, unless the store has refused something. -/
theorem interrupted_applyPlan {plan : ReleasePlan} {s s' : Session ρ} {completed remaining : Nat}
    (h : (applyPlan options interrupt plan).after s =
      (.error (.interrupted .apply completed remaining), s')) :
    (completed ≤ plan.ordered.length ∧ remaining = plan.ordered.length - completed ∧
        ∃ p s₁, ((plan.ordered.take completed).foldlM
            (applyRelease options .never plan.ordered.length) Progress.start).after s =
              (.ok p, s₁) ∧
          interrupt.raised s₁.done = true ∧ s' = s₁.polled) ∨
      IsRefusal ρ .writing (.interrupted .apply completed remaining) := by
  unfold applyPlan at h
  rcases Writing.after_bind_eq_error_iff.1 h with hreleases | ⟨p, s₁, hreleases, hrest⟩
  · refine (interrupted_releases hreleases).imp_left ?_
    rintro ⟨k, p', s₂, hk, happlied, htags, hraised, rfl, he⟩
    obtain ⟨-, rfl, rfl⟩ := Failure.interrupted.inj he
    have hk' : p'.tags.length = k := htags.trans (Nat.zero_add k)
    rw [hk']
    exact ⟨Nat.le_of_lt hk, rfl, p', s₂, happlied, hraised, rfl⟩
  rcases Writing.after_bind_eq_error_iff.1 hrest with hbranch | ⟨_, _, -, hnone⟩
  · obtain ⟨hnever, htags⟩ := applyReleases_never hreleases
    refine (applyBranch_error hbranch).imp_left ?_
    rintro ⟨hraised, rfl, he⟩
    obtain ⟨-, rfl, rfl⟩ := Failure.interrupted.inj he
    rw [List.take_length]
    exact ⟨Nat.le_refl _, (Nat.sub_self _).symm, p, s₁, hnever, hraised, rfl⟩
  · cases hnone

end Applying

end ReleaseRecovery
