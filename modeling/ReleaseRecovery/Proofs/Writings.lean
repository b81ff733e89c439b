import ReleaseRecovery.Apply

/-!
# Adding to a store

A calculation that adds to a store goes on from the store as it is by then, and what it has added
stays when it fails. So a relation between the store before and after that every change keeps is
kept by the whole calculation, however that ends.

## Main Definitions

* `unpolled` — what has been done, less the looks at the request to stop
* `Session.Alike` — two sessions differ in such looks alone
* `Writing.Keeps` — the store after a calculation is related to the store before it

## Main Statements

* `Writing.Keeps.bind`, `Writing.Keeps.foldlM` — what every part keeps, the whole keeps
* `Writing.foldlM_invariant` — what every successful step preserves, a successful run preserves
-/

namespace ReleaseRecovery

/-- What has been done, less the looks at the request to stop. -/
def unpolled (done : List Action) : List Action := done.filter (· ≠ .poll)

@[simp] theorem unpolled_nil : unpolled [] = [] := rfl

@[simp] theorem unpolled_poll (done : List Action) : unpolled (.poll :: done) = unpolled done := rfl

theorem unpolled_append (later earlier : List Action) :
    unpolled (later ++ earlier) = unpolled later ++ unpolled earlier :=
  List.filter_append ..

theorem unpolled_of_forall {done : List Action} (h : ∀ action ∈ done, action ≠ .poll) :
    unpolled done = done :=
  List.filter_eq_self.2 fun action hmem => decide_eq_true (h action hmem)

/-- Two sessions have come to the same store by the same actions, but for the looks at the request
to stop. -/
structure Session.Alike {ρ : Type} (s s' : Session ρ) : Prop where
  repo_eq : s.repo = s'.repo
  unpolled_eq : unpolled s.done = unpolled s'.done

namespace Session

variable {ρ : Type} {s s' s'' : Session ρ}

theorem Alike.refl (s : Session ρ) : s.Alike s := ⟨rfl, rfl⟩

theorem Alike.trans (h : s.Alike s') (h' : s'.Alike s'') : s.Alike s'' :=
  ⟨h.repo_eq.trans h'.repo_eq, h.unpolled_eq.trans h'.unpolled_eq⟩

theorem alike_polled (s : Session ρ) : s.polled.Alike s := ⟨rfl, unpolled_poll s.done⟩

end Session

namespace Writing

variable {ρ α β : Type}

/-- A calculation succeeds exactly if its first part does and the rest does from there on. -/
theorem after_bind_eq_ok_iff {w : Writing ρ α} {f : α → Writing ρ β} {s s'' : Session ρ} {b : β} :
    (w >>= f).after s = (.ok b, s'') ↔
      ∃ a s', w.after s = (.ok a, s') ∧ (f a).after s' = (.ok b, s'') := by
  rw [after_bind]
  obtain ⟨result, s'⟩ := w.after s
  cases result with
  | error e => simp
  | ok a =>
    constructor
    · intro h
      exact ⟨a, s', rfl, h⟩
    · rintro ⟨_, _, ⟨⟩, h⟩
      exact h

/-- A calculation fails exactly if its first part does or the rest does from there on. -/
theorem after_bind_eq_error_iff {w : Writing ρ α} {f : α → Writing ρ β} {s s'' : Session ρ}
    {e : Failure} :
    (w >>= f).after s = (.error e, s'') ↔
      w.after s = (.error e, s'') ∨
        ∃ a s', w.after s = (.ok a, s') ∧ (f a).after s' = (.error e, s'') := by
  rw [after_bind]
  obtain ⟨result, s'⟩ := w.after s
  cases result with
  | error e' => simp
  | ok a =>
    constructor
    · intro h
      exact .inr ⟨a, s', rfl, h⟩
    · rintro (h | ⟨_, _, ⟨⟩, h⟩)
      · cases h
      · exact h

theorem after_bind_of_ok {w : Writing ρ α} {s s' : Session ρ} {a : α}
    (h : w.after s = (.ok a, s')) (f : α → Writing ρ β) :
    (w >>= f).after s = (f a).after s' := by
  rw [after_bind, h]

theorem after_bind_of_error {w : Writing ρ α} {s s' : Session ρ} {e : Failure}
    (h : w.after s = (.error e, s')) (f : α → Writing ρ β) :
    (w >>= f).after s = (.error e, s') := by
  rw [after_bind, h]

/-- A request to stop is told with the given failure, and adds nothing to the store. -/
theorem after_unlessRaised_eq_error_iff {interrupt : Interrupt} {e e' : Failure}
    {s s' : Session ρ} :
    (unlessRaised interrupt e).after s = (.error e', s') ↔
      interrupt.raised s.done = true ∧ e' = e ∧ s' = s.polled := by
  rw [after_unlessRaised]
  cases interrupt.raised s.done <;> simp [eq_comm]

/-- What comes after a look at the request to stop is done unless the request stands. -/
theorem after_unlessRaised_bind (interrupt : Interrupt) (e : Failure) (f : Unit → Writing ρ α)
    (s : Session ρ) :
    (unlessRaised interrupt e >>= f).after s =
      if interrupt.raised s.done then (.error e, s.polled) else (f ()).after s.polled := by
  rw [after_bind, after_unlessRaised]
  cases interrupt.raised s.done <;> rfl

@[simp] theorem after_unlessRaised_never (e : Failure) (s : Session ρ) :
    (unlessRaised .never e).after s = (.ok (), s.polled) := rfl

/-! ### What stays -/

/-- However a calculation ends, the store is then related to what it was before. -/
def Keeps (R : ρ → ρ → Prop) (w : Writing ρ α) : Prop :=
  ∀ s, R s.repo (w.after s).2.repo

section Keeps

variable {R : ρ → ρ → Prop} (refl : ∀ repo, R repo repo)
  (trans : ∀ a b c, R a b → R b c → R a c)

include refl

theorem Keeps.pure (a : α) : (Pure.pure a : Writing ρ α).Keeps R := by
  intro s
  rw [after_pure]
  exact refl s.repo

theorem keeps_unlessRaised (interrupt : Interrupt) (e : Failure) :
    (unlessRaised interrupt e).Keeps R := by
  intro s
  rw [after_unlessRaised]
  exact refl s.repo

omit refl in
theorem keeps_add {action : Action} {change : ρ → Except Failure α × ρ}
    (h : ∀ repo, R repo (change repo).2) : (add action change).Keeps R := by
  intro s
  rw [after_add]
  exact h s.repo

include trans

omit refl in
theorem Keeps.bind {w : Writing ρ α} {f : α → Writing ρ β} (h : w.Keeps R)
    (hf : ∀ a, (f a).Keeps R) : (w >>= f).Keeps R := by
  intro s
  have hfirst := h s
  rcases hw : w.after s with ⟨result, s'⟩
  rw [hw] at hfirst
  cases result with
  | error e =>
    rw [after_bind_of_error hw]
    exact hfirst
  | ok a =>
    rw [after_bind_of_ok hw]
    exact trans _ _ _ hfirst (hf a s')

theorem Keeps.foldlM {f : β → α → Writing ρ β} {l : List α} (h : ∀ b, ∀ a ∈ l, (f b a).Keeps R)
    (b : β) : (l.foldlM f b).Keeps R := by
  induction l generalizing b with
  | nil => exact .pure refl b
  | cons a l ih =>
    rw [List.foldlM_cons]
    refine (h b a List.mem_cons_self).bind trans fun b => ?_
    exact ih (fun b a' ha' => h b a' (List.mem_cons_of_mem a ha')) b

end Keeps

/-! ### Successful runs -/

/-- What every successful step preserves holds after a successful run over a list. It may depend on
how far the run has come. -/
theorem foldlM_invariant {f : β → α → Writing ρ β} {P : List α → β → Session ρ → Prop}
    (step : ∀ done a b s b' s', P done b s → (f b a).after s = (.ok b', s') →
      P (done ++ [a]) b' s')
    {l : List α} {b b' : β} {s s' : Session ρ} (h : P [] b s)
    (hrun : (l.foldlM f b).after s = (.ok b', s')) : P l b' s' := by
  suffices hfrom : ∀ l done b s, P done b s → (l.foldlM f b).after s = (.ok b', s') →
      P (done ++ l) b' s' from hfrom l [] b s h hrun
  clear h hrun
  intro l done b s h hrun
  induction l generalizing done b s with
  | nil =>
    obtain ⟨⟨⟩, rfl⟩ := Prod.mk.inj hrun
    rwa [List.append_nil]
  | cons a l ih =>
    rw [List.foldlM_cons] at hrun
    obtain ⟨b₁, s₁, hfirst, hrest⟩ := after_bind_eq_ok_iff.1 hrun
    have hall := ih (done ++ [a]) b₁ s₁ (step done a b s b₁ s₁ h hfirst) hrest
    rwa [List.append_assoc] at hall

end Writing

end ReleaseRecovery
