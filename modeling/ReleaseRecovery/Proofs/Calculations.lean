/-!
# Calculations that can fail

When a calculation succeeds, and what it then comes to.

## Main Statements

* `bind_eq_ok_iff`, `map_eq_ok_iff`, `bind_eq_error_iff`, `map_eq_error_iff` — a calculation that
  goes on from another one
* `mapM_eq_ok_iff`, `mapM_eq_error_iff` — a calculation for every member of a list
-/

namespace ReleaseRecovery

section Calculations

variable {α β ε : Type}

theorem bind_eq_ok_iff {x : Except ε α} {f : α → Except ε β} {b : β} :
    (x >>= f) = .ok b ↔ ∃ a, x = .ok a ∧ f a = .ok b := by
  cases x <;> simp [bind, Except.bind]

theorem bind_eq_error_iff {x : Except ε α} {f : α → Except ε β} {e : ε} :
    (x >>= f) = .error e ↔ x = .error e ∨ ∃ a, x = .ok a ∧ f a = .error e := by
  cases x <;> simp [bind, Except.bind]

/-- What is only told in other words fails as it did. -/
theorem bind_pure_eq_error_iff {x : Except ε α} {f : α → β} {e : ε} :
    (x >>= fun a => pure (f a)) = .error e ↔ x = .error e := by
  cases x <;> simp [bind, Except.bind, pure, Except.pure]

theorem map_eq_ok_iff {x : Except ε α} {f : α → β} {b : β} :
    x.map f = .ok b ↔ ∃ a, x = .ok a ∧ f a = b := by
  cases x <;> simp [Except.map]

theorem map_eq_error_iff {x : Except ε α} {f : α → β} {e : ε} :
    x.map f = .error e ↔ x = .error e := by
  cases x <;> simp [Except.map]

theorem toOption_eq_some_iff {x : Except ε α} {a : α} : x.toOption = some a ↔ x = .ok a := by
  cases x <;> simp [Except.toOption]

/-- A calculation that says what comes of its result has succeeded. -/
theorem exists_eq_ok_of_map {σ : Type} {x : Except ε α × σ} {f : α → β} {b : β}
    (h : x.1.toOption.map f = some b) : ∃ a s, x = (.ok a, s) ∧ f a = b := by
  obtain ⟨result, s⟩ := x
  obtain ⟨a, ha, hb⟩ := Option.map_eq_some_iff.1 h
  obtain rfl : result = .ok a := toOption_eq_some_iff.1 ha
  exact ⟨a, s, rfl, hb⟩

/-- If every part succeeds under a condition of its own, the whole succeeds under all of them. -/
theorem mapM_eq_ok_iff {f : α → Except ε β} {P : α → Prop} {g : α → β}
    (hf : ∀ a b, f a = .ok b ↔ P a ∧ b = g a) {l : List α} {r : List β} :
    l.mapM f = .ok r ↔ (∀ a ∈ l, P a) ∧ r = l.map g := by
  induction l generalizing r with
  | nil => simp [pure, Except.pure, eq_comm]
  | cons a l ih =>
    rw [List.mapM_cons, bind_eq_ok_iff, List.forall_mem_cons, List.map_cons]
    simp only [bind_eq_ok_iff, hf, ih, pure, Except.pure, Except.ok.injEq]
    constructor
    · rintro ⟨-, ⟨ha, rfl⟩, -, ⟨hl, rfl⟩, rfl⟩
      exact ⟨⟨ha, hl⟩, rfl⟩
    · rintro ⟨⟨ha, hl⟩, rfl⟩
      exact ⟨_, ⟨ha, rfl⟩, _, ⟨hl, rfl⟩, rfl⟩

/-- The whole fails as its first part that fails. -/
theorem mapM_eq_error_iff {f : α → Except ε β} {l : List α} {e : ε} :
    l.mapM f = .error e ↔
      ∃ before a after, l = before ++ a :: after ∧ (∀ b ∈ before, ∃ r, f b = .ok r) ∧
        f a = .error e := by
  induction l with
  | nil => simp [pure, Except.pure]
  | cons x l ih =>
    rw [List.mapM_cons, bind_eq_error_iff]
    constructor
    · rintro (hx | ⟨r, hr, hrest⟩)
      · exact ⟨[], x, l, rfl, fun _ hb => absurd hb List.not_mem_nil, hx⟩
      · rcases bind_eq_error_iff.1 hrest with hl | ⟨_, _, hpure⟩
        · obtain ⟨before, a, after, rfl, hbefore, ha⟩ := ih.1 hl
          exact ⟨x :: before, a, after, rfl, List.forall_mem_cons.2 ⟨⟨r, hr⟩, hbefore⟩, ha⟩
        · cases hpure
    · rintro ⟨before, a, after, hsplit, hbefore, ha⟩
      cases before with
      | nil =>
        obtain ⟨rfl, rfl⟩ := List.cons.inj hsplit
        exact .inl ha
      | cons b before =>
        obtain ⟨rfl, rfl⟩ := List.cons.inj hsplit
        obtain ⟨⟨r, hr⟩, hbefore⟩ := List.forall_mem_cons.1 hbefore
        exact .inr ⟨r, hr, bind_eq_error_iff.2 (.inl (ih.2 ⟨before, a, after, rfl, hbefore, ha⟩))⟩

end Calculations

end ReleaseRecovery
