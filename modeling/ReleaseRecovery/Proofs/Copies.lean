import Mathlib.Data.List.Forall2
import ReleaseRecovery.Proofs.Resolution

/-!
# Copies of a version

Some copies of a version come to a result, and others fail to. Those with a result can be listed by
ascending key; whether they agree can then be told by comparison with the first of them.

## Main Definitions

* `Resolves`, `Fails` — a copy of a version comes to a result, or to none
* `Agree` — all copies of a version that come to a result come to the same
* `Disputed` — the copies and contents that a version is disputed by
* `resolved` — what the copies of a version come to

## Main Statements

* `agreed?_resolved_iff` — the release that the copies of a version come to
* `exists_conflict_of_not_agree` — the report of copies that do not agree
-/

namespace ReleaseRecovery

/-- The copy under a key stands for a version and comes to a content, and a commit if any. -/
def Resolves (subs : SortedMap Subhistory) (trunk : SortedMap CommitId) (v : Version)
    (key : String) (target : TreeId × Option CommitId) : Prop :=
  ∃ s, subs.get? key = some s ∧ Version.ofSource? key = some v ∧
    (resolve s.history trunk).target? = some target

/-- The copy under a key stands for a version and comes to no result. -/
def Fails (subs : SortedMap Subhistory) (trunk : SortedMap CommitId) (v : Version)
    (key : String) (history : List TreeId) (reason : UnresolvedReason) : Prop :=
  ∃ s, subs.get? key = some s ∧ Version.ofSource? key = some v ∧ s.history = history ∧
    resolve s.history trunk = .unresolved reason

/-- All copies of a version that come to a result come to the same. -/
def Agree (subs : SortedMap Subhistory) (trunk : SortedMap CommitId) (v : Version) : Prop :=
  ∀ key key' target target', Resolves subs trunk v key target →
    Resolves subs trunk v key' target' → target = target'

/-- The copies that come to a result, ascending, and the contents they come to, in case that these
are several. -/
structure Disputed (subs : SortedMap Subhistory) (trunk : SortedMap CommitId) (v : Version)
    (sources : List String) (trees : List TreeId) : Prop where
  ascending : sources.Pairwise (· < ·)
  mem_sources : ∀ key, key ∈ sources ↔ ∃ target, Resolves subs trunk v key target
  trees_eq : List.Forall₂ (fun key tree => ∃ c, Resolves subs trunk v key (tree, c)) sources trees
  several : 2 ≤ sources.length
  distinct : ∃ t ∈ trees, ∃ t' ∈ trees, t ≠ t'

/-- Whether a release is left to decide because its copies do not agree. -/
def UnresolvedReason.isConflict : UnresolvedReason → Bool
  | .conflictingSources _ => true
  | _ => false

/-! ### Copies -/

section Copies

variable {subs : SortedMap Subhistory} {trunk : SortedMap CommitId} {v : Version}

theorem mem_copies_iff {c : Copy} :
    c ∈ copies subs ↔ ∃ s, subs.get? c.source = some s ∧
      Version.ofSource? c.source = some c.version ∧ s.history = c.history := by
  simp only [copies, List.mem_filterMap, Option.map_eq_some_iff, SortedMap.get?_eq_some_iff]
  constructor
  · rintro ⟨⟨key, s⟩, he, v, hv, rfl⟩
    exact ⟨s, he, hv, rfl⟩
  · rintro ⟨s, he, hv, hs⟩
    refine ⟨(c.source, s), he, c.version, hv, ?_⟩
    rw [hs]

theorem ascending_copies : (copies subs).Pairwise fun a b => a.source < b.source := by
  refine List.pairwise_filterMap.2 (subs.ascending.imp ?_)
  intro a b hab c hc d hd
  obtain ⟨_, -, rfl⟩ := Option.map_eq_some_iff.1 hc
  obtain ⟨_, -, rfl⟩ := Option.map_eq_some_iff.1 hd
  exact hab

theorem nodup_copies : (copies subs).Nodup := by
  refine ascending_copies.imp ?_
  rintro c _ h rfl
  exact String.lt_irrefl _ h

theorem planned?_eq_some_iff {c : Copy} {r : PlannedRelease} :
    c.planned? trunk = some r ↔ c.version = r.version ∧ c.source = r.source ∧
      (resolve c.history trunk).target? = some (r.tree, r.trunkCommit) := by
  obtain ⟨rv, rs, rt, rc⟩ := r
  unfold Copy.planned?
  cases resolve c.history trunk <;> simp [Resolution.target?]

theorem unresolved?_eq_some_iff {c : Copy} {u : UnresolvedRelease} :
    c.unresolved? trunk = some u ↔ c.version = u.version ∧ c.source = u.source ∧
      c.history = u.history ∧ resolve c.history trunk = .unresolved u.reason := by
  obtain ⟨uv, us, ur, uh⟩ := u
  unfold Copy.unresolved?
  cases resolve c.history trunk with
  | unresolved reason =>
    simp only [Option.some.injEq, UnresolvedRelease.mk.injEq, Resolution.unresolved.injEq]
    tauto
  | trunk => simp
  | synthesize => simp

/-- A copy that does not resolve is reported with the reason it has, which is no conflict. -/
theorem unresolved?_copies_iff {u : UnresolvedRelease} :
    (∃ c ∈ copies subs, c.unresolved? trunk = some u) ↔
      Fails subs trunk u.version u.source u.history u.reason := by
  constructor
  · rintro ⟨c, hc, hu⟩
    obtain ⟨hv, hk, hh, hr⟩ := unresolved?_eq_some_iff.1 hu
    obtain ⟨s, hs, hsource, hhist⟩ := mem_copies_iff.1 hc
    rw [hk] at hs
    rw [hk, hv] at hsource
    refine ⟨s, hs, hsource, hhist.trans hh, ?_⟩
    rw [hhist, hr]
  · rintro ⟨s, hs, hsource, hhist, hr⟩
    refine ⟨⟨u.version, u.source, s.history⟩, mem_copies_iff.2 ⟨s, hs, hsource, rfl⟩, ?_⟩
    exact unresolved?_eq_some_iff.2 ⟨rfl, rfl, hhist, hr⟩

theorem Fails.isConflict_eq_false {key : String} {history : List TreeId}
    {reason : UnresolvedReason} (h : Fails subs trunk v key history reason) :
    reason.isConflict = false := by
  obtain ⟨s, -, -, -, hr⟩ := h
  obtain ⟨-, ⟨-, rfl⟩ | ⟨-, rfl⟩⟩ := resolve_eq_unresolved_iff.1 hr
  · rfl
  · rfl

theorem Resolves.version_eq {key : String} {target : TreeId × Option CommitId}
    (h : Resolves subs trunk v key target) : Version.ofSource? key = some v := by
  obtain ⟨s, -, hv, -⟩ := h
  exact hv

/-- Copies that come to one content come to one result. -/
theorem Resolves.target_eq {key key' : String} {tree : TreeId} {c c' : Option CommitId}
    (h : Resolves subs trunk v key (tree, c)) (h' : Resolves subs trunk v key' (tree, c')) :
    c = c' := by
  obtain ⟨s, -, -, ht⟩ := h
  obtain ⟨s', -, -, ht'⟩ := h'
  rw [commit_eq_of_target? ht, commit_eq_of_target? ht']

/-- A copy that comes to a result does not fail. -/
theorem Resolves.not_fails {v' : Version} {key : String} {target : TreeId × Option CommitId}
    {history : List TreeId} {reason : UnresolvedReason} (h : Resolves subs trunk v key target) :
    ¬Fails subs trunk v' key history reason := by
  obtain ⟨s, hs, -, ht⟩ := h
  rintro ⟨s', hs', -, -, hr⟩
  obtain rfl := Option.some.inj (hs.symm.trans hs')
  rw [hr] at ht
  cases ht

/-! ### What the copies of a version come to -/

/-- What the copies of a version come to, ascending by key. -/
def resolved (subs : SortedMap Subhistory) (trunk : SortedMap CommitId) (v : Version) :
    List PlannedRelease :=
  ((copies subs).filter fun c => decide (c.version = v)).filterMap (Copy.planned? trunk)

theorem mem_resolved_iff {r : PlannedRelease} :
    r ∈ resolved subs trunk v ↔
      r.version = v ∧ Resolves subs trunk v r.source (r.tree, r.trunkCommit) := by
  simp only [resolved, List.mem_filterMap, List.mem_filter, decide_eq_true_eq,
    planned?_eq_some_iff]
  constructor
  · rintro ⟨c, ⟨hc, rfl⟩, hv, hk, ht⟩
    obtain ⟨s, hs, hsource, hhist⟩ := mem_copies_iff.1 hc
    rw [hk] at hs hsource
    exact ⟨hv.symm, s, hs, hsource, hhist ▸ ht⟩
  · rintro ⟨rfl, s, hs, hsource, ht⟩
    exact ⟨⟨r.version, r.source, s.history⟩, ⟨mem_copies_iff.2 ⟨s, hs, hsource, rfl⟩, rfl⟩,
      rfl, rfl, ht⟩

theorem exists_mem_resolved {key : String} {target : TreeId × Option CommitId}
    (h : Resolves subs trunk v key target) :
    (⟨v, key, target.1, target.2⟩ : PlannedRelease) ∈ resolved subs trunk v :=
  mem_resolved_iff.2 ⟨rfl, h⟩

theorem ascending_resolved :
    (resolved subs trunk v).Pairwise fun a b => a.source < b.source := by
  refine List.pairwise_filterMap.2 ((ascending_copies.filter _).imp ?_)
  intro c d hcd a ha b hb
  obtain ⟨-, hc, -⟩ := planned?_eq_some_iff.1 ha
  obtain ⟨-, hd, -⟩ := planned?_eq_some_iff.1 hb
  rwa [← hc, ← hd]

/-- The first copy that comes to a result has the least key. -/
theorem source_le_of_head? {first r : PlannedRelease}
    (hfirst : (resolved subs trunk v).head? = some first) (hr : r ∈ resolved subs trunk v) :
    first.source ≤ r.source := by
  obtain ⟨rest, hrest⟩ := List.head?_eq_some_iff.1 hfirst
  have hasc : (resolved subs trunk v).Pairwise fun a b => a.source < b.source :=
    ascending_resolved
  rw [hrest] at hr hasc
  rcases List.mem_cons.1 hr with rfl | hr
  · exact String.le_refl _
  · exact String.not_lt.1 (String.lt_asymm (List.rel_of_pairwise_cons hasc hr))

theorem agrees_iff {a b : PlannedRelease} :
    a.agrees b = true ↔ (b.tree, b.trunkCommit) = (a.tree, a.trunkCommit) := by
  rw [PlannedRelease.agrees, Bool.and_eq_true, beq_iff_eq, beq_iff_eq, Prod.mk.injEq]
  exact and_congr eq_comm eq_comm

theorem agreed?_eq_some_iff {l : List PlannedRelease} {r : PlannedRelease} :
    agreed? l = some r ↔
      l.head? = some r ∧ ∀ a ∈ l, (a.tree, a.trunkCommit) = (r.tree, r.trunkCommit) := by
  cases l with
  | nil => simp [agreed?]
  | cons first rest =>
    simp only [agreed?, List.all_eq_true, agrees_iff, List.head?_cons, Option.some.injEq,
      List.forall_mem_cons]
    split
    · rename_i h
      constructor
      · rintro ⟨⟩
        exact ⟨rfl, rfl, h⟩
      · exact fun e => congrArg some e.1
    · rename_i h
      constructor
      · intro e
        cases e
      · rintro ⟨rfl, -, hrest⟩
        exact absurd hrest h

theorem conflict?_eq_some_iff {l : List PlannedRelease} {u : UnresolvedRelease} :
    conflict? l = some u ↔
      ∃ first, l.head? = some first ∧
        (∃ a ∈ l, (a.tree, a.trunkCommit) ≠ (first.tree, first.trunkCommit)) ∧
        u = ⟨first.version, first.source, .conflictingSources (l.map (·.source)),
          l.map (·.tree)⟩ := by
  cases l with
  | nil => simp [conflict?]
  | cons first rest =>
    simp only [conflict?, List.all_eq_true, agrees_iff, List.head?_cons, Option.some.injEq,
      exists_eq_left', List.exists_mem_cons_iff, ne_eq, not_true_eq_false, false_or]
    split
    · rename_i h
      constructor
      · intro e
        cases e
      · rintro ⟨⟨a, ha, hne⟩, -⟩
        exact absurd (h a ha) hne
    · rename_i h
      push Not at h
      rw [Option.some.injEq]
      exact ⟨fun e => ⟨h, e.symm⟩, fun e => e.2.symm⟩

/-- The copies of a version come to one release: the first of them, if they agree. -/
theorem agreed?_resolved_iff {r : PlannedRelease} :
    agreed? (resolved subs trunk v) = some r ↔
      r.version = v ∧ Resolves subs trunk v r.source (r.tree, r.trunkCommit) ∧
        (∀ key target, Resolves subs trunk v key target → r.source ≤ key) ∧
        Agree subs trunk v := by
  rw [agreed?_eq_some_iff]
  constructor
  · rintro ⟨hhead, hall⟩
    obtain ⟨hv, hr⟩ := mem_resolved_iff.1 (List.mem_of_head? hhead)
    have same : ∀ key target, Resolves subs trunk v key target →
        target = (r.tree, r.trunkCommit) := fun key target h => hall _ (exists_mem_resolved h)
    refine ⟨hv, hr, fun key target h => source_le_of_head? hhead (exists_mem_resolved h), ?_⟩
    intro key key' target target' h h'
    rw [same key target h, same key' target' h']
  · rintro ⟨hv, hr, hleast, agree⟩
    have hmem := mem_resolved_iff.2 ⟨hv, hr⟩
    refine ⟨?_, fun a ha => agree _ _ _ _ (mem_resolved_iff.1 ha).2 hr⟩
    obtain ⟨first, hfirst⟩ :=
      Option.isSome_iff_exists.1 (List.isSome_head?.2 (List.ne_nil_of_mem hmem))
    -- Neither key comes before the other, so the first copy is the given one.
    obtain ⟨hv', hr'⟩ := mem_resolved_iff.1 (List.mem_of_head? hfirst)
    have hsource : first.source = r.source :=
      String.le_antisymm (source_le_of_head? hfirst hmem) (hleast _ _ hr')
    have htarget := agree _ _ _ _ hr' hr
    rw [hfirst]
    obtain ⟨fv, fs, ft, fc⟩ := first
    obtain ⟨rv, rs, rt, rc⟩ := r
    simp only [Prod.mk.injEq] at hsource htarget hv hv'
    rw [hsource, htarget.1, htarget.2, hv, hv']

/-- The copies of a version are in conflict only if they do not agree. -/
theorem not_agree_of_conflict? {u : UnresolvedRelease}
    (h : conflict? (resolved subs trunk v) = some u) : ¬Agree subs trunk v := by
  obtain ⟨first, hfirst, ⟨a, ha, hne⟩, -⟩ := conflict?_eq_some_iff.1 h
  intro agree
  exact hne (agree _ _ _ _ (mem_resolved_iff.1 ha).2
    (mem_resolved_iff.1 (List.mem_of_head? hfirst)).2)

theorem exists_ne_head_of_not_agree (h : ¬Agree subs trunk v) :
    ∃ first, (resolved subs trunk v).head? = some first ∧ ∃ a ∈ resolved subs trunk v,
      (a.tree, a.trunkCommit) ≠ (first.tree, first.trunkCommit) := by
  unfold Agree at h
  push Not at h
  obtain ⟨key, key', target, target', hkey, hkey', hne⟩ := h
  have hmem := exists_mem_resolved hkey
  have hmem' := exists_mem_resolved hkey'
  cases hhead : (resolved subs trunk v).head? with
  | none =>
    rw [List.head?_eq_none_iff.1 hhead] at hmem
    cases hmem
  | some first =>
    refine ⟨first, rfl, ?_⟩
    -- Of two different results at least one is not that of the first copy.
    by_cases h : target = (first.tree, first.trunkCommit)
    · exact ⟨_, hmem', fun h' => hne (h.trans h'.symm)⟩
    · exact ⟨_, hmem, h⟩

/-- The report of copies that do not agree names all of them, and what they come to. -/
theorem exists_conflict_of_not_agree (h : ¬Agree subs trunk v) :
    ∃ first sources trees,
      conflict? (resolved subs trunk v) =
          some ⟨v, first, .conflictingSources (first :: sources), trees⟩ ∧
        Disputed subs trunk v (first :: sources) trees := by
  obtain ⟨first, hfirst, a, ha, hne⟩ := exists_ne_head_of_not_agree h
  obtain ⟨rest, hrest⟩ := List.head?_eq_some_iff.1 hfirst
  obtain ⟨hv, hr⟩ := mem_resolved_iff.1 (List.mem_of_head? hfirst)
  have hsources : (resolved subs trunk v).map (·.source) = first.source :: rest.map (·.source) := by
    rw [hrest, List.map_cons]
  refine ⟨first.source, rest.map (·.source), (resolved subs trunk v).map (·.tree), ?_, ?_⟩
  · rw [conflict?_eq_some_iff]
    refine ⟨first, hfirst, ⟨a, ha, hne⟩, ?_⟩
    rw [hsources, hv]
  · rw [← hsources]
    refine ⟨List.pairwise_map.2 ascending_resolved, fun key => ?_, ?_, ?_, ?_⟩
    · rw [List.mem_map]
      constructor
      · rintro ⟨b, hb, rfl⟩
        exact ⟨_, (mem_resolved_iff.1 hb).2⟩
      · rintro ⟨target, ht⟩
        exact ⟨_, exists_mem_resolved ht, rfl⟩
    · rw [List.forall₂_map_left_iff, List.forall₂_map_right_iff, List.forall₂_same]
      exact fun b hb => ⟨_, (mem_resolved_iff.1 hb).2⟩
    · have harest : a ∈ rest := by
        rw [hrest] at ha
        rcases List.mem_cons.1 ha with rfl | ha
        · exact absurd rfl hne
        · exact ha
      rw [hsources, List.length_cons, List.length_map]
      exact Nat.succ_le_succ (List.length_pos_of_mem harest)
    · refine ⟨a.tree, List.mem_map_of_mem ha, first.tree,
        List.mem_map_of_mem (List.mem_of_head? hfirst), fun htree => hne ?_⟩
      have ha := (mem_resolved_iff.1 ha).2
      rw [htree] at ha
      rw [htree, ha.target_eq hr]

end Copies

end ReleaseRecovery
