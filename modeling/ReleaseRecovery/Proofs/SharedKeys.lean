import ReleaseRecovery.Proofs.Subhistories

/-!
# Directories that share a key

A ref name and a path can make up the key of another ref and another path: `svn/tags` and `/v0.8/`
make up the key of `svn/tags/v0.8` and `/`. What both refs show then goes into one subhistory, in
the order of the refs. That subhistory is still the one of a single directory in exactly one case:
refs before its own only repeat its newest content, and refs after its own only its oldest.

## Main Definitions

* `ContentIndex.Undisturbed` — no other ref shows further contents under a key

## Main Statements

* `history_eq_contentsAlong_iff` — when a subhistory is that of one directory
* `not_forall_history_eq_contentsAlong` — it is not always that
-/

namespace ReleaseRecovery

namespace ContentIndex

/-- No ref but the one of a directory shows further contents under the key of that directory. -/
structure Undisturbed (index : ContentIndex) (reference ref path : String) : Prop where
  /-- A ref that comes before shows nothing but the newest content. -/
  before : ∀ other rest, other ≠ reference → other < ref → other ++ rest = ref ++ path →
    ∀ t ∈ index.contentsAlong other rest, (index.contentsAlong ref path).head? = some t
  /-- A ref that comes after shows nothing but the oldest content. -/
  after : ∀ other rest, other ≠ reference → ref < other → other ++ rest = ref ++ path →
    ∀ t ∈ index.contentsAlong other rest, (index.contentsAlong ref path).getLast? = some t

variable {index : ContentIndex} {reference ref path : String}

/-- The refs that are cross-referenced stand in the order of their names. -/
theorem exists_refs_around {commits : List CommitId}
    (hget : index.histories.get? ref = some commits) (hne : ref ≠ reference) :
    ∃ before after : List (String × List CommitId),
      index.histories.entries.filter (fun e => e.1 != reference) =
          before ++ (ref, commits) :: after ∧
        (∀ e, e ∈ before ↔
          index.histories.get? e.1 = some e.2 ∧ e.1 ≠ reference ∧ e.1 < ref) ∧
        ∀ e, e ∈ after ↔
          index.histories.get? e.1 = some e.2 ∧ e.1 ≠ reference ∧ ref < e.1 := by
  have hmem : (ref, commits) ∈ index.histories.entries.filter fun e => e.1 != reference :=
    mem_beside_iff.2 ⟨hget, hne⟩
  obtain ⟨before, after, hsplit⟩ := List.append_of_mem hmem
  -- The names ascend, so a ref stands before the given one exactly if its name comes before.
  have hasc := index.histories.ascending.filter fun e => e.1 != reference
  refine ⟨before, after, hsplit, fun e => ?_, fun e => ?_⟩
  · rw [SortedMap.mem_before_iff hasc hsplit, mem_beside_iff, and_assoc]
  · rw [SortedMap.mem_after_iff hasc hsplit, mem_beside_iff, and_assoc]

/-- What the refs on one side show under a key, directory by directory. -/
theorem forall_mem_contentsAt_iff (side : String → Prop) {refs : List (String × List CommitId)}
    (hrefs : ∀ e, e ∈ refs ↔
      index.histories.get? e.1 = some e.2 ∧ e.1 ≠ reference ∧ side e.1)
    {key : String} {p : TreeId → Prop} :
    (∀ t ∈ refs.flatMap fun e => contentsAt key (index.observed e.1 e.2), p t) ↔
      ∀ other rest, other ≠ reference → side other → other ++ rest = key →
        ∀ t ∈ index.contentsAlong other rest, p t := by
  constructor
  · intro h other rest hne hside hkey t ht
    cases hget : index.histories.get? other with
    | none => simp [contentsAlong, contentsOf, hget] at ht
    | some commits =>
      refine h t (List.mem_flatMap.2 ⟨(other, commits), (hrefs _).2 ⟨hget, hne, hside⟩, ?_⟩)
      rw [contentsAlong, hget] at ht
      exact mem_contentsAt_observed_iff.2 ⟨rest, hkey, ht⟩
  · intro h t ht
    obtain ⟨e, he, ht⟩ := List.mem_flatMap.1 ht
    obtain ⟨hget, hne, hside⟩ := (hrefs e).1 he
    obtain ⟨rest, hkey, ht⟩ := mem_contentsAt_observed_iff.1 ht
    refine h e.1 rest hne hside hkey t ?_
    rwa [contentsAlong, hget]

/-- What is observed under the key of a directory comes to its own contents exactly if nothing
disturbs it. -/
theorem collapsed_contentsAt_eq_iff (hne : ref ≠ reference) (installed : index.Installs ref path) :
    collapsed (contentsAt (ref ++ path) (index.observedBeside reference)) =
        collapsed (index.contentsAlong ref path) ↔
      index.Undisturbed reference ref path := by
  have hown := contentsAlong_ne_nil_iff.2 installed
  obtain ⟨commits, hget, -⟩ := installed
  obtain ⟨before, after, hsplit, hbefore, hafter⟩ := exists_refs_around hget hne
  have halong : index.contentsOf commits path = index.contentsAlong ref path := by
    rw [contentsAlong, hget]
    rfl
  rw [observedBeside, hsplit, contentsAt_flatMap, List.flatMap_append, List.flatMap_cons,
    contentsAt_observed, halong, collapsed_between_eq_iff hown,
    forall_mem_contentsAt_iff (· < ref) hbefore, forall_mem_contentsAt_iff (ref < ·) hafter]
  exact ⟨fun h => ⟨h.1, h.2⟩, fun h => ⟨h.before, h.after⟩⟩

theorem contentsAt_ne_nil (hne : ref ≠ reference) (installed : index.Installs ref path) :
    contentsAt (ref ++ path) (index.observedBeside reference) ≠ [] := by
  obtain ⟨t, ht⟩ := List.exists_mem_of_ne_nil _ (contentsAlong_ne_nil_iff.2 installed)
  obtain ⟨commits, hget, -⟩ := installed
  rw [contentsAlong, hget] at ht
  refine List.ne_nil_of_mem (a := t) ?_
  rw [observedBeside, contentsAt_flatMap, List.mem_flatMap]
  exact ⟨(ref, commits), mem_beside_iff.2 ⟨hget, hne⟩,
    mem_contentsAt_observed_iff.2 ⟨path, rfl, ht⟩⟩

end ContentIndex

section Subhistories

variable {index : ContentIndex} {reference ref path : String}

/-- Every directory with an install has a subhistory, which is its own exactly if nothing disturbs
it. -/
theorem exists_subhistory (trunk : SortedMap CommitId) (complete : index.IsComplete)
    (hne : ref ≠ reference) (installed : index.Installs ref path) :
    ∃ subs s, subhistories index reference trunk = .ok subs ∧ subs.get? (ref ++ path) = some s ∧
      (s.history = collapsed (index.contentsAlong ref path) ↔
        index.Undisturbed reference ref path) := by
  obtain ⟨subs, hsubs⟩ : ∃ subs, subhistories index reference trunk = .ok subs :=
    ⟨_, subhistories_eq_ok_iff.2 ⟨complete.beside reference, rfl⟩⟩
  let shown := contentsAt (ref ++ path) (index.observedBeside reference)
  refine ⟨subs, Subhistory.locate trunk ⟨collapsed shown, none, none⟩, hsubs, ?_,
    ContentIndex.collapsed_contentsAt_eq_iff hne installed⟩
  rw [get?_subhistories hsubs]
  exact if_neg (ContentIndex.contentsAt_ne_nil hne installed)

theorem contentsAlong_congr {other : ContentIndex}
    (hhistory : other.histories.get? ref = index.histories.get? ref)
    (hrecords : ∀ commits, index.histories.get? ref = some commits →
      ∀ c ∈ commits, other.records.get? c = index.records.get? c) (path : String) :
    other.contentsAlong ref path = index.contentsAlong ref path := by
  unfold ContentIndex.contentsAlong ContentIndex.contentsOf
  rw [hhistory]
  cases hget : index.histories.get? ref with
  | none => rfl
  | some commits => exact List.filterMap_congr fun c hc => by rw [hrecords commits hget c hc]

/-- The subhistory of a directory of a ref is the collapsed sequence of its own contents exactly if
no other ref disturbs it. As long as that is so, it stays the same under a change of the other refs
exactly if it is so afterwards. -/
theorem history_eq_contentsAlong_iff (trunk : SortedMap CommitId) (complete : index.IsComplete)
    (hne : ref ≠ reference) (installed : index.Installs ref path) :
    ∃ subs s, subhistories index reference trunk = .ok subs ∧ subs.get? (ref ++ path) = some s ∧
      (s.history = collapsed (index.contentsAlong ref path) ↔
        index.Undisturbed reference ref path) ∧
      ∀ other : ContentIndex, other.IsComplete →
        other.histories.get? ref = index.histories.get? ref →
        (∀ commits, index.histories.get? ref = some commits →
          ∀ c ∈ commits, other.records.get? c = index.records.get? c) →
        ∃ subs' s', subhistories other reference trunk = .ok subs' ∧
          subs'.get? (ref ++ path) = some s' ∧
          (index.Undisturbed reference ref path →
            (s'.history = s.history ↔ other.Undisturbed reference ref path)) := by
  obtain ⟨subs, s, hsubs, hs, hiff⟩ := exists_subhistory trunk complete hne installed
  refine ⟨subs, s, hsubs, hs, hiff, fun other complete' hhistory hrecords => ?_⟩
  -- The ref itself shows the same as before, so its directory still has a subhistory.
  have halong := contentsAlong_congr hhistory hrecords path
  have installed' : other.Installs ref path := by
    rw [← ContentIndex.contentsAlong_ne_nil_iff, halong]
    exact ContentIndex.contentsAlong_ne_nil_iff.2 installed
  obtain ⟨subs', s', hsubs', hs', hiff'⟩ :=
    exists_subhistory trunk complete' hne installed'
  refine ⟨subs', s', hsubs', hs', fun undisturbed => ?_⟩
  rw [hiff.2 undisturbed, ← halong]
  exact hiff'

end Subhistories

/-- A ref with several copies beside a ref for one of them, which went through the same two
contents. -/
def sideBySide : ContentIndex where
  histories := .ofList
    [("svn/tags", ["G2", "G1"]), ("svn/tags/v0.8", ["R2", "R1"]), ("svn/trunk", ["C1"])]
  records := .ofList
    [("C1", .empty),
      ("G1", ⟨.ofList [("/v0.8/", "T80")], .empty⟩), ("G2", ⟨.ofList [("/v0.8/", "T81")], .empty⟩),
      ("R1", ⟨.ofList [("/", "T80")], .empty⟩), ("R2", ⟨.ofList [("/", "T81")], .empty⟩)]

theorem history_sideBySide :
    sideBySide.IsComplete ∧ "svn/tags" ≠ "svn/trunk" ∧ sideBySide.Installs "svn/tags" "/v0.8/" ∧
      ∃ subs s, subhistories sideBySide "svn/trunk" .empty = .ok subs ∧
        subs.get? "svn/tags/v0.8/" = some s ∧
        (s.history = ["T81", "T80"] ↔
          sideBySide.Undisturbed "svn/trunk" "svn/tags" "/v0.8/") := by
  have complete : sideBySide.IsComplete := by decide +kernel
  have hne : "svn/tags" ≠ "svn/trunk" := by decide
  have installed : sideBySide.Installs "svn/tags" "/v0.8/" := by decide +kernel
  obtain ⟨subs, s, hsubs, hs, hiff, -⟩ :=
    history_eq_contentsAlong_iff .empty complete hne installed
  have hown : collapsed (sideBySide.contentsAlong "svn/tags" "/v0.8/") = ["T81", "T80"] := by
    decide +kernel
  exact ⟨complete, hne, installed, subs, s, hsubs, hs, hown ▸ hiff⟩

/-- The subhistory of a directory is not always the collapsed sequence of its own contents. -/
theorem not_forall_history_eq_contentsAlong :
    ¬∀ (index : ContentIndex) (reference ref path : String) (trunk : SortedMap CommitId)
      (subs : SortedMap Subhistory) (s : Subhistory), index.IsComplete → ref ≠ reference →
        index.Installs ref path → subhistories index reference trunk = .ok subs →
        subs.get? (ref ++ path) = some s →
        s.history = collapsed (index.contentsAlong ref path) := by
  intro h
  have hsubs : subhistories sideBySide "svn/trunk" .empty =
      .ok (.ofList [("svn/tags/v0.8/", ⟨["T81", "T80", "T81", "T80"], none, none⟩)]) := by
    rfl
  have hown := h sideBySide "svn/trunk" "svn/tags" "/v0.8/" .empty _ _ (by decide +kernel)
    (by decide) (by decide +kernel) hsubs rfl
  exact absurd hown (by decide +kernel)

end ReleaseRecovery
