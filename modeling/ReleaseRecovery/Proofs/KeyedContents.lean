import ReleaseRecovery.Proofs.SharedKeys

/-!
# Subhistories by key

While the histories are walked, the contents of many directories come mixed, and a directory may be
gone for some commits and come back. Key by key it is simple: the subhistory under a key is that of
the contents recorded for this key alone, ref by ref in the order of their names and for each ref
from the newest commit on. A commit without the directory leaves no gap.

## Main Definitions

* `ContentIndex.contentsUnder` — the contents recorded for a key
* `Subhistory.IsOf` — a subhistory is that of some contents

## Main Statements

* `ContentIndex.contentsAt_observedBeside` — what is observed under a key is recorded for it
* `subhistories_by_key` — which keys have a subhistory, and of what
-/

namespace ReleaseRecovery

/-- The content that a commit of a ref has under a key. There is at most one, as the path follows
from the ref and the key. -/
def InstallRecord.contentUnder? (r : InstallRecord) (ref key : String) : Option TreeId :=
  r.full.entries.findSome? fun e => if ref ++ e.1 = key then some e.2 else none

/-- The contents recorded for a key, ref by ref in the order of their names, and for every ref from
the newest commit on. The reference line does not count. -/
def ContentIndex.contentsUnder (index : ContentIndex) (reference key : String) : List TreeId :=
  (index.histories.entries.filter fun e => e.1 != reference).flatMap fun e =>
    e.2.filterMap fun c => (index.records.get? c).bind fun r => r.contentUnder? e.1 key

/-- A subhistory is that of some contents, newest first. -/
structure Subhistory.IsOf (s : Subhistory) (trunk : SortedMap CommitId) (trees : List TreeId) :
    Prop where
  history_eq : s.history = collapsed trees
  history_ne_nil : s.history ≠ []
  isChain_ne : s.history.IsChain (· ≠ ·)
  newest_eq : s.newest = trees.head?
  oldest_eq : s.oldest = trees.getLast?
  /-- The reference line is asked for the newest content. -/
  mergedTo_eq : s.mergedTo = s.history.head?.bind trunk.get?
  /-- The reference line is asked for the oldest content. -/
  branchedFrom_eq : s.branchedFrom = s.history.getLast?.bind trunk.get?

/-! ### Contents under a key -/

/-- What is observed of a commit under a key is the one content that it has there. -/
theorem InstallRecord.contentsAt_entries (r : InstallRecord) (ref key : String) :
    contentsAt key (r.full.entries.map fun e => (ref ++ e.1, e.2)) =
      (r.contentUnder? ref key).toList := by
  have hmap : contentsAt key (r.full.entries.map fun e => (ref ++ e.1, e.2)) =
      r.full.entries.filterMap fun e => if ref ++ e.1 = key then some e.2 else none := by
    rw [contentsAt, List.filterMap_map]
    rfl
  rw [hmap, contentUnder?, ← List.head?_filterMap]
  -- Either the key goes on from the ref with one path, or no directory of the ref has it.
  by_cases hkey : ∃ path, ref ++ path = key
  · obtain ⟨path, rfl⟩ := hkey
    simp only [String.append_right_inj, SortedMap.filterMap_entries]
    cases r.full.get? path <;> rfl
  · have hnil : (r.full.entries.filterMap fun e => if ref ++ e.1 = key then some e.2 else none) =
        [] := List.filterMap_eq_nil_iff.2 fun e _ => if_neg fun h => hkey ⟨e.1, h⟩
    rw [hnil]
    rfl

namespace ContentIndex

variable {index : ContentIndex} {reference : String}

theorem contentsAt_observed_eq (ref key : String) (commits : List CommitId) :
    contentsAt key (index.observed ref commits) =
      commits.filterMap fun c => (index.records.get? c).bind fun r => r.contentUnder? ref key := by
  rw [observed, contentsAt_flatMap, List.filterMap_eq_flatMap_toList]
  refine List.flatMap_congr fun c _ => ?_
  rw [InstallRecord.contentsAt_entries, recordOf]
  cases index.records.get? c <;> rfl

/-- What is observed under a key, among all that is observed, is what is recorded for it. -/
theorem contentsAt_observedBeside (index : ContentIndex) (reference key : String) :
    contentsAt key (index.observedBeside reference) = index.contentsUnder reference key := by
  rw [observedBeside, contentsAt_flatMap, contentsUnder]
  simp only [contentsAt_observed_eq]

instance (reference : String) : Decidable (index.IsCompleteBeside reference) :=
  decidable_of_iff (∀ e ∈ index.histories.entries, e.1 ≠ reference →
      ∀ c ∈ e.2, (index.records.get? c).isSome) <| by
    simp only [IsCompleteBeside, Option.isSome_iff_exists, SortedMap.get?_eq_some_iff]
    exact ⟨fun h ref commits he => h (ref, commits) he, fun h e he => h e.1 e.2 he⟩

end ContentIndex

/-! ### Subhistories -/

/-- What is located after its contents were collapsed is the subhistory of these contents. -/
theorem Subhistory.isOf_locate (trunk : SortedMap CommitId) {trees : List TreeId}
    (h : trees ≠ []) : (locate trunk ⟨collapsed trees, none, none⟩).IsOf trunk trees where
  history_eq := rfl
  history_ne_nil := fun hnil => h ((List.destutter_eq_nil (· ≠ ·)).1 hnil)
  isChain_ne := List.isChain_destutter (· ≠ ·) trees
  newest_eq := head?_collapsed trees
  oldest_eq := getLast?_collapsed trees
  mergedTo_eq := rfl
  branchedFrom_eq := rfl

section Subhistories

variable {index : ContentIndex} {reference : String}

/-- If no record beside the reference line is missing, there is a subhistory for exactly the keys of
the directories with an install, and it is that of the contents recorded for its key. -/
theorem subhistories_by_key (trunk : SortedMap CommitId)
    (complete : index.IsCompleteBeside reference) :
    ∃ subs, subhistories index reference trunk = .ok subs ∧
      (∀ key, key ∈ subs.keys ↔
        ∃ ref path, ref ≠ reference ∧ key = ref ++ path ∧ index.Installs ref path) ∧
      ∀ key s, subs.get? key = some s → s.IsOf trunk (index.contentsUnder reference key) := by
  obtain ⟨subs, hsubs⟩ : ∃ subs, subhistories index reference trunk = .ok subs :=
    ⟨_, subhistories_eq_ok_iff.2 ⟨complete, rfl⟩⟩
  refine ⟨subs, hsubs, fun key => ?_, fun key s hs => ?_⟩
  · rw [SortedMap.mem_keys_iff]
    constructor
    · rintro ⟨s, hs⟩
      exact exists_installs_of_get?_subhistories hsubs hs
    · rintro ⟨ref, path, hne, rfl, installed⟩
      rw [get?_subhistories hsubs]
      exact ⟨_, if_neg (ContentIndex.contentsAt_ne_nil hne installed)⟩
  · rw [get?_subhistories hsubs, ContentIndex.contentsAt_observedBeside] at hs
    dsimp only at hs
    split at hs
    · cases hs
    · rename_i hne
      obtain rfl := Option.some.inj hs
      exact Subhistory.isOf_locate trunk hne

end Subhistories

/-- Two refs with one key, one of which lost the directory for a while, and a reference line that
has not been looked at. -/
def gappedTags : ContentIndex where
  histories := .ofList
    [("svn/tags", ["G3", "G2", "G1"]), ("svn/tags/v0.8", ["R1"]), ("svn/trunk", ["C1"])]
  records := .ofList
    [("G1", ⟨.ofList [("/v0.8/", "T80"), ("/v0.9/", "T90")], .empty⟩),
      ("G2", ⟨.ofList [("/v0.9/", "T90")], .empty⟩),
      ("G3", ⟨.ofList [("/v0.8/", "T80"), ("/v0.9/", "T91")], .empty⟩),
      ("R1", ⟨.ofList [("/", "T79")], .empty⟩)]

theorem subhistories_gappedTags :
    gappedTags.IsCompleteBeside "svn/trunk" ∧
      ∃ subs s, subhistories gappedTags "svn/trunk" (.ofList [("T79", "C1")]) = .ok subs ∧
        subs.get? "svn/tags/v0.8/" = some s ∧ s.history = ["T80", "T79"] ∧
        s.mergedTo = none ∧ s.branchedFrom = some "C1" := by
  have complete : gappedTags.IsCompleteBeside "svn/trunk" := by decide +kernel
  obtain ⟨subs, hsubs, hkeys, hall⟩ :=
    subhistories_by_key (.ofList [("T79", "C1")]) complete
  have hcontents : gappedTags.contentsUnder "svn/trunk" "svn/tags/v0.8/" =
      ["T80", "T80", "T79"] := by decide +kernel
  have hinstalls : gappedTags.Installs "svn/tags" "/v0.8/" := by decide +kernel
  obtain ⟨s, hs⟩ := SortedMap.mem_keys_iff.1
    ((hkeys "svn/tags/v0.8/").2 ⟨"svn/tags", "/v0.8/", by decide, by decide, hinstalls⟩)
  have hof := hall _ s hs
  rw [hcontents] at hof
  have hhistory : s.history = ["T80", "T79"] := hof.history_eq.trans (by decide +kernel)
  refine ⟨complete, subs, s, hsubs, hs, hhistory, ?_, ?_⟩
  · rw [hof.mergedTo_eq, hhistory]
    decide +kernel
  · rw [hof.branchedFrom_eq, hhistory]
    decide +kernel

end ReleaseRecovery
