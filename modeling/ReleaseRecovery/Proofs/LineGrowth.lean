import ReleaseRecovery.Proofs.Soundness

/-!
# A growing reference line

New commits stand in front of the history of the reference line. Of several commits with the same
contents the oldest counts, so whatever was found under some contents is found there for good, no
matter how often the new commits come back to it. For a copy that means progress only: it comes to
what it came to before, or to a newer one of its contents, and a copy that has come to something is
never left to decide again.

## Main Definitions

* `ContentIndex.GrowsTo` — new commits have been put in front of the reference line

## Main Statements

* `ContentIndex.IsOldestWith.grow` — the oldest commit with some contents remains the oldest
* `idxOf_le_of_resolve_eq_trunk` — a copy comes to the newest content that can be found
* `resolve_trunk_grown`, `resolve_synthesize_grown`, `resolve_of_unresolved_grown` — what a copy
  comes to when more contents can be found
* `referenceIndex_grown` — all of it for an index and one that it has grown to
-/

namespace ReleaseRecovery

/-! ### Finding more contents -/

section Resolution

variable {trunk later : SortedMap CommitId} {history : List TreeId}

/-- No content that can be found stands before the one that a copy comes to. -/
theorem idxOf_le_of_resolve_eq_trunk {t u : TreeId} {c d : CommitId}
    (h : resolve history trunk = .trunk t c) (hu : trunk.get? u = some d) :
    history.idxOf t ≤ history.idxOf u := by
  obtain ⟨newer, older, rfl, hc, hnewer⟩ := resolve_eq_trunk_iff.1 h
  have hnot : ∀ {v e}, trunk.get? v = some e → v ∉ newer := fun hv hin => by
    rw [hnewer _ hin] at hv
    cases hv
  rw [List.idxOf_append_of_notMem (hnot hc), List.idxOf_append_of_notMem (hnot hu),
    List.idxOf_cons_self]
  exact Nat.add_le_add_left (Nat.zero_le _) _

/-- A copy that comes to a commit of the reference line still comes to one when more contents can be
found. It is the same one, unless a newer content of the copy is among them. -/
theorem resolve_trunk_grown (kept : ∀ t c, trunk.get? t = some c → later.get? t = some c)
    {t : TreeId} {c : CommitId} (h : resolve history trunk = .trunk t c) :
    ∃ t' c', resolve history later = .trunk t' c' ∧ t' ∈ history ∧
      history.idxOf t' ≤ history.idxOf t ∧
      (history.idxOf t' = history.idxOf t → t' = t ∧ c' = c) := by
  obtain ⟨newer, older, hsplit, hc, -⟩ := resolve_eq_trunk_iff.1 h
  have hmem : t ∈ history := hsplit ▸ List.mem_append_right newer List.mem_cons_self
  have hlater : later.get? t = some c := kept t c hc
  obtain ⟨t', c', hres⟩ := exists_resolve_eq_trunk hmem hlater
  obtain ⟨newer', older', hsplit', hc', -⟩ := resolve_eq_trunk_iff.1 hres
  have hmem' : t' ∈ history := hsplit' ▸ List.mem_append_right newer' List.mem_cons_self
  refine ⟨t', c', hres, hmem', idxOf_le_of_resolve_eq_trunk hres hlater, fun hsame => ?_⟩
  obtain rfl := (List.idxOf_inj hmem').1 hsame
  exact ⟨rfl, Option.some.inj (hc'.symm.trans hlater)⟩

/-- A content that no commit had may turn up on the reference line. -/
theorem resolve_synthesize_grown (later : SortedMap CommitId) {t : TreeId}
    (h : resolve history trunk = .synthesize t) :
    resolve history later = .synthesize t ∨ ∃ c, resolve history later = .trunk t c := by
  obtain ⟨rfl, -⟩ := resolve_eq_synthesize_iff.1 h
  cases hlater : later.get? t with
  | none => exact .inl (resolve_eq_synthesize_iff.2 ⟨rfl, hlater⟩)
  | some c =>
    exact .inr ⟨c, resolve_eq_trunk_iff.2 ⟨[], [], rfl, hlater, List.forall_mem_nil _⟩⟩

/-- A copy that is left to decide was so when fewer contents could be found, for the same reason. -/
theorem resolve_of_unresolved_grown
    (kept : ∀ t c, trunk.get? t = some c → later.get? t = some c) {reason : UnresolvedReason}
    (h : resolve history later = .unresolved reason) :
    resolve history trunk = .unresolved reason := by
  obtain ⟨hnone, hreason⟩ := resolve_eq_unresolved_iff.1 h
  refine resolve_eq_unresolved_iff.2 ⟨fun t ht => ?_, hreason⟩
  cases hc : trunk.get? t with
  | none => rfl
  | some c =>
    have hlater := kept t c hc
    rw [hnone t ht] at hlater
    cases hlater

end Resolution

/-! ### Growth of the line -/

/-- New commits have been put in front of the reference line and have got their records. Nothing is
said of the other refs, or of further records. -/
structure ContentIndex.GrowsTo (index later : ContentIndex) (reference : String)
    (newer : List CommitId) : Prop where
  line : ∀ commits, index.histories.get? reference = some commits →
    later.histories.get? reference = some (newer ++ commits)
  kept : ∀ c r, index.records.get? c = some r → later.records.get? c = some r
  recorded : ∀ c ∈ newer, ∃ r, later.records.get? c = some r

variable {index later : ContentIndex} {reference : String} {newer commits : List CommitId}

theorem ContentIndex.GrowsTo.root?_eq (grown : index.GrowsTo later reference newer) {c : CommitId}
    (recorded : ∃ r, index.records.get? c = some r) : later.root? c = index.root? c := by
  obtain ⟨r, hr⟩ := recorded
  rw [root?, root?, hr, grown.kept c r hr]

/-- The oldest commit with some contents remains the oldest, as what is added is newer. -/
theorem ContentIndex.IsOldestWith.grow (grown : index.GrowsTo later reference newer)
    (recorded : ∀ d ∈ commits, ∃ r, index.records.get? d = some r) {tree : TreeId} {c : CommitId}
    (h : index.IsOldestWith commits tree c) : later.IsOldestWith (newer ++ commits) tree c := by
  obtain ⟨between, older, rfl, hroot, holder⟩ := h
  have hroots : ∀ d ∈ c :: older, later.root? d = index.root? d := fun d hd =>
    grown.root?_eq (recorded d (List.mem_append_right between hd))
  refine ⟨newer ++ between, older, (List.append_assoc ..).symm, ?_, fun d hd => ?_⟩
  · rw [hroots c List.mem_cons_self, hroot]
  · rw [hroots d (List.mem_cons_of_mem c hd)]
    exact holder d hd

theorem exists_referenceIndex_grown {trunk : SortedMap CommitId}
    (h : referenceIndex index reference = .ok trunk)
    (grown : index.GrowsTo later reference newer) :
    ∃ trunk', referenceIndex later reference = .ok trunk' ∧
      ∀ t c, trunk.get? t = some c → trunk'.get? t = some c := by
  obtain ⟨commits, hget, recorded, -⟩ := referenceIndex_eq_ok_iff.1 h
  have hline := grown.line commits hget
  have recorded' : ∀ c ∈ newer ++ commits, ∃ r, later.records.get? c = some r := by
    intro c hc
    rcases List.mem_append.1 hc with hc | hc
    · exact grown.recorded c hc
    · obtain ⟨r, hr⟩ := recorded c hc
      exact ⟨r, grown.kept c r hr⟩
  have htrunk' := referenceIndex_eq_ok_iff.2 ⟨newer ++ commits, hline, recorded', rfl⟩
  refine ⟨_, htrunk', fun t c hc => ?_⟩
  have holdest := (get?_referenceIndex h hget).1 hc
  exact (get?_referenceIndex htrunk' hline).2 (holdest.grow grown recorded)

/-- When the reference line has grown, every content is found with the same commit as before. So
every copy that came to something comes to the same, or to a newer one of its contents. -/
theorem referenceIndex_grown {trunk : SortedMap CommitId}
    (h : referenceIndex index reference = .ok trunk)
    (grown : index.GrowsTo later reference newer) :
    ∃ trunk', referenceIndex later reference = .ok trunk' ∧
      (∀ t c, trunk.get? t = some c → trunk'.get? t = some c) ∧
      ∀ s : Subhistory,
        (∀ t c, resolve s.history trunk = .trunk t c →
          ∃ t' c', resolve s.history trunk' = .trunk t' c' ∧ t' ∈ s.history ∧
            s.history.idxOf t' ≤ s.history.idxOf t ∧
            (s.history.idxOf t' = s.history.idxOf t → t' = t ∧ c' = c)) ∧
        (∀ t, resolve s.history trunk = .synthesize t →
          resolve s.history trunk' = .synthesize t ∨
            ∃ c, resolve s.history trunk' = .trunk t c) ∧
        ∀ reason, resolve s.history trunk' = .unresolved reason →
          resolve s.history trunk = .unresolved reason := by
  obtain ⟨trunk', htrunk', kept⟩ := exists_referenceIndex_grown h grown
  refine ⟨trunk', htrunk', kept, fun s => ⟨fun t c => ?_, fun t => ?_, fun reason => ?_⟩⟩
  · exact resolve_trunk_grown kept
  · exact resolve_synthesize_grown trunk'
  · exact resolve_of_unresolved_grown kept

/-- The reference line that came back to an earlier content, with two more commits: one comes back
to another earlier content, and one has the content of a copy. -/
def regrownLine : ContentIndex where
  histories := revertedLine.histories.insert "svn/trunk" ["C5", "C4", "C3", "C2", "C1"]
  records := (revertedLine.records.insert "C4" ⟨.ofList [("/", "T2")], .empty⟩).insert "C5"
    ⟨.ofList [("/", "T9")], .empty⟩

theorem growsTo_regrownLine : revertedLine.GrowsTo regrownLine "svn/trunk" ["C5", "C4"] where
  line commits h := by
    obtain rfl : commits = ["C3", "C2", "C1"] := by
      have hline : revertedLine.histories.get? "svn/trunk" = some ["C3", "C2", "C1"] := by
        decide +kernel
      exact Option.some.inj (h.symm.trans hline)
    decide +kernel
  kept c r h := by
    have hfresh : ∀ d ∈ ["C4", "C5"], revertedLine.records.get? d = none := by decide +kernel
    have hne : ∀ d ∈ ["C4", "C5"], c ≠ d := by
      rintro d hd rfl
      rw [hfresh c hd] at h
      cases h
    rw [regrownLine, SortedMap.get?_insert, if_neg (hne "C5" (by decide)), SortedMap.get?_insert,
      if_neg (hne "C4" (by decide)), h]
  recorded := by
    intro c hc
    rw [← Option.isSome_iff_exists]
    revert c
    decide +kernel

theorem referenceIndex_regrownLine :
    ∃ trunk trunk', referenceIndex revertedLine "svn/trunk" = .ok trunk ∧
      revertedLine.GrowsTo regrownLine "svn/trunk" ["C5", "C4"] ∧
      referenceIndex regrownLine "svn/trunk" = .ok trunk' ∧ trunk'.get? "T2" = some "C2" ∧
      resolve ["T9", "T2"] trunk = .trunk "T2" "C2" ∧
      ∃ t' c', resolve ["T9", "T2"] trunk' = .trunk t' c' ∧
        ["T9", "T2"].idxOf t' ≤ ["T9", "T2"].idxOf "T2" := by
  have htrunk : referenceIndex revertedLine "svn/trunk" =
      .ok (.ofList [("T1", "C1"), ("T2", "C2")]) := by decide +kernel
  have hres : resolve ["T9", "T2"] (.ofList [("T1", "C1"), ("T2", "C2")]) =
      .trunk "T2" "C2" := by decide +kernel
  obtain ⟨trunk', htrunk', kept, hcopies⟩ := referenceIndex_grown htrunk growsTo_regrownLine
  obtain ⟨t', c', hres', -, hplace, -⟩ := (hcopies ⟨["T9", "T2"], none, none⟩).1 "T2" "C2" hres
  exact ⟨_, trunk', htrunk, growsTo_regrownLine, htrunk', kept "T2" "C2" (by decide +kernel), hres,
    t', c', hres', hplace⟩

end ReleaseRecovery
