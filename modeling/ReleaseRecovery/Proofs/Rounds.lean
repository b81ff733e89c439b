import ReleaseRecovery.Proofs.Scans
import ReleaseRecovery.Proofs.VisitedDirectories

/-!
# Filling an index in rounds

Filling goes in rounds. In a round commits of one batch are scanned, their records are added, and
the index is saved. A round that something goes wrong in is the last one, and so is one at whose end
the request to stop stands.

## Main Definitions

* `noting` — saving an index, with a note of it
* `TakesUp` — an index has the records of further commits
* `Round` — what came of a batch, and of the save after it
* `Round.failure?` — what has gone wrong in a round
* `FillsIn` — filling goes in the given rounds

## Main Statements

* `TakesUp.unique` — it is determined what taking up some commits comes to
* `unnoted_fill` — taking notes changes nothing
* `exists_fillsIn` — filling always goes in rounds
* `FillsIn.scans`, `FillsIn.index_eq`, `FillsIn.notes_eq` — what the rounds come to together
* `FillsIn.ending` — all rounds but the last one are clean
-/

namespace ReleaseRecovery

variable {ρ σ : Type} [Repository ρ]

/-! ### Records of results -/

/-- An index has the records of further commits, and is otherwise as it was. -/
structure TakesUp (store : ρ) (markers : Markers) (commits : List CommitId)
    (index built : ContentIndex) : Prop where
  histories_eq : built.histories = index.histories
  kept : ∀ c, c ∉ commits → built.records.get? c = index.records.get? c
  added : ∀ c ∈ commits, ∃ r, built.records.get? c = some r ∧ ScansTo store markers c r

section Records

variable {store : ρ} {markers : Markers} {index built built' : ContentIndex}
  {commits : List CommitId} {results : List (CommitId × Except Failure InstallRecord)}
  {c : CommitId} {r : InstallRecord}

namespace ContentIndex

theorem ascending_unscanned (index : ContentIndex) : index.unscanned.Pairwise (· < ·) :=
  SortedMap.ascending_keys _

theorem nodup_unscanned (index : ContentIndex) : index.unscanned.Nodup := SortedMap.nodup_keys _

theorem addResults_append (index : ContentIndex)
    (results results' : List (CommitId × Except Failure InstallRecord)) :
    index.addResults (results ++ results') = (index.addResults results).addResults results' :=
  List.foldl_append

theorem histories_addResults (index : ContentIndex)
    (results : List (CommitId × Except Failure InstallRecord)) :
    (index.addResults results).histories = index.histories :=
  addResults_invariant (P := fun built => built.histories = index.histories)
    (fun _ _ _ _ h => h) rfl

theorem get?_addResults_of_notMem (index : ContentIndex) (h : ∀ r, (c, .ok r) ∉ results) :
    (index.addResults results).records.get? c = index.records.get? c := by
  refine addResults_invariant (P := fun built => built.records.get? c = index.records.get? c)
    (fun d r hd built hbuilt => ?_) rfl
  rw [get?_records_addRecord, if_neg, hbuilt]
  rintro rfl
  exact h r hd

theorem get?_addResults_of_mem (index : ContentIndex) (nodup : (results.map Prod.fst).Nodup)
    (h : (c, .ok r) ∈ results) : (index.addResults results).records.get? c = some r := by
  obtain ⟨before, after, rfl⟩ := List.append_of_mem h
  rw [List.map_append, List.map_cons] at nodup
  have hafter : c ∉ after.map Prod.fst := (List.nodup_cons.1 (List.nodup_append.1 nodup).2.1).1
  have hsplit : index.addResults (before ++ (c, .ok r) :: after) =
      ((index.addResults before).addRecord c r).addResults after :=
    addResults_append _ _ _
  rw [hsplit, get?_addResults_of_notMem _ fun _ hmem => hafter (List.mem_map_of_mem hmem),
    get?_records_addRecord, if_pos rfl]

/-- If what is scanned has no record yet, the records are the old ones and those scanned. -/
theorem get?_addResults_eq_some_iff (nodup : (results.map Prod.fst).Nodup)
    (hnew : ∀ c ∈ results.map Prod.fst, index.records.get? c = none) :
    (index.addResults results).records.get? c = some r ↔
      index.records.get? c = some r ∨ (c, .ok r) ∈ results := by
  by_cases hresult : ∃ r', (c, .ok r') ∈ results
  · obtain ⟨r', hmem⟩ := hresult
    have hget := get?_addResults_of_mem index nodup hmem
    rw [hget, hnew c (List.mem_map_of_mem hmem), or_iff_right nofun, Option.some.injEq]
    constructor
    · rintro rfl
      exact hmem
    · intro hmem'
      exact Option.some.inj (hget.symm.trans (get?_addResults_of_mem index nodup hmem'))
  · rw [get?_addResults_of_notMem index (not_exists.1 hresult)]
    exact (or_iff_left fun hmem => hresult ⟨r, hmem⟩).symm

end ContentIndex

/-- Results without a failure are all taken up. -/
theorem takesUp_addResults (nodup : (results.map Prod.fst).Nodup)
    (hok : ∀ c result, (c, result) ∈ results → ∃ r, result = .ok r)
    (hscans : ∀ c r, (c, .ok r) ∈ results → ScansTo store markers c r) :
    TakesUp store markers (results.map Prod.fst) index (index.addResults results) := by
  refine ⟨index.histories_addResults results, fun c hc => ?_, fun c hc => ?_⟩
  · exact index.get?_addResults_of_notMem fun r hmem => hc (List.mem_map_of_mem hmem)
  · obtain ⟨⟨_, result⟩, hmem, rfl⟩ := List.mem_map.1 hc
    obtain ⟨r, rfl⟩ := hok _ _ hmem
    exact ⟨r, index.get?_addResults_of_mem nodup hmem, hscans _ _ hmem⟩

theorem scannedCount_of_ok {results : List (CommitId × Except Failure InstallRecord)}
    (h : ∀ c result, (c, result) ∈ results → ∃ r, result = .ok r) :
    scannedCount results = (results.map Prod.fst).length := by
  rw [scannedCount, List.length_map, List.countP_eq_length]
  rintro ⟨c, result⟩ hmem
  obtain ⟨r, rfl⟩ := h c result hmem
  rfl

namespace TakesUp

/-- It is determined what taking up some commits comes to. -/
theorem unique (h : TakesUp store markers commits index built)
    (h' : TakesUp store markers commits index built') : built = built' := by
  have hrecords : built.records = built'.records := by
    refine SortedMap.ext_get? fun c => ?_
    by_cases hc : c ∈ commits
    · obtain ⟨r, hr, _, hscan⟩ := h.added c hc
      obtain ⟨r', hr', _, hscan'⟩ := h'.added c hc
      rw [hr, hr', scan_unique hscan hscan']
    · rw [h.kept c hc, h'.kept c hc]
  calc
    built = ⟨built.histories, built.records⟩ := rfl
    _ = ⟨built'.histories, built'.records⟩ := by rw [h.histories_eq, h'.histories_eq, hrecords]

/-- What is still to be scanned is what has not been taken up. -/
theorem unscanned_perm (h : TakesUp store markers commits index built) (nodup : commits.Nodup)
    (hcommits : ∀ c ∈ commits, c ∈ index.unscanned) :
    index.unscanned.Perm (commits ++ built.unscanned) := by
  have hrecord : ∀ c ∈ commits, c ∉ built.unscanned := fun c hc hbuilt => by
    obtain ⟨r, hr, -⟩ := h.added c hc
    rw [(ContentIndex.mem_unscanned_iff.1 hbuilt).2] at hr
    cases hr
  refine (List.perm_ext_iff_of_nodup index.nodup_unscanned
    (nodup.append built.nodup_unscanned hrecord)).2 fun c => ?_
  rw [List.mem_append]
  by_cases hc : c ∈ commits
  · exact iff_of_true (hcommits c hc) (.inl hc)
  · rw [or_iff_right hc, ContentIndex.mem_unscanned_iff, ContentIndex.mem_unscanned_iff,
      h.kept c hc, ContentIndex.mentioned, ContentIndex.mentioned, h.histories_eq]

/-- The commits with a record are those that had one, and those taken up. -/
theorem keys_perm (h : TakesUp store markers commits index built) (nodup : commits.Nodup)
    (hcommits : ∀ c ∈ commits, c ∈ index.unscanned) :
    built.records.keys.Perm (index.records.keys ++ commits) := by
  have hnew : ∀ c ∈ index.records.keys, c ∉ commits := fun c hc hmem => by
    obtain ⟨r, hr⟩ := SortedMap.mem_keys_iff.1 hc
    rw [(ContentIndex.mem_unscanned_iff.1 (hcommits c hmem)).2] at hr
    cases hr
  refine (List.perm_ext_iff_of_nodup built.records.nodup_keys
    (index.records.nodup_keys.append nodup hnew)).2 fun c => ?_
  rw [List.mem_append]
  by_cases hc : c ∈ commits
  · obtain ⟨r, hr, -⟩ := h.added c hc
    exact iff_of_true (SortedMap.mem_keys_iff.2 ⟨r, hr⟩) (.inr hc)
  · rw [or_iff_left hc, SortedMap.mem_keys_iff, SortedMap.mem_keys_iff, h.kept c hc]

end TakesUp

end Records

/-! ### Notes of saves -/

/-- A note of a save: the index that was to be saved, and what came of it. -/
structure SaveNote where
  index : ContentIndex
  saved : Except Failure Unit

/-- Saves an index, and takes a note of it. -/
def noting (save : ContentIndex → σ → Except Failure Unit × σ) (index : ContentIndex)
    (noted : σ × List SaveNote) : Except Failure Unit × (σ × List SaveNote) :=
  let (saved, saves) := save index noted.1
  (saved, saves, noted.2 ++ [⟨index, saved⟩])

/-- Where filling ended, without the notes. -/
def Filled.unnoted (filled : Filled (σ × List SaveNote)) : Filled σ :=
  ⟨filled.result, filled.index, filled.saves.1, filled.done⟩

/-! ### Rounds -/

/-- One round: what came of the commits that were scanned, and of the save after them. -/
structure Round where
  results : List (CommitId × Except Failure InstallRecord)
  saved : Except Failure Unit

namespace Round

/-- The commits that were scanned. -/
def commits (round : Round) : List CommitId := round.results.map Prod.fst

/-- Nothing has gone wrong in a round. -/
structure IsClean (round : Round) : Prop where
  saved : round.saved = .ok ()
  scans : ∀ c result, (c, result) ∈ round.results → ∃ r, result = .ok r

/-- What has gone wrong in a round: its save, or else the first scan that failed. -/
def failure? (round : Round) : Option Failure :=
  match round.saved with
  | .error e => some e
  | .ok _ => firstFailure? round.results

variable {round : Round}

theorem failure?_eq_none_iff : round.failure? = none ↔ round.IsClean := by
  have hclean : round.IsClean ↔ round.saved = .ok () ∧ firstFailure? round.results = none := by
    rw [firstFailure?_eq_none_iff]
    exact ⟨fun h => ⟨h.saved, h.scans⟩, fun h => ⟨h.1, h.2⟩⟩
  rw [hclean, failure?]
  cases round.saved <;> simp

theorem failure?_eq_some_iff {e : Failure} : round.failure? = some e ↔
    round.saved = .error e ∨ round.saved = .ok () ∧ firstFailure? round.results = some e := by
  rw [failure?]
  cases round.saved <;> simp

end Round

/-- The notes of the saves of some rounds, which start from an index. -/
def notesOf (index : ContentIndex) : List Round → List SaveNote
  | [] => []
  | round :: rounds =>
    ⟨index.addResults round.results, round.saved⟩ ::
      notesOf (index.addResults round.results) rounds

theorem length_notesOf (index : ContentIndex) (rounds : List Round) :
    (notesOf index rounds).length = rounds.length := by
  induction rounds generalizing index with
  | nil => rfl
  | cons round rounds ih => rw [notesOf, List.length_cons, List.length_cons, ih]

/-- The note of a round has the index with the records of the rounds up to it. -/
theorem getElem?_notesOf (index : ContentIndex) (rounds : List Round) (i : Nat) :
    (notesOf index rounds)[i]? = rounds[i]?.map fun round =>
      ⟨index.addResults ((rounds.take (i + 1)).flatMap Round.results), round.saved⟩ := by
  induction rounds generalizing index i with
  | nil => rfl
  | cons round rounds ih =>
    cases i with
    | zero => simp [notesOf]
    | succ i =>
      rw [notesOf, List.getElem?_cons_succ, List.getElem?_cons_succ, ih, List.take_succ_cons,
        List.flatMap_cons]
      simp only [ContentIndex.addResults_append]

theorem map_saved_notesOf (index : ContentIndex) (rounds : List Round) :
    (notesOf index rounds).map SaveNote.saved = rounds.map Round.saved := by
  induction rounds generalizing index with
  | nil => rfl
  | cons round rounds ih => rw [notesOf, List.map_cons, List.map_cons, ih]

/-- The last note has the index with the records of all rounds. -/
theorem index_of_getLast?_notesOf {index : ContentIndex} {rounds : List Round} {note : SaveNote}
    (h : (notesOf index rounds).getLast? = some note) :
    note.index = index.addResults (rounds.flatMap Round.results) := by
  rw [List.getLast?_eq_getElem?, length_notesOf, getElem?_notesOf] at h
  obtain ⟨round, hround, rfl⟩ := Option.map_eq_some_iff.1 h
  have hlength := (List.getElem?_eq_some_iff.1 hround).1
  rw [List.take_of_length_le (by omega)]

theorem map_fst_flatMap_results (rounds : List Round) :
    (rounds.flatMap Round.results).map Prod.fst = (rounds.map Round.commits).flatten := by
  rw [List.map_flatMap, List.flatMap_def]
  rfl

theorem forall_of_isClean {rounds : List Round} (h : ∀ round ∈ rounds, round.IsClean) :
    ∀ c result, (c, result) ∈ rounds.flatMap Round.results → ∃ r, result = .ok r := by
  intro c result hmem
  obtain ⟨round, hround, hmem⟩ := List.mem_flatMap.1 hmem
  exact (h round hround).scans c result hmem

/-- Filling goes in the given rounds: from an index, with the `parts` still to be scanned and
`scanned` commits scanned before, to where it ends. -/
inductive FillsIn (store : ρ) (markers : Markers) (interrupt : Interrupt)
    (save : ContentIndex → σ → Except Failure Unit × σ) (pending reused : Nat) :
    List (List CommitId) → Nat → ContentIndex → σ → List Action → List Round → Filled σ → Prop
  | finished {scanned : Nat} {index : ContentIndex} {saves : σ} {done : List Action} :
    FillsIn store markers interrupt save pending reused [] scanned index saves done []
      ⟨.ok ⟨scanned, reused⟩, index, saves, done⟩
  | failed {batch : List CommitId} {rest : List (List CommitId)} {scanned : Nat}
      {index : ContentIndex} {saves saves' : σ} {done later : List Action} {round : Round}
      {e : Failure} :
    ScansBatch store markers interrupt batch done later round.results →
    save (index.addResults round.results) saves = (round.saved, saves') →
    round.failure? = some e →
    FillsIn store markers interrupt save pending reused (batch :: rest) scanned index saves done
      [round] ⟨.error e, index.addResults round.results, saves', .save :: later⟩
  | stopped {batch : List CommitId} {rest : List (List CommitId)} {scanned : Nat}
      {index : ContentIndex} {saves saves' : σ} {done later : List Action} {round : Round} :
    ScansBatch store markers interrupt batch done later round.results →
    save (index.addResults round.results) saves = (round.saved, saves') →
    round.IsClean → interrupt.raised (.save :: later) = true →
    FillsIn store markers interrupt save pending reused (batch :: rest) scanned index saves done
      [round] ⟨.error (.interrupted .scan (scanned + scannedCount round.results)
        (pending - (scanned + scannedCount round.results))), index.addResults round.results, saves',
        .poll :: .save :: later⟩
  | goesOn {batch : List CommitId} {rest : List (List CommitId)} {scanned : Nat}
      {index : ContentIndex} {saves saves' : σ} {done later : List Action} {round : Round}
      {rounds : List Round} {filled : Filled σ} :
    ScansBatch store markers interrupt batch done later round.results →
    save (index.addResults round.results) saves = (round.saved, saves') →
    round.IsClean → interrupt.raised (.save :: later) = false →
    FillsIn store markers interrupt save pending reused rest
      (scanned + scannedCount round.results) (index.addResults round.results) saves'
      (.poll :: .save :: later) rounds filled →
    FillsIn store markers interrupt save pending reused (batch :: rest) scanned index saves done
      (round :: rounds) filled

section Filling

variable {store : ρ} {markers : Markers} {interrupt : Interrupt} {schedule : Schedule}
  {save : ContentIndex → σ → Except Failure Unit × σ} {pending reused scanned : Nat}
  {parts : List (List CommitId)} {index : ContentIndex} {saves : σ} {done : List Action}
  {rounds : List Round} {filled : Filled σ}

/-- After a round something has gone wrong, or the request to stop stands, or filling goes on with
the next batch. -/
theorem fillBatches_cons {batch : List CommitId} {rest : List (List CommitId)}
    {results : List (CommitId × Except Failure InstallRecord)} {later : List Action}
    {saved : Except Failure Unit} {saves' : σ}
    (hscan : scanBatch store markers interrupt schedule batch done = (results, later))
    (hsave : save (index.addResults results) saves = (saved, saves')) :
    fillBatches store markers interrupt schedule save pending reused (batch :: rest) scanned index
        saves done =
      match (⟨results, saved⟩ : Round).failure? with
      | some e => ⟨.error e, index.addResults results, saves', .save :: later⟩
      | none =>
        if interrupt.raised (.save :: later) then
          ⟨.error (.interrupted .scan (scanned + scannedCount results)
            (pending - (scanned + scannedCount results))), index.addResults results, saves',
            .poll :: .save :: later⟩
        else fillBatches store markers interrupt schedule save pending reused rest
          (scanned + scannedCount results) (index.addResults results) saves'
          (.poll :: .save :: later) := by
  rw [fillBatches, hscan]
  dsimp only
  rw [hsave]
  cases saved with
  | error e => rfl
  | ok _ => cases hfailure : firstFailure? results <;> simp only [Round.failure?, hfailure]

/-- Taking notes changes nothing. -/
theorem unnoted_fillBatches (parts : List (List CommitId)) (notes : List SaveNote) :
    (fillBatches store markers interrupt schedule (noting save) pending reused parts scanned index
        (saves, notes) done).unnoted =
      fillBatches store markers interrupt schedule save pending reused parts scanned index saves
        done := by
  induction parts generalizing scanned index saves done notes with
  | nil => rfl
  | cons batch rest ih =>
    rcases hscan : scanBatch store markers interrupt schedule batch done with ⟨results, later⟩
    rcases hsave : save (index.addResults results) saves with ⟨saved, saves'⟩
    have hnoting : noting save (index.addResults results) (saves, notes) =
        (saved, saves', notes ++ [⟨index.addResults results, saved⟩]) := by
      rw [noting, hsave]
    rw [fillBatches_cons hscan hnoting, fillBatches_cons hscan hsave]
    split
    · rfl
    split
    · rfl
    · exact ih _

theorem unnoted_fill (checkpoint : Nat) (notes : List SaveNote) :
    (fill store markers checkpoint interrupt (noting save) index (saves, notes) done
      schedule).unnoted = fill store markers checkpoint interrupt save index saves done schedule :=
  unnoted_fillBatches _ notes

/-- Filling always goes in rounds. -/
theorem exists_fillsIn (parts : List (List CommitId)) :
    ∃ rounds, FillsIn store markers interrupt save pending reused parts scanned index saves done
      rounds (fillBatches store markers interrupt schedule save pending reused parts scanned index
        saves done) := by
  induction parts generalizing scanned index saves done with
  | nil => exact ⟨[], by rw [fillBatches]; exact .finished⟩
  | cons batch rest ih =>
    have hbatch := scansBatch_scanBatch store markers interrupt schedule batch done
    rcases hscan : scanBatch store markers interrupt schedule batch done with ⟨results, later⟩
    rcases hsave : save (index.addResults results) saves with ⟨saved, saves'⟩
    rw [hscan] at hbatch
    rw [fillBatches_cons hscan hsave]
    split
    · rename_i hfailure
      exact ⟨_, .failed hbatch hsave hfailure⟩
    rename_i hfailure
    have hclean := Round.failure?_eq_none_iff.1 hfailure
    split
    · rename_i hraised
      exact ⟨_, .stopped hbatch hsave hclean hraised⟩
    · rename_i hquiet
      obtain ⟨rounds, hrest⟩ := ih
      exact ⟨_, .goesOn hbatch hsave hclean (Bool.eq_false_iff.2 hquiet) hrest⟩

theorem exists_fillsIn_fill (store : ρ) (markers : Markers) (checkpoint : Nat)
    (interrupt : Interrupt) (save : ContentIndex → σ → Except Failure Unit × σ)
    (index : ContentIndex) (saves : σ) (done : List Action) (schedule : Schedule) :
    ∃ rounds, FillsIn store markers interrupt save index.unscanned.length
      (index.uniqueCommits - index.unscanned.length) (batches checkpoint index.unscanned) 0 index
      saves done rounds
      (fill store markers checkpoint interrupt save index saves done schedule) :=
  exists_fillsIn _

namespace FillsIn

/-- Each round makes one save. -/
theorem notes_eq {noted : σ × List SaveNote} {filled : Filled (σ × List SaveNote)}
    (h : FillsIn store markers interrupt (noting save) pending reused parts scanned index noted
      done rounds filled) :
    filled.saves.2 = noted.2 ++ notesOf index rounds := by
  induction h with
  | finished => exact (List.append_nil _).symm
  | failed _ hsave =>
    obtain ⟨hsaved, rfl⟩ := Prod.mk.inj hsave
    rw [notesOf, notesOf, ← hsaved]
  | stopped _ hsave =>
    obtain ⟨hsaved, rfl⟩ := Prod.mk.inj hsave
    rw [notesOf, notesOf, ← hsaved]
  | goesOn _ hsave _ _ _ ih =>
    obtain ⟨hsaved, rfl⟩ := Prod.mk.inj hsave
    rw [ih, notesOf, ← hsaved, List.append_assoc]
    rfl

variable (h : FillsIn store markers interrupt save pending reused parts scanned index saves done
  rounds filled)
include h

/-- In each round commits of one part are scanned. -/
theorem begun : List.Forall₂ (fun round part => round.commits.Sublist part) rounds
    (parts.take rounds.length) := by
  induction h with
  | finished => exact .nil
  | failed hbatch => exact .cons hbatch.sublist .nil
  | stopped hbatch => exact .cons hbatch.sublist .nil
  | goesOn hbatch _ _ _ _ ih => exact .cons hbatch.sublist ih

theorem sublist : ((rounds.flatMap Round.results).map Prod.fst).Sublist parts.flatten := by
  induction h with
  | finished => exact .slnil
  | failed hbatch =>
    rw [List.flatMap_singleton, List.flatten_cons]
    exact hbatch.sublist.trans (List.sublist_append_left _ _)
  | stopped hbatch =>
    rw [List.flatMap_singleton, List.flatten_cons]
    exact hbatch.sublist.trans (List.sublist_append_left _ _)
  | goesOn hbatch _ _ _ _ ih =>
    rw [List.flatMap_cons, List.map_append, List.flatten_cons]
    exact hbatch.sublist.append ih

/-- All that is done but the saves and the looks at the request to stop is scanning commits. -/
theorem scans : Scans store markers done filled.done (rounds.flatMap Round.results) := by
  induction h with
  | finished => exact .nil store markers _
  | failed hbatch =>
    rw [List.flatMap_singleton]
    exact hbatch.toScans.note .save nofun
  | stopped hbatch =>
    rw [List.flatMap_singleton]
    exact (hbatch.toScans.note .save nofun).note .poll nofun
  | goesOn hbatch _ _ _ _ ih =>
    exact ((hbatch.toScans.note .save nofun).note .poll nofun).append ih

/-- The index where filling ends has the records of all rounds. -/
theorem index_eq : filled.index = index.addResults (rounds.flatMap Round.results) := by
  induction h with
  | finished => rfl
  | failed => rw [List.flatMap_singleton]
  | stopped => rw [List.flatMap_singleton]
  | goesOn _ _ _ _ _ ih => rw [ih, List.flatMap_cons, ContentIndex.addResults_append]

/-- Either all rounds are clean and scan all that there is, or all but the last one are clean and
something has gone wrong in that, or all are clean and the request to stop stands after the last. -/
theorem ending :
    (filled.result = .ok ⟨scanned + scannedCount (rounds.flatMap Round.results), reused⟩ ∧
      (∀ round ∈ rounds, round.IsClean) ∧ rounds.map Round.commits = parts) ∨
    ∃ earlier last e, rounds = earlier ++ [last] ∧ (∀ round ∈ earlier, round.IsClean) ∧
      filled.result = .error e ∧
      (last.failure? = some e ∨
        last.IsClean ∧ interrupt.StopsAt filled.done ∧
          e = .interrupted .scan (scanned + scannedCount (rounds.flatMap Round.results))
            (pending - (scanned + scannedCount (rounds.flatMap Round.results)))) := by
  induction h with
  | finished => exact .inl ⟨rfl, nofun, rfl⟩
  | failed _ _ hfailure => exact .inr ⟨[], _, _, rfl, nofun, rfl, .inl hfailure⟩
  | stopped _ _ hclean hraised =>
    refine .inr ⟨[], _, _, rfl, nofun, rfl, .inr ⟨hclean, ⟨_, rfl, hraised⟩, ?_⟩⟩
    rw [List.flatMap_singleton]
  | @goesOn batch rest scanned _ _ _ _ later round rounds _ hbatch _ hclean hquiet _ ih =>
    have hcount : scanned + scannedCount ((round :: rounds).flatMap Round.results) =
        scanned + scannedCount round.results + scannedCount (rounds.flatMap Round.results) := by
      rw [List.flatMap_cons, scannedCount, List.countP_append, ← Nat.add_assoc]
      rfl
    rw [hcount]
    obtain ⟨hresult, hall, hparts⟩ | ⟨earlier, last, e, rfl, hearlier, hresult, hlast⟩ := ih
    · -- The request to stop does not stand after the save, so it did not stand before.
      have hbefore : interrupt.raised later = false :=
        Bool.eq_false_iff.2 fun h => Bool.eq_false_iff.1 hquiet (interrupt.stays .save later h)
      refine .inl ⟨hresult, List.forall_mem_cons.2 ⟨hclean, hall⟩, ?_⟩
      rw [List.map_cons, hparts, Round.commits, hbatch.whole hbefore]
    · exact .inr ⟨round :: earlier, last, e, rfl, List.forall_mem_cons.2 ⟨hclean, hearlier⟩,
        hresult, hlast⟩

theorem of_ok {counts : FillCounts} (hresult : filled.result = .ok counts) :
    counts = ⟨scanned + scannedCount (rounds.flatMap Round.results), reused⟩ ∧
      (∀ round ∈ rounds, round.IsClean) ∧ rounds.map Round.commits = parts := by
  obtain ⟨hok, hall⟩ | ⟨_, _, _, _, _, herror, _⟩ := h.ending
  · exact ⟨Except.ok.inj (hresult.symm.trans hok), hall⟩
  · rw [hresult] at herror
    cases herror

/-- If nothing has failed, what was scanned is taken up. -/
theorem takesUp (nodup : parts.flatten.Nodup)
    (hok : ∀ c result, (c, result) ∈ rounds.flatMap Round.results → ∃ r, result = .ok r) :
    TakesUp store markers ((rounds.flatMap Round.results).map Prod.fst) index filled.index := by
  rw [h.index_eq]
  exact takesUp_addResults (h.sublist.nodup nodup) hok fun c r hmem => h.scans.scansTo hmem

end FillsIn

end Filling

end ReleaseRecovery
