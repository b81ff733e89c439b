import ReleaseRecovery.Proofs.Completion
import ReleaseRecovery.Proofs.Rounds
import ReleaseRecovery.Repository.Memory

/-!
# Filling that is cut short

Filling can be cut short by a commit that cannot be scanned, by a save that cannot be made, and by
a request to stop, in any round and by several of them at once. Wherever it ends, nothing that was
scanned is lost, nothing else is in the index, and what is reported is accounted for.

## Main Definitions

* `Accounts` — the accounts of a filling that went in some rounds

## Main Statements

* `pairwise_extends_notesOf` — each save has all that was saved before
* `FillsIn.failing` — which failure of a scan is reported
* `FillsIn.stopped_cases` — why filling ends with a failure
* `fill_accounts` — every filling can give accounts
-/

namespace ReleaseRecovery

variable {ρ σ : Type} [Repository ρ]

/-! ### Growing saves -/

section Saves

variable {store : ρ} {markers : Markers} {index built built' : ContentIndex}
  {results : List (CommitId × Except Failure InstallRecord)}

theorem Extends.trans (h : Extends store markers index built)
    (h' : Extends store markers built built') : Extends store markers index built' := by
  refine ⟨h'.histories_eq.trans h.histories_eq, fun c r hr => h'.kept c r (h.kept c r hr),
    fun c r hr => ?_⟩
  obtain hr | ⟨hc, hscans⟩ := h'.added c r hr
  · exact h.added c r hr
  · -- A commit that has no record later has none before.
    obtain ⟨hmentioned, hnone⟩ := ContentIndex.mem_unscanned_iff.1 hc
    refine .inr ⟨ContentIndex.mem_unscanned_iff.2 ⟨?_, ?_⟩, hscans⟩
    · rwa [ContentIndex.mentioned_eq h.histories_eq] at hmentioned
    · rw [Option.eq_none_iff_forall_ne_some]
      intro r' hr'
      rw [h.kept c r' hr'] at hnone
      cases hnone

theorem extends_addResults (hnew : ∀ c ∈ results.map Prod.fst, c ∈ index.unscanned)
    (hscans : ∀ c r, (c, .ok r) ∈ results → ScansTo store markers c r) :
    Extends store markers index (index.addResults results) :=
  ContentIndex.addResults_invariant
    (fun c r hmem _ h => h.addRecord (hnew c (List.mem_map_of_mem hmem)) (hscans c r hmem))
    (.refl store markers index)

/-- Each save has all that was saved before, and the index that the rounds start from. -/
theorem pairwise_extends_notesOf {rounds : List Round}
    (nodup : ((rounds.flatMap Round.results).map Prod.fst).Nodup)
    (hnew : ∀ c ∈ (rounds.flatMap Round.results).map Prod.fst, c ∈ index.unscanned)
    (hscans : ∀ c r, (c, .ok r) ∈ rounds.flatMap Round.results → ScansTo store markers c r) :
    (index :: (notesOf index rounds).map SaveNote.index).Pairwise (Extends store markers) := by
  induction rounds generalizing index with
  | nil => exact List.pairwise_singleton _ _
  | cons round rounds ih =>
    rw [List.flatMap_cons] at hscans
    rw [List.flatMap_cons, List.map_append] at nodup hnew
    obtain ⟨-, nodup', hdisjoint⟩ := List.nodup_append.1 nodup
    have hextends : Extends store markers index (index.addResults round.results) :=
      extends_addResults (fun c hc => hnew c (List.mem_append_left _ hc))
        fun c r hmem => hscans c r (List.mem_append_left _ hmem)
    have hnew' : ∀ c ∈ (rounds.flatMap Round.results).map Prod.fst,
        c ∈ (index.addResults round.results).unscanned := by
      intro c hc
      obtain ⟨hmentioned, hnone⟩ :=
        ContentIndex.mem_unscanned_iff.1 (hnew c (List.mem_append_right _ hc))
      refine ContentIndex.mem_unscanned_iff.2 ⟨?_, ?_⟩
      · rwa [ContentIndex.mentioned_eq hextends.histories_eq]
      · rw [index.get?_addResults_of_notMem fun r hmem =>
          hdisjoint c (List.mem_map_of_mem hmem) c hc rfl, hnone]
    have hrest := ih nodup' hnew' fun c r hmem => hscans c r (List.mem_append_right _ hmem)
    rw [notesOf, List.map_cons, List.pairwise_cons]
    refine ⟨List.forall_mem_cons.2 ⟨hextends, fun built hbuilt => ?_⟩, hrest⟩
    exact hextends.trans (List.rel_of_pairwise_cons hrest hbuilt)

end Saves

/-! ### Why filling ends -/

/-- The first failure in ascending results is that of the smallest commit that failed. -/
theorem exists_smallest_of_firstFailure?
    {results : List (CommitId × Except Failure InstallRecord)} {e : Failure}
    (ascending : (results.map Prod.fst).Pairwise (· < ·)) (h : firstFailure? results = some e) :
    ∃ c, (c, .error e) ∈ results ∧ ∀ c' e', (c', .error e') ∈ results → ¬ c' < c := by
  obtain ⟨before, ⟨c, result⟩, after, rfl, hresult, hbefore⟩ := List.findSome?_eq_some_iff.1 h
  obtain rfl : result = .error e := by
    cases result with
    | ok r => cases hresult
    | error e' => rw [Option.some.inj hresult]
  refine ⟨c, by simp, fun c' e' hmem => ?_⟩
  rw [List.map_append, List.map_cons] at ascending
  obtain hmem | hmem := List.mem_append.1 hmem
  · cases hbefore _ hmem
  · obtain heq | hmem := List.mem_cons.1 hmem
    · obtain ⟨rfl, -⟩ := Prod.mk.inj heq
      exact String.lt_irrefl c'
    · have hlt : c < c' := (List.pairwise_cons.1 (List.pairwise_append.1 ascending).2.1).1 c'
        (List.mem_map_of_mem hmem)
      exact String.lt_asymm hlt

section Ending

variable {store : ρ} {markers : Markers} {interrupt : Interrupt}
  {save : ContentIndex → σ → Except Failure Unit × σ} {pending reused scanned : Nat}
  {parts : List (List CommitId)} {index : ContentIndex} {saves : σ} {done : List Action}
  {rounds : List Round} {filled : Filled σ}

namespace FillsIn

variable (h : FillsIn store markers interrupt save pending reused parts scanned index saves done
  rounds filled)
include h

/-- If every save could be made and a commit could not be scanned, the round of that commit is the
last one, and of those that failed in it the smallest commit is reported. -/
theorem failing (ascending : parts.flatten.Pairwise (· < ·))
    (saved : ∀ round ∈ rounds, round.saved = .ok ())
    (hfailed : ∃ c e, (c, .error e) ∈ rounds.flatMap Round.results) :
    ∃ earlier last c e, rounds = earlier ++ [last] ∧ (∀ round ∈ earlier, round.IsClean) ∧
      (c, .error e) ∈ last.results ∧
      (∀ c' e', (c', .error e') ∈ last.results → ¬ c' < c) ∧ filled.result = .error e := by
  have hdirty : ¬ ∀ round ∈ rounds, round.IsClean := by
    intro hclean
    obtain ⟨c, e, hmem⟩ := hfailed
    obtain ⟨r, hr⟩ := forall_of_isClean hclean c (.error e) hmem
    cases hr
  obtain ⟨-, hclean, -⟩ | ⟨earlier, last, e, rfl, hearlier, hresult, hlast⟩ := h.ending
  · exact absurd hclean hdirty
  have hascending := ascending.sublist h.sublist
  rw [List.flatMap_append, List.map_append, List.flatMap_singleton] at hascending
  have hsaved := saved last (List.mem_append_right _ List.mem_cons_self)
  obtain hfailure | ⟨hclean, -⟩ := hlast
  · obtain hunsaved | ⟨-, hfailure⟩ := Round.failure?_eq_some_iff.1 hfailure
    · rw [hsaved] at hunsaved
      cases hunsaved
    · obtain ⟨c, hmem, hsmallest⟩ :=
        exists_smallest_of_firstFailure? (List.pairwise_append.1 hascending).2.1 hfailure
      exact ⟨earlier, last, c, e, rfl, hearlier, hmem, hsmallest, hresult⟩
  · exact absurd (List.forall_mem_append.2 ⟨hearlier, List.forall_mem_singleton.2 hclean⟩) hdirty

/-- Filling ends with the failure of a save or of a scan, or because it is asked to stop. -/
theorem stopped_cases {e : Failure} (hresult : filled.result = .error e) :
    (∃ round ∈ rounds, round.saved = .error e) ∨
    (∃ c, (c, .error e) ∈ rounds.flatMap Round.results) ∨
    interrupt.StopsAt filled.done ∧ (∀ round ∈ rounds, round.IsClean) ∧
      e = .interrupted .scan (scanned + scannedCount (rounds.flatMap Round.results))
        (pending - (scanned + scannedCount (rounds.flatMap Round.results))) := by
  obtain ⟨hok, -⟩ | ⟨earlier, last, e', rfl, hearlier, herror, hlast⟩ := h.ending
  · rw [hok] at hresult
    cases hresult
  obtain rfl := Except.error.inj (herror.symm.trans hresult)
  have hmem : last ∈ earlier ++ [last] := List.mem_append_right _ List.mem_cons_self
  obtain hfailure | ⟨hclean, hstops, he⟩ := hlast
  · obtain hunsaved | ⟨-, hfailure⟩ := Round.failure?_eq_some_iff.1 hfailure
    · exact .inl ⟨last, hmem, hunsaved⟩
    · obtain ⟨c, hc⟩ := exists_of_firstFailure? hfailure
      exact .inr (.inl ⟨c, List.mem_flatMap.2 ⟨last, hmem, hc⟩⟩)
  · exact .inr (.inr ⟨hstops,
      List.forall_mem_append.2 ⟨hearlier, List.forall_mem_singleton.2 hclean⟩, he⟩)

/-- A save that could not be made is the last one, and it is reported. -/
theorem unsaved {round : Round} {e : Failure} (hround : round ∈ rounds)
    (hsaved : round.saved = .error e) : filled.result = .error e := by
  have hdirty : ¬ round.IsClean := fun hclean => nomatch hsaved.symm.trans hclean.saved
  obtain ⟨-, hclean, -⟩ | ⟨earlier, last, e', rfl, hearlier, hresult, hlast⟩ := h.ending
  · exact absurd (hclean round hround) hdirty
  obtain hround | hround := List.mem_append.1 hround
  · exact absurd (hearlier round hround) hdirty
  · obtain rfl := List.mem_singleton.1 hround
    obtain hfailure | ⟨hclean, -⟩ := hlast
    · obtain hunsaved | ⟨hsaved', -⟩ := Round.failure?_eq_some_iff.1 hfailure
      · rw [hresult, Except.error.inj (hsaved.symm.trans hunsaved)]
      · rw [hsaved'] at hsaved
        cases hsaved
    · exact absurd hclean hdirty

end FillsIn

end Ending

/-! ### Accounts -/

/-- The accounts of a filling that goes in some rounds from an index on, and takes notes of its
saves. -/
structure Accounts (store : ρ) (markers : Markers) (checkpoint : Nat) (interrupt : Interrupt)
    (index : ContentIndex) (done : List Action) (rounds : List Round)
    (filled : Filled (σ × List SaveNote)) : Prop where
  /-- In each round commits of one batch are scanned, none of which had a record before. -/
  begun : List.Forall₂ (fun round batch => round.commits.Sublist batch) rounds
    ((batches checkpoint index.unscanned).take rounds.length)
  pending : ((rounds.flatMap Round.results).map Prod.fst).Sublist index.unscanned
  /-- The results are those of the scans that are begun, and no other scans are. -/
  scans : Scans store markers done filled.done (rounds.flatMap Round.results)
  /-- What has come to a record is in the index, and nothing else is new there. -/
  histories_eq : filled.index.histories = index.histories
  records : ∀ c r, filled.index.records.get? c = some r ↔
    index.records.get? c = some r ∨ (c, .ok r) ∈ rounds.flatMap Round.results
  /-- There is one save in each round. The last one is to save the index as it is at the end, and
  each has all that the ones before it have. -/
  saved : filled.saves.2.map SaveNote.saved = rounds.map Round.saved
  lastSaved : ∀ note, filled.saves.2.getLast? = some note → note.index = filled.index
  growing : (index :: filled.saves.2.map SaveNote.index).Pairwise (Extends store markers)
  /-- A save that cannot be made is reported. -/
  unsaved : ∀ note ∈ filled.saves.2, ∀ e, note.saved = .error e → filled.result = .error e
  /-- If a commit cannot be scanned, its round is the last one, and of those that cannot be scanned
  in this round the smallest one is reported. -/
  failing : (∀ note ∈ filled.saves.2, note.saved = .ok ()) →
    (∃ c e, (c, .error e) ∈ rounds.flatMap Round.results) →
    ∃ earlier last c e, rounds = earlier ++ [last] ∧ (∀ round ∈ earlier, round.IsClean) ∧
      (c, .error e) ∈ last.results ∧
      (∀ c' e', (c', .error e') ∈ last.results → ¬ c' < c) ∧ filled.result = .error e
  /-- A failure that neither a save nor a scan has come to is that the run was found to be asked to
  stop, and no scan has failed. It tells how many records are new, and how many are missing. -/
  stopped : ∀ e, filled.result = .error e →
    (∃ note ∈ filled.saves.2, note.saved = .error e) ∨
    (∃ c, (c, .error e) ∈ rounds.flatMap Round.results) ∨
    interrupt.StopsAt filled.done ∧
      (∀ c result, (c, result) ∈ rounds.flatMap Round.results → ∃ r, result = .ok r) ∧
      ∃ completed remaining, e = .interrupted .scan completed remaining ∧
        filled.index.records.size = index.records.size + completed ∧
        filled.index.unscanned.length = remaining
  /-- Otherwise no record is missing. -/
  finished : ∀ counts, filled.result = .ok counts → filled.index.unscanned = []

section Accounts

variable {store : ρ} {markers : Markers} {checkpoint : Nat} {interrupt : Interrupt}
  {save : ContentIndex → σ → Except Failure Unit × σ} {pending reused scanned : Nat}
  {index : ContentIndex} {saves : σ} {done : List Action} {rounds : List Round}

namespace FillsIn

/-- What is scanned had no record before. -/
theorem sublist_unscanned {filled : Filled σ}
    (h : FillsIn store markers interrupt save pending reused (batches checkpoint index.unscanned)
      scanned index saves done rounds filled) :
    ((rounds.flatMap Round.results).map Prod.fst).Sublist index.unscanned := by
  have hsublist := h.sublist
  rwa [flatten_batches] at hsublist

/-- If nothing has failed, there is a new record for each commit that was scanned, and one commit
less to be scanned. -/
theorem sizes {filled : Filled σ}
    (h : FillsIn store markers interrupt save pending reused (batches checkpoint index.unscanned)
      scanned index saves done rounds filled)
    (hok : ∀ c result, (c, result) ∈ rounds.flatMap Round.results → ∃ r, result = .ok r) :
    filled.index.records.size =
        index.records.size + scannedCount (rounds.flatMap Round.results) ∧
      index.unscanned.length =
        scannedCount (rounds.flatMap Round.results) + filled.index.unscanned.length := by
  have hnew : ∀ c ∈ (rounds.flatMap Round.results).map Prod.fst, c ∈ index.unscanned :=
    fun c hc => h.sublist_unscanned.subset hc
  have nodup := h.sublist_unscanned.nodup index.nodup_unscanned
  have htakesUp := h.takesUp (flatten_batches checkpoint _ ▸ index.nodup_unscanned) hok
  rw [scannedCount_of_ok hok]
  constructor
  · have hkeys := (htakesUp.keys_perm nodup hnew).length_eq
    rwa [List.length_append, SortedMap.length_keys, SortedMap.length_keys] at hkeys
  · have hrest := (htakesUp.unscanned_perm nodup hnew).length_eq
    rwa [List.length_append] at hrest

/-- Every filling that goes in rounds can give accounts. -/
theorem accounts {filled : Filled (σ × List SaveNote)}
    (h : FillsIn store markers interrupt (noting save) index.unscanned.length reused
      (batches checkpoint index.unscanned) 0 index (saves, []) done rounds filled) :
    Accounts store markers checkpoint interrupt index done rounds filled := by
  have nodup := h.sublist_unscanned.nodup index.nodup_unscanned
  have hnew : ∀ c ∈ (rounds.flatMap Round.results).map Prod.fst, c ∈ index.unscanned :=
    fun c hc => h.sublist_unscanned.subset hc
  have hnotes : filled.saves.2 = notesOf index rounds := h.notes_eq
  have hsaved (saved : Except Failure Unit) :
      (∃ note ∈ filled.saves.2, note.saved = saved) ↔ ∃ round ∈ rounds, round.saved = saved := by
    rw [← List.mem_map, ← List.mem_map, hnotes, map_saved_notesOf]
  refine ⟨h.begun, h.sublist_unscanned, h.scans, ?_, fun c r => ?_, ?_, ?_, ?_, ?_, ?_, ?_, ?_⟩
  · rw [h.index_eq, ContentIndex.histories_addResults]
  · rw [h.index_eq]
    exact index.get?_addResults_eq_some_iff nodup fun c hc =>
      (ContentIndex.mem_unscanned_iff.1 (hnew c hc)).2
  · rw [hnotes, map_saved_notesOf]
  · intro note hlast
    rw [hnotes] at hlast
    rw [h.index_eq, index_of_getLast?_notesOf hlast]
  · rw [hnotes]
    exact pairwise_extends_notesOf nodup hnew fun c r hmem => h.scans.scansTo hmem
  · intro note hnote e he
    obtain ⟨round, hround, hunsaved⟩ := (hsaved _).1 ⟨note, hnote, he⟩
    exact h.unsaved hround hunsaved
  · intro hall hfailed
    have hascending := index.ascending_unscanned
    rw [← flatten_batches checkpoint index.unscanned] at hascending
    refine h.failing hascending (fun round hround => ?_) hfailed
    obtain ⟨note, hnote, hsame⟩ := (hsaved _).2 ⟨round, hround, rfl⟩
    rw [← hsame, hall note hnote]
  · intro e hresult
    obtain hunsaved | hfailed | ⟨hstops, hclean, rfl⟩ := h.stopped_cases hresult
    · exact .inl ((hsaved _).2 hunsaved)
    · exact .inr (.inl hfailed)
    · have hok := forall_of_isClean hclean
      obtain ⟨hrecords, hmissing⟩ := h.sizes hok
      rw [Nat.zero_add]
      exact .inr (.inr ⟨hstops, hok, _, _, rfl, hrecords, by omega⟩)
  · intro counts hresult
    obtain ⟨-, hclean, hparts⟩ := h.of_ok hresult
    have hok := forall_of_isClean hclean
    obtain ⟨-, hmissing⟩ := h.sizes hok
    rw [scannedCount_of_ok hok, map_fst_flatMap_results, hparts, flatten_batches] at hmissing
    exact List.eq_nil_of_length_eq_zero (by omega)

end FillsIn

/-- Every filling can give accounts, whatever it comes to, and taking notes changes nothing. -/
theorem fill_accounts (store : ρ) (markers : Markers) (checkpoint : Nat) (interrupt : Interrupt)
    (save : ContentIndex → σ → Except Failure Unit × σ) (index : ContentIndex) (saves : σ)
    (done : List Action) (schedule : Schedule) :
    let filled := fill store markers checkpoint interrupt (noting save) index (saves, []) done
      schedule
    filled.unnoted = fill store markers checkpoint interrupt save index saves done schedule ∧
      ∃ rounds, Accounts store markers checkpoint interrupt index done rounds filled := by
  intro filled
  obtain ⟨rounds, h⟩ := exists_fillsIn_fill store markers checkpoint interrupt (noting save) index
    (saves, []) done schedule
  exact ⟨unnoted_fill checkpoint [], rounds, h.accounts⟩

end Accounts

/-- A store with three commits, the contents of the first of which are missing. -/
def lostContents : Memory where
  logs := .empty
  commits := .ofList [("A1", "T0"), ("A2", "T1"), ("A3", "T1")]
  trees := .ofList [("T1", [⟨.tree, "vice", "V1"⟩])]
  written := []
  refs := .empty

/-- What was scanned beside a failure is saved, and the failure is reported although the run is
asked to stop as well. -/
example :
    let index : ContentIndex := ⟨.ofList [("trunk", ["A3", "A2", "A1"])], .empty⟩
    let filled := fill lostContents ⟨"vice", "README"⟩ 2 (.after (.commit "A2"))
      (noting fun _ saves => (.ok (), saves)) index ((), []) []
    filled.result = .error (.objectNotFound "T0") ∧
      filled.saves.2.map (fun note => note.index.records.keys) = [["A2"]] ∧
      filled.index.unscanned = ["A1", "A3"] := by
  decide +kernel

end ReleaseRecovery
