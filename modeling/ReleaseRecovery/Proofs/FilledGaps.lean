import Mathlib.Data.Finset.Card
import Mathlib.Data.List.Dedup
import ReleaseRecovery.Proofs.Rounds
import ReleaseRecovery.Repository.Memory

/-!
# Filling that gets through

If no scan and no save fails and nobody asks it to stop, filling scans every commit that is
mentioned and has no record, and no other one. Each round takes up the next commits, in ascending
order, as many as the checkpoint tells. How many that are does not matter for the index.

## Main Definitions

* `Unhindered` — nothing goes wrong while an index is filled
* `FillsGaps` — filling adds what is missing, and nothing else

## Main Statements

* `length_batches`, `flatten_take_batches` — the parts that a list is cut into
* `ContentIndex.length_unscanned_add` — each commit that is mentioned has a record or is to be
  scanned
* `fill_fillsGaps` — filling that nothing keeps from it adds what is missing
-/

namespace ReleaseRecovery

variable {ρ σ : Type} [Repository ρ]

/-! ### Parts of a list -/

/-- There are as many parts as are needed. -/
theorem length_batches {α : Type} {size : Nat} (hs : 0 < size) (l : List α) :
    (batches size l).length = (l.length + size - 1) / size := by
  fun_induction batches size l with
  | case1 =>
    rw [List.length_nil, List.length_nil, Nat.zero_add, Nat.div_eq_of_lt (by omega)]
  | case2 a rest ih =>
    rw [List.length_cons, ih, List.length_drop, List.length_cons]
    obtain hlt | hle := Nat.lt_or_ge rest.length (size - 1)
    · -- The last part is shorter.
      have hfirst : (rest.length - (size - 1) + size - 1) / size = 0 :=
        Nat.div_eq_of_lt (by omega)
      have hall : rest.length + 1 + size - 1 = rest.length + size := by omega
      rw [hfirst, hall, Nat.add_div_right _ hs, Nat.div_eq_of_lt (by omega)]
    · have hrest : rest.length - (size - 1) + size - 1 = rest.length := by omega
      have hall : rest.length + 1 + size - 1 = rest.length + size := by omega
      rw [hrest, hall, Nat.add_div_right _ hs]

/-- The first parts make up the beginning of the list. -/
theorem flatten_take_batches {α : Type} {size : Nat} (hs : 0 < size) (l : List α) (count : Nat) :
    ((batches size l).take count).flatten = l.take (count * size) := by
  fun_induction batches size l generalizing count with
  | case1 => rw [List.take_nil, List.take_nil, List.flatten_nil]
  | case2 a rest ih =>
    cases count with
    | zero => rw [Nat.zero_mul, List.take_zero, List.take_zero, List.flatten_nil]
    | succ count =>
      have hcount : (count + 1) * size = size - 1 + count * size + 1 := by
        rw [Nat.succ_mul]
        omega
      rw [List.take_succ_cons, List.flatten_cons, ih, hcount, List.take_succ_cons, List.take_add,
        List.cons_append]

/-! ### Commits that are mentioned -/

namespace ContentIndex

theorem uniqueCommits_eq (index : ContentIndex) :
    index.uniqueCommits = index.mentioned.toFinset.card := by
  have hset : index.mentioned.toFinset = (ascendingDistinct index.mentioned).toFinset := by
    ext c
    rw [List.mem_toFinset, List.mem_toFinset, mem_ascendingDistinct_iff]
  have nodup : (ascendingDistinct index.mentioned).Nodup := SortedMap.nodup_keys _
  rw [hset, List.toFinset_card_of_nodup nodup, uniqueCommits]

/-- Each commit that is mentioned has a record or is to be scanned. -/
theorem length_unscanned_add (index : ContentIndex) :
    index.unscanned.length +
        (index.mentioned.toFinset.filter fun c => index.records.contains c = true).card =
      index.uniqueCommits := by
  have hset : (index.mentioned.toFinset.filter fun c => ¬ index.records.contains c = true) =
      index.unscanned.toFinset := by
    ext c
    rw [Finset.mem_filter, List.mem_toFinset, List.mem_toFinset, mem_unscanned_iff,
      SortedMap.contains, Option.not_isSome_iff_eq_none]
  rw [uniqueCommits_eq, Nat.add_comm, ← List.toFinset_card_of_nodup index.nodup_unscanned, ← hset,
    Finset.card_filter_add_card_filter_not]

end ContentIndex

/-! ### Filling -/

/-- Nothing goes wrong while an index is filled: no look at the request to stop finds that it
stands, every scan that is begun comes to a record, and every save can be made. -/
structure Unhindered (store : ρ) (markers : Markers) (checkpoint : Nat) (interrupt : Interrupt)
    (done : List Action) (filled : Filled (σ × List SaveNote)) : Prop where
  positive : 0 < checkpoint
  unraised : ∀ moment, .poll :: moment <:+ filled.done → interrupt.raised moment = false
  scans : ∀ c moment, done <:+ moment → .commit c :: moment <:+ filled.done →
    ∃ r, ((scan store markers c).after moment).1 = .ok r
  saves : ∀ note ∈ filled.saves.2, note.saved = .ok ()

/-- Filling an index from a moment on adds what is missing, and nothing else. -/
structure FillsGaps (store : ρ) (markers : Markers) (checkpoint : Nat) (index : ContentIndex)
    (done : List Action) (filled : Filled (σ × List SaveNote)) : Prop where
  /-- What is missing is each commit that a history mentions and that has no record, once. -/
  ascending : index.unscanned.Pairwise (· < ·)
  missing : ∀ c, c ∈ index.unscanned ↔ c ∈ index.mentioned ∧ index.records.get? c = none
  takesUp : TakesUp store markers index.unscanned index filled.index
  asked : ∃ asked, filled.done = asked ++ done ∧ ∀ c, .commit c ∈ asked ↔ c ∈ index.unscanned
  /-- It comes to the number of commits that were missing, and that of the others. -/
  result : filled.result = .ok ⟨index.unscanned.length,
    (index.mentioned.toFinset.filter fun c => index.records.contains c = true).card⟩
  total : index.unscanned.length +
    (index.mentioned.toFinset.filter fun c => index.records.contains c = true).card =
      index.uniqueCommits
  unique : index.uniqueCommits = index.mentioned.toFinset.card
  /-- There is a save for every so many commits, and one for the rest. -/
  length_saves : filled.saves.2.length = (index.unscanned.length + checkpoint - 1) / checkpoint
  saves : ∀ i note, filled.saves.2[i]? = some note →
    TakesUp store markers (index.unscanned.take ((i + 1) * checkpoint)) index note.index

section Filling

variable {store : ρ} {markers : Markers} {checkpoint : Nat} {interrupt : Interrupt}
  {save : ContentIndex → σ → Except Failure Unit × σ} {index : ContentIndex} {saves : σ}
  {done : List Action} {rounds : List Round} {filled : Filled (σ × List SaveNote)}

theorem Unhindered.ok (unhindered : Unhindered store markers checkpoint interrupt done filled)
    {results : List (CommitId × Except Failure InstallRecord)}
    (scans : Scans store markers done filled.done results) :
    ∀ c result, (c, result) ∈ results → ∃ r, result = .ok r := by
  intro c result hmem
  obtain ⟨moment, hdone, hmoment, rfl⟩ := scans.outcome c result hmem
  exact unhindered.scans c moment hdone hmoment

/-- Filling that nothing keeps from it goes on to its end. -/
theorem FillsIn.of_unhindered {pending reused scanned : Nat} {parts : List (List CommitId)}
    {notes : List SaveNote}
    (h : FillsIn store markers interrupt (noting save) pending reused parts scanned index
      (saves, notes) done rounds filled)
    (unhindered : Unhindered store markers checkpoint interrupt done filled) :
    ∃ counts, filled.result = .ok counts := by
  obtain ⟨hresult, -⟩ | ⟨earlier, last, e, rfl, -, -, hlast⟩ := h.ending
  · exact ⟨_, hresult⟩
  exfalso
  have hmem : last ∈ earlier ++ [last] := List.mem_append_right _ List.mem_cons_self
  obtain hfailure | ⟨-, ⟨moment, hdone, hraised⟩, -⟩ := hlast
  · obtain hunsaved | ⟨-, hfailure⟩ := Round.failure?_eq_some_iff.1 hfailure
    · obtain ⟨note, hnote, hsame⟩ := List.mem_map.1
        (map_saved_notesOf index (earlier ++ [last]) ▸ List.mem_map_of_mem hmem)
      have hsaved := unhindered.saves note (h.notes_eq ▸ List.mem_append_right _ hnote)
      rw [hsame, hunsaved] at hsaved
      cases hsaved
    · have hnone := firstFailure?_eq_none_iff.2 fun c result hc =>
        unhindered.ok h.scans c result (List.mem_flatMap.2 ⟨last, hmem, hc⟩)
      rw [hfailure] at hnone
      cases hnone
  · rw [unhindered.unraised moment (hdone ▸ List.suffix_rfl)] at hraised
    cases hraised

theorem FillsIn.fillsGaps
    (h : FillsIn store markers interrupt (noting save) index.unscanned.length
      (index.uniqueCommits - index.unscanned.length) (batches checkpoint index.unscanned) 0 index
      (saves, []) done rounds filled)
    (unhindered : Unhindered store markers checkpoint interrupt done filled) :
    FillsGaps store markers checkpoint index done filled := by
  obtain ⟨counts, hresult⟩ := h.of_unhindered unhindered
  obtain ⟨hcounts, -, hparts⟩ := h.of_ok hresult
  have hok := unhindered.ok h.scans
  have hnotes : filled.saves.2 = notesOf index rounds := h.notes_eq
  have hcommits (count : Nat) : ((rounds.take count).flatMap Round.results).map Prod.fst =
      index.unscanned.take (count * checkpoint) := by
    rw [map_fst_flatMap_results, List.map_take, hparts, flatten_take_batches unhindered.positive]
  have hall : (rounds.flatMap Round.results).map Prod.fst = index.unscanned := by
    rw [map_fst_flatMap_results, hparts, flatten_batches]
  have htakesUp := h.takesUp (flatten_batches checkpoint _ ▸ index.nodup_unscanned) hok
  have htotal := index.length_unscanned_add
  rw [hall] at htakesUp
  refine ⟨index.ascending_unscanned, fun c => ContentIndex.mem_unscanned_iff, htakesUp,
    hall ▸ h.scans.asked, ?_, htotal, index.uniqueCommits_eq, ?_, fun i note hnote => ?_⟩
  · rw [hresult, hcounts, scannedCount_of_ok hok, hall, Nat.zero_add, ← htotal,
      Nat.add_sub_cancel_left]
  · rw [hnotes, length_notesOf, ← length_batches unhindered.positive, ← hparts, List.length_map]
  · rw [hnotes, getElem?_notesOf] at hnote
    obtain ⟨round, -, rfl⟩ := Option.map_eq_some_iff.1 hnote
    have hsubset : (rounds.take (i + 1)).flatMap Round.results ⊆ rounds.flatMap Round.results := by
      intro result hmem
      obtain ⟨round, hround, hmem⟩ := List.mem_flatMap.1 hmem
      exact List.mem_flatMap.2 ⟨round, List.mem_of_mem_take hround, hmem⟩
    have nodup : (index.unscanned.take ((i + 1) * checkpoint)).Nodup :=
      index.nodup_unscanned.sublist (List.take_sublist _ _)
    rw [← hcommits] at nodup ⊢
    exact takesUp_addResults nodup (fun c result hmem => hok c result (hsubset hmem))
      fun c r hmem => h.scans.scansTo (hsubset hmem)

end Filling

/-- If nothing goes wrong, filling adds what is missing and nothing else, and the index that it
comes to is the same for every checkpoint. -/
theorem fill_fillsGaps (store : ρ) (markers : Markers) (checkpoint : Nat) (interrupt : Interrupt)
    (save : ContentIndex → σ → Except Failure Unit × σ) (index : ContentIndex) (saves : σ)
    (done : List Action) (schedule : Schedule) {filled : Filled (σ × List SaveNote)}
    (hfilled : fill store markers checkpoint interrupt (noting save) index (saves, []) done
      schedule = filled)
    (unhindered : Unhindered store markers checkpoint interrupt done filled) :
    filled.unnoted = fill store markers checkpoint interrupt save index saves done schedule ∧
      FillsGaps store markers checkpoint index done filled ∧
      ∀ (σ' : Type) (checkpoint' : Nat) (interrupt' : Interrupt)
        (save' : ContentIndex → σ' → Except Failure Unit × σ') (saves' : σ') (done' : List Action)
        (schedule' : Schedule),
        let filled' := fill store markers checkpoint' interrupt' (noting save') index (saves', [])
          done' schedule'
        Unhindered store markers checkpoint' interrupt' done' filled' →
          filled'.index = filled.index := by
  obtain ⟨rounds, h⟩ := exists_fillsIn_fill store markers checkpoint interrupt (noting save) index
    (saves, []) done schedule
  rw [hfilled] at h
  have hgaps := h.fillsGaps unhindered
  refine ⟨hfilled ▸ unnoted_fill checkpoint [], hgaps, ?_⟩
  intro σ' checkpoint' interrupt' save' saves' done' schedule' filled' unhindered'
  obtain ⟨rounds', h'⟩ := exists_fillsIn_fill store markers checkpoint' interrupt' (noting save')
    index (saves', []) done' schedule'
  exact (h'.fillsGaps unhindered').takesUp.unique hgaps.takesUp

/-- A store with four commits, two of which have the same contents. -/
def fourCommits : Memory where
  logs := .empty
  commits := .ofList [("A1", "T1"), ("A2", "T1"), ("A3", "T2"), ("A4", "T3")]
  trees := .ofList [("T1", [⟨.tree, "vice", "V1"⟩]), ("T2", [⟨.blob, "README", "b1"⟩]),
    ("T3", [])]
  written := []
  refs := .empty

/-- An index of two refs that share a commit. One commit has a record already, and so has another
one that no ref has any more. -/
def gapped : ContentIndex where
  histories := .ofList [("legacy", ["A3", "A1"]), ("trunk", ["A4", "A3", "A2"])]
  records := .ofList [("A2", .empty), ("B1", .empty)]

/-- Two rounds fill the gaps, although the commits of each are taken up in descending order. -/
theorem fill_fillsGaps_gapped :
    let markers : Markers := ⟨"vice", "README"⟩
    let filled := fill fourCommits markers 2 .never (noting fun _ saves => (.ok (), saves)) gapped
      ((), []) [] ⟨List.reverse, List.reverse_perm⟩
    Unhindered fourCommits markers 2 .never [] filled ∧
      filled.saves.2.map (fun note => note.index.records.keys) =
        [["A1", "A2", "A3", "B1"], ["A1", "A2", "A3", "A4", "B1"]] ∧
      FillsGaps fourCommits markers 2 gapped [] filled := by
  intro markers filled
  have hsaves : filled.saves.2.map SaveNote.saved = [.ok (), .ok ()] := by decide +kernel
  have hdone : filled.done = [.poll, .save, .entries "T3", .commit "A4", .poll, .poll, .save,
      .entries "T1", .commit "A1", .poll, .entries "T2", .commit "A3", .poll] := by decide +kernel
  have hscans (c : CommitId) (hc : .commit c ∈ filled.done) :
      ∃ r, scanned fourCommits markers c = .ok r := by
    obtain rfl | rfl | rfl : c = "A4" ∨ c = "A1" ∨ c = "A3" := by simpa [hdone] using hc
    · exact ⟨.empty, by decide +kernel⟩
    · exact ⟨⟨.ofList [("/", "T1")], .ofList [("/vice/", "V1")]⟩, by decide +kernel⟩
    · exact ⟨⟨.empty, .ofList [("/", "T2")]⟩, by decide +kernel⟩
  have unhindered : Unhindered fourCommits markers 2 .never [] filled := by
    refine ⟨by decide, fun _ _ => rfl, fun c moment _ hmoment => ?_, fun note hnote => ?_⟩
    · obtain ⟨r, hr⟩ := hscans c (hmoment.subset List.mem_cons_self)
      exact ⟨r, scan_follows (.refl fourCommits) (fun _ => rfl) markers c r [] moment hr⟩
    · have hsaved := hsaves ▸ List.mem_map_of_mem hnote
      simpa using hsaved
  exact ⟨unhindered, by decide +kernel,
    (fill_fillsGaps fourCommits markers 2 .never _ gapped () [] _ rfl unhindered).2.1⟩

end ReleaseRecovery
