import ReleaseRecovery.Index.Filling
import ReleaseRecovery.Proofs.Readings

/-!
# Filling an index

Filling adds nothing to an index but what scanning comes to, and saves it after every batch. If it
comes to its end, every commit that was left has a record.

## Main Definitions

* `ScansTo` — a scan of a commit comes to a record
* `Sound` — every record of an index is what scanning its commit comes to

## Main Statements

* `fill_invariant` — what every record and every save preserves holds where filling ends
* `exists_record_fill` — every commit has a record if filling comes to its end
* `exists_fill_eq_ok` — filling comes to its end if nothing keeps it from it
-/

namespace ReleaseRecovery

variable {ρ σ : Type} [Repository ρ]

/-! ### Records -/

theorem SortedMap.mem_keys_ofList_iff {α : Type} {l : List (String × α)} {key : String} :
    key ∈ (ofList l).keys ↔ key ∈ l.map Prod.fst := by
  rw [mem_keys_iff, ← Option.isSome_iff_exists, get?_ofList, List.lookup_isSome_iff, List.mem_map]
  refine exists_congr fun e => ?_
  rw [List.mem_reverse, beq_iff_eq, eq_comm]

theorem mem_ascendingDistinct_iff {l : List String} {s : String} :
    s ∈ ascendingDistinct l ↔ s ∈ l := by
  rw [ascendingDistinct, SortedMap.mem_keys_ofList_iff, List.map_map]
  show s ∈ l.map id ↔ s ∈ l
  rw [List.map_id]

/-- Every record of an index is what scanning its commit comes to. -/
def Sound (store : ρ) (markers : Markers) (index : ContentIndex) : Prop :=
  ∀ c r, index.records.get? c = some r → scanned store markers c = .ok r

namespace ContentIndex

variable {index : ContentIndex}

theorem mem_unscanned_iff {c : CommitId} :
    c ∈ index.unscanned ↔ c ∈ index.mentioned ∧ index.records.get? c = none := by
  rw [unscanned, mem_ascendingDistinct_iff, List.mem_filter, SortedMap.contains,
    Bool.not_eq_true', Option.isSome_eq_false_iff, Option.isNone_iff_eq_none]

@[simp] theorem get?_records_addRecord (index : ContentIndex) (c : CommitId) (r : InstallRecord)
    (d : CommitId) : (index.addRecord c r).records.get? d =
      if d = c then some r else index.records.get? d :=
  SortedMap.get?_insert _ _ _ _

/-- Adding a record takes no record away. -/
theorem exists_record_addRecord {c d : CommitId} {r : InstallRecord}
    (h : ∃ r, index.records.get? d = some r) :
    ∃ r', (index.addRecord c r).records.get? d = some r' := by
  rw [get?_records_addRecord]
  split
  · exact ⟨r, rfl⟩
  · exact h

/-- What every record of a batch preserves holds after the batch. -/
theorem addResults_invariant {P : ContentIndex → Prop}
    {results : List (CommitId × Except Failure InstallRecord)}
    (hadd : ∀ c r, (c, .ok r) ∈ results → ∀ index, P index → P (index.addRecord c r))
    (h : P index) : P (index.addResults results) := by
  induction results generalizing index with
  | nil => exact h
  | cons result results ih =>
    obtain ⟨c, result⟩ := result
    have hrest := fun c r hc => hadd c r (List.mem_cons_of_mem _ hc)
    cases result with
    | error e => exact ih hrest h
    | ok r => exact ih hrest (hadd c r List.mem_cons_self index h)

theorem exists_record_addResults {results : List (CommitId × Except Failure InstallRecord)}
    {c : CommitId} {r : InstallRecord} (h : (c, .ok r) ∈ results) :
    ∃ r', (index.addResults results).records.get? c = some r' := by
  obtain ⟨before, after, rfl⟩ := List.append_of_mem h
  rw [addResults, List.foldl_append, List.foldl_cons]
  refine addResults_invariant (P := fun index => ∃ r', index.records.get? c = some r')
    (fun _ _ _ _ => exists_record_addRecord) ⟨r, ?_⟩
  rw [get?_records_addRecord, if_pos rfl]

end ContentIndex

theorem Sound.addRecord {store : ρ} {markers : Markers} {index : ContentIndex}
    (sound : Sound store markers index) {c : CommitId} {r : InstallRecord}
    (hr : scanned store markers c = .ok r) : Sound store markers (index.addRecord c r) := by
  intro d r' hd
  rw [ContentIndex.get?_records_addRecord] at hd
  split at hd
  · rename_i hdc
    rw [hdc, hr, Option.some.inj hd]
  · exact sound d r' hd

/-- A scan of a commit comes to a record, at one moment or another. -/
def ScansTo (seen : ρ) (markers : Markers) (c : CommitId) (r : InstallRecord) : Prop :=
  ∃ done, ((scan seen markers c).after done).1 = .ok r

/-- A record that a run comes to is the right one. -/
theorem Sees.scanned_of_scansTo {seen store : ρ} (sees : Sees seen store) {markers : Markers}
    {c : CommitId} {r : InstallRecord} (h : ScansTo seen markers c r) :
    scanned store markers c = .ok r := by
  obtain ⟨done, hr⟩ := h
  exact sees.scanned_eq_ok hr

theorem Sound.grow {old new : ρ} {markers : Markers} {index : ContentIndex}
    (sound : Sound old markers index) (h : Grows old new) (reachable : Reachable new) :
    Sound new markers index :=
  fun c r hr => h.scanned_eq_ok reachable (sound c r hr)

/-! ### One batch -/

section Batch

variable {seen store : ρ} {markers : Markers} {interrupt : Interrupt}
  {schedule : Schedule}

theorem firstFailure?_eq_none_iff {results : List (CommitId × Except Failure InstallRecord)} :
    firstFailure? results = none ↔ ∀ c result, (c, result) ∈ results → ∃ r, result = .ok r := by
  rw [firstFailure?, List.findSome?_eq_none_iff]
  constructor
  · intro h c result hc
    have := h _ hc
    cases result with
    | ok r => exact ⟨r, rfl⟩
    | error e => cases this
  · rintro h ⟨c, result⟩ hc
    obtain ⟨r, rfl⟩ := h c result hc
    rfl

theorem scanEach_cons (c : CommitId) (rest : List CommitId) {done : List Action}
    (h : interrupt.raised done = false) :
    let next := (scan seen markers c).after (.poll :: done)
    scanEach seen markers interrupt (c :: rest) done =
      ((c, next.1) :: (scanEach seen markers interrupt rest next.2).1,
        (scanEach seen markers interrupt rest next.2).2) := by
  dsimp only
  rw [scanEach, h]
  rfl

theorem scanEach_of_raised (c : CommitId) (rest : List CommitId) {done : List Action}
    (h : interrupt.raised done = true) :
    scanEach seen markers interrupt (c :: rest) done = ([], .poll :: done) := by
  rw [scanEach, if_pos h]

/-- What it comes to for a commit is what scanning that commit comes to at some moment. -/
theorem mem_scanEach {batch : List CommitId} {done : List Action} {c : CommitId}
    {result : Except Failure InstallRecord}
    (h : (c, result) ∈ (scanEach seen markers interrupt batch done).1) :
    c ∈ batch ∧ ∃ done', result = ((scan seen markers c).after done').1 := by
  induction batch generalizing done with
  | nil => cases h
  | cons d rest ih =>
    cases hraised : interrupt.raised done with
    | true =>
      rw [scanEach_of_raised d rest hraised] at h
      cases h
    | false =>
      rw [scanEach_cons d rest hraised, List.mem_cons] at h
      rcases h with h | h
      · obtain ⟨rfl, hr⟩ := Prod.mk.inj h
        exact ⟨List.mem_cons_self, .poll :: done, hr⟩
      · obtain ⟨hc, hr⟩ := ih h
        exact ⟨List.mem_cons_of_mem d hc, hr⟩

/-- Without a request to stop every commit is scanned. -/
theorem exists_mem_scanEach {batch : List CommitId} {done : List Action}
    (h : interrupt.raised (scanEach seen markers interrupt batch done).2 = false) {c : CommitId}
    (hc : c ∈ batch) : ∃ result, (c, result) ∈ (scanEach seen markers interrupt batch done).1 := by
  induction batch generalizing done with
  | nil => cases hc
  | cons d rest ih =>
    cases hraised : interrupt.raised done with
    | true =>
      rw [scanEach_of_raised d rest hraised, interrupt.stays .poll done hraised] at h
      cases h
    | false =>
      rw [scanEach_cons d rest hraised] at h ⊢
      rcases List.mem_cons.1 hc with rfl | hc
      · exact ⟨_, List.mem_cons_self⟩
      · obtain ⟨result, hresult⟩ := ih h hc
        exact ⟨result, List.mem_cons_of_mem _ hresult⟩

theorem mem_scanBatch_iff {batch : List CommitId} {done : List Action} {c : CommitId}
    {result : Except Failure InstallRecord} :
    (c, result) ∈ (scanBatch seen markers interrupt schedule batch done).1 ↔
      c ∈ batch ∧ (scanEach seen markers interrupt (schedule.order batch) done).1.find?
        (fun r => r.1 == c) = some (c, result) := by
  rw [scanBatch, List.mem_filterMap]
  constructor
  · rintro ⟨d, hd, hfind⟩
    obtain rfl : c = d := by simpa using List.find?_some hfind
    exact ⟨hd, hfind⟩
  · rintro ⟨hc, hfind⟩
    exact ⟨c, hc, hfind⟩

/-- What a batch comes to for a commit is what scanning that commit comes to at some moment. -/
theorem mem_scanBatch {batch : List CommitId} {done : List Action} {c : CommitId}
    {result : Except Failure InstallRecord}
    (h : (c, result) ∈ (scanBatch seen markers interrupt schedule batch done).1) :
    c ∈ batch ∧ ∃ done', result = ((scan seen markers c).after done').1 := by
  obtain ⟨hc, hfind⟩ := mem_scanBatch_iff.1 h
  exact ⟨hc, (mem_scanEach (List.mem_of_find?_eq_some hfind)).2⟩

/-- A record that a batch comes to is that of a commit of the batch. -/
theorem scansTo_of_mem_scanBatch {batch : List CommitId} {done : List Action} {c : CommitId}
    {r : InstallRecord}
    (h : (c, .ok r) ∈ (scanBatch seen markers interrupt schedule batch done).1) :
    c ∈ batch ∧ ScansTo seen markers c r := by
  obtain ⟨hc, done', hr⟩ := mem_scanBatch h
  exact ⟨hc, done', hr.symm⟩

/-- Without a request to stop every commit of a batch is scanned, in whatever order. -/
theorem exists_mem_scanBatch {batch : List CommitId} {done : List Action}
    (h : interrupt.raised (scanBatch seen markers interrupt schedule batch done).2 = false)
    {c : CommitId} (hc : c ∈ batch) :
    ∃ result, (c, result) ∈ (scanBatch seen markers interrupt schedule batch done).1 := by
  obtain ⟨result, hresult⟩ := exists_mem_scanEach h ((schedule.perm batch).mem_iff.2 hc)
  have hfound : ((scanEach seen markers interrupt (schedule.order batch) done).1.find?
      fun r => r.1 == c).isSome := List.find?_isSome.2 ⟨(c, result), hresult, beq_self_eq_true c⟩
  obtain ⟨⟨d, result'⟩, hfind⟩ := Option.isSome_iff_exists.1 hfound
  obtain rfl : d = c := by simpa using List.find?_some hfind
  exact ⟨result', mem_scanBatch_iff.2 ⟨hc, hfind⟩⟩

end Batch

/-! ### All batches -/

section Batches

variable {seen store : ρ} {markers : Markers} {interrupt : Interrupt} {schedule : Schedule}
  {save : ContentIndex → σ → Except Failure Unit × σ} {pending reused : Nat}

/-- What every record and every save preserves holds where filling ends, however it ends. -/
theorem fillBatches_invariant {P : ContentIndex → Prop} {Q : σ → Prop}
    {parts : List (List CommitId)}
    (hadd : ∀ c ∈ parts.flatten, ∀ r, ScansTo seen markers c r →
      ∀ index, P index → P (index.addRecord c r))
    (hsave : ∀ index saves, P index → Q saves → Q (save index saves).2)
    {scans : Nat} {index : ContentIndex} {saves : σ} {done : List Action} (hP : P index)
    (hQ : Q saves) :
    let filled := fillBatches seen markers interrupt schedule save pending reused parts scans index
      saves done
    P filled.index ∧ Q filled.saves := by
  induction parts generalizing scans index saves done with
  | nil => exact ⟨hP, hQ⟩
  | cons batch parts ih =>
    dsimp only
    rw [fillBatches]
    dsimp only
    have hadd' : ∀ c ∈ parts.flatten, ∀ r, ScansTo seen markers c r →
        ∀ index, P index → P (index.addRecord c r) := fun c hc =>
      hadd c (List.mem_append_right batch hc)
    have hP' : P (index.addResults (scanBatch seen markers interrupt schedule batch done).1) :=
      ContentIndex.addResults_invariant (fun c r hresult index hindex => by
        obtain ⟨hc, hr⟩ := scansTo_of_mem_scanBatch hresult
        exact hadd c (List.mem_append_left parts.flatten hc) r hr index hindex) hP
    have hQ' := hsave _ saves hP' hQ
    split
    · exact ⟨hP', hQ'⟩
    split
    · exact ⟨hP', hQ'⟩
    split
    · exact ⟨hP', hQ'⟩
    · exact ih hadd' hP' hQ'

/-- Filling takes no record away. -/
theorem exists_record_fillBatches_of_record {parts : List (List CommitId)} {scans : Nat}
    {index : ContentIndex} {saves : σ} {done : List Action} {c : CommitId}
    (h : ∃ r, index.records.get? c = some r) :
    ∃ r, (fillBatches seen markers interrupt schedule save pending reused parts scans index saves
      done).index.records.get? c = some r :=
  (fillBatches_invariant (P := fun index => ∃ r, index.records.get? c = some r)
    (Q := fun _ => True) (fun _ _ _ _ _ => ContentIndex.exists_record_addRecord)
    (fun _ _ _ _ => trivial) h trivial).1

/-- If filling comes to its end, every commit that was to be scanned has a record. -/
theorem exists_record_fillBatches {parts : List (List CommitId)} {scans : Nat}
    {index : ContentIndex} {saves : σ} {done : List Action} {counts : FillCounts}
    (h : (fillBatches seen markers interrupt schedule save pending reused parts scans index saves
      done).result = .ok counts) {c : CommitId} (hc : c ∈ parts.flatten) :
    ∃ r, (fillBatches seen markers interrupt schedule save pending reused parts scans index saves
      done).index.records.get? c = some r := by
  induction parts generalizing scans index saves done with
  | nil => cases hc
  | cons batch parts ih =>
    rw [fillBatches] at h ⊢
    dsimp only at h ⊢
    split at h
    · cases h
    rename_i hsaved
    split at h
    · cases h
    rename_i hfailure
    split at h
    · cases h
    rename_i hraised
    rw [if_neg hraised]
    rcases List.mem_append.1 (List.flatten_cons ▸ hc) with hc | hc
    · -- The request to stop does not stand after the save, so it did not stand before.
      have hquiet :
          interrupt.raised (scanBatch seen markers interrupt schedule batch done).2 = false := by
        rw [Bool.eq_false_iff]
        exact fun h => hraised (interrupt.stays .save _ h)
      obtain ⟨result, hresult⟩ := exists_mem_scanBatch hquiet hc
      obtain ⟨r, rfl⟩ := firstFailure?_eq_none_iff.1 hfailure c result hresult
      exact exists_record_fillBatches_of_record (ContentIndex.exists_record_addResults hresult)
    · exact ih h hc

/-- Filling comes to its end if every commit can be scanned, every save can be made, and nobody asks
it to stop. -/
theorem exists_fillBatches_eq_ok (reachable : Reachable store) {Q : σ → Prop}
    (hsave : ∀ index saves, Q saves → (save index saves).1 = .ok () ∧ Q (save index saves).2)
    {parts : List (List CommitId)}
    (hscan : ∀ c ∈ parts.flatten, ∃ r, scanned store markers c = .ok r) {scans : Nat}
    {index : ContentIndex} {saves : σ} {done : List Action} (hQ : Q saves) :
    ∃ counts, (fillBatches store markers .never schedule save pending reused parts scans index saves
      done).result = .ok counts := by
  induction parts generalizing scans index saves done with
  | nil => exact ⟨_, rfl⟩
  | cons batch parts ih =>
    -- A commit that can be scanned can be scanned at whatever moment its turn comes.
    have hbatch : firstFailure? (scanBatch store markers .never schedule batch done).1 = none := by
      refine firstFailure?_eq_none_iff.2 fun c result hc => ?_
      obtain ⟨hmem, done', rfl⟩ := mem_scanBatch hc
      obtain ⟨r, hr⟩ := hscan c (List.mem_append_left _ hmem)
      exact ⟨r, scan_follows (.refl store) reachable markers c r [] done' hr⟩
    obtain ⟨hsaved, hQ'⟩ :=
      hsave (index.addResults (scanBatch store markers .never schedule batch done).1) saves hQ
    rw [fillBatches]
    dsimp only
    rw [hsaved]
    dsimp only
    rw [hbatch]
    exact ih (fun c hc => hscan c (List.mem_append_right batch hc)) hQ'

/-! ### Filling -/

/-- What every record and every save preserves holds where filling ends, however it ends. -/
theorem fill_invariant {checkpoint : Nat} {index : ContentIndex} {P : ContentIndex → Prop}
    {Q : σ → Prop}
    (hadd : ∀ c ∈ index.unscanned, ∀ r, ScansTo seen markers c r →
      ∀ index, P index → P (index.addRecord c r))
    (hsave : ∀ index saves, P index → Q saves → Q (save index saves).2) {saves : σ}
    {done : List Action} (hP : P index) (hQ : Q saves) :
    let filled := fill seen markers checkpoint interrupt save index saves done schedule
    P filled.index ∧ Q filled.saves := by
  refine fillBatches_invariant (fun c hc => hadd c ?_) hsave hP hQ
  rwa [flatten_batches] at hc

/-- If filling comes to its end, every commit that is mentioned has a record. -/
theorem exists_record_fill {checkpoint : Nat} {index : ContentIndex} {saves : σ}
    {done : List Action} {counts : FillCounts}
    (h : (fill seen markers checkpoint interrupt save index saves done schedule).result =
      .ok counts) {c : CommitId} (hc : c ∈ index.mentioned) :
    ∃ r, (fill seen markers checkpoint interrupt save index saves done
      schedule).index.records.get? c = some r := by
  cases hget : index.records.get? c with
  | none =>
    refine exists_record_fillBatches h ?_
    rw [flatten_batches]
    exact ContentIndex.mem_unscanned_iff.2 ⟨hc, hget⟩
  | some r => exact exists_record_fillBatches_of_record ⟨r, hget⟩

/-- Filling comes to its end if every commit that is mentioned can be scanned, every save can be
made, and nobody asks it to stop. -/
theorem exists_fill_eq_ok (reachable : Reachable store) {Q : σ → Prop}
    (hsave : ∀ index saves, Q saves → (save index saves).1 = .ok () ∧ Q (save index saves).2)
    {checkpoint : Nat} {index : ContentIndex}
    (hscan : ∀ c ∈ index.mentioned, ∃ r, scanned store markers c = .ok r) {saves : σ}
    {done : List Action} (hQ : Q saves) :
    ∃ counts, (fill store markers checkpoint .never save index saves done schedule).result =
      .ok counts := by
  refine exists_fillBatches_eq_ok reachable hsave (fun c hc => hscan c ?_) hQ
  rw [flatten_batches] at hc
  exact (ContentIndex.mem_unscanned_iff.1 hc).1

end Batches

end ReleaseRecovery
