import ReleaseRecovery.Proofs.Filling

/-!
# Scanning batches

Scanning a commit asks for that commit, and then for directories. So what is done in a batch tells
which commits were scanned, and each result is what scanning its commit came to at some moment.

## Main Definitions

* `Reading.Asks` — what a calculation asks
* `Scans` — what is done between two moments is scanning commits
* `ScansBatch` — what is done in a batch

## Main Statements

* `exists_asked_of_scan` — what scanning a commit asks for
* `scansBatch_scanBatch` — a batch goes like that
-/

namespace ReleaseRecovery

variable {ρ : Type} [Repository ρ]

/-! ### What is asked -/

namespace Reading

variable {α β : Type} {P : Action → Prop}

/-- Whatever a calculation asks passes a test, and what had been done before stays. -/
def Asks (P : Action → Prop) (r : Reading α) : Prop :=
  ∀ done, ∃ asked, (r.after done).2 = asked ++ done ∧ ∀ action ∈ asked, P action

theorem Asks.pure (a : α) : (Pure.pure a : Reading α).Asks P := fun _ => ⟨[], rfl, nofun⟩

theorem Asks.throw (e : Failure) : (MonadExcept.throw e : Reading α).Asks P :=
  fun _ => ⟨[], rfl, nofun⟩

theorem Asks.bind {r : Reading α} {f : α → Reading β} (h : r.Asks P) (hf : ∀ a, (f a).Asks P) :
    (r >>= f).Asks P := by
  intro done
  obtain ⟨asked, hasked, hall⟩ := h done
  rw [after_bind]
  rcases hr : r.after done with ⟨e | a, done'⟩ <;>
    obtain rfl := (congrArg Prod.snd hr).symm.trans hasked
  · exact ⟨asked, rfl, hall⟩
  · obtain ⟨asked', hasked', hall'⟩ := hf a (asked ++ done)
    refine ⟨asked' ++ asked, ?_, List.forall_mem_append.2 ⟨hall', hall⟩⟩
    rw [List.append_assoc]
    exact hasked'

theorem Asks.foldlM {f : β → α → Reading β} (h : ∀ b a, (f b a).Asks P) (l : List α) (b : β) :
    (l.foldlM f b).Asks P := by
  induction l generalizing b with
  | nil => exact .pure b
  | cons a l ih =>
    rw [List.foldlM_cons]
    exact (h b a).bind ih

theorem Asks.mapM {f : α → Reading β} (h : ∀ a, (f a).Asks P) (l : List α) :
    (l.mapM f).Asks P := by
  induction l with
  | nil => exact .pure []
  | cons a l ih =>
    rw [List.mapM_cons]
    exact (h a).bind fun b => ih.bind fun bs => .pure (b :: bs)

theorem asks_ask {store : ρ} {action : Action} (h : P action) (answer : Except Failure α) :
    (ask store action answer).Asks P :=
  fun _ => ⟨[action], rfl, List.forall_mem_singleton.2 h⟩

theorem Asks.imp {Q : Action → Prop} {r : Reading α} (h : r.Asks P)
    (himp : ∀ action, P action → Q action) : r.Asks Q := by
  intro done
  obtain ⟨asked, hasked, hall⟩ := h done
  exact ⟨asked, hasked, fun action hmem => himp action (hall action hmem)⟩

/-- If all that had been done passes the test, so does all that has been done after. -/
theorem Asks.forall_after {r : Reading α} (h : r.Asks P) {done : List Action}
    (hdone : ∀ action ∈ done, P action) : ∀ action ∈ (r.after done).2, P action := by
  obtain ⟨asked, hasked, hall⟩ := h done
  rw [hasked]
  exact List.forall_mem_append.2 ⟨hall, hdone⟩

end Reading

theorem searchTree_asks (store : ρ) (markers : Markers) (room : Nat) (tree : TreeId)
    (path : String) (record : InstallRecord) :
    (searchTree store markers room tree path record).Asks fun action =>
      action.readsTree = true := by
  induction room generalizing tree path record with
  | zero => exact .throw _
  | succ room ih =>
    refine (Reading.asks_ask (by rfl) _).bind fun entries => ?_
    cases entries.find? markers.isDirectory with
    | some marker => exact .pure _
    | none =>
      dsimp only
      split
      · exact .pure _
      · exact .foldlM (fun record (e : Entry) => ih e.id _ record) _ _

/-- Scanning asks for the commit, and then for nothing but directories. -/
theorem exists_asked_of_scan (store : ρ) (markers : Markers) (c : CommitId) (done : List Action) :
    ∃ reads, ((scan store markers c).after done).2 = reads ++ .commit c :: done ∧
      ∀ action ∈ reads, action.readsTree = true := by
  rw [scan, Reading.after_bind]
  rcases hcommit : (Reading.commit store c).after done with ⟨e | commit, done'⟩ <;>
    obtain rfl : Action.commit c :: done = done' := congrArg Prod.snd hcommit
  · exact ⟨[], rfl, nofun⟩
  · exact searchTree_asks store markers _ commit.tree "/" .empty _

/-! ### What is scanned -/

/-- What is done between two moments is scanning commits, each of them with a result: no other
commits are asked for. -/
structure Scans (store : ρ) (markers : Markers) (before after : List Action)
    (results : List (CommitId × Except Failure InstallRecord)) : Prop where
  asked : ∃ asked, after = asked ++ before ∧
    ∀ c, .commit c ∈ asked ↔ c ∈ results.map Prod.fst
  outcome : ∀ c result, (c, result) ∈ results → ∃ moment, before <:+ moment ∧
    .commit c :: moment <:+ after ∧ ((scan store markers c).after moment).1 = result

/-- In a batch commits are scanned, each of them at most once, and all of them unless there is a
request to stop. -/
structure ScansBatch (store : ρ) (markers : Markers) (interrupt : Interrupt)
    (batch : List CommitId) (before after : List Action)
    (results : List (CommitId × Except Failure InstallRecord)) : Prop
    extends Scans store markers before after results where
  sublist : (results.map Prod.fst).Sublist batch
  whole : interrupt.raised after = false → results.map Prod.fst = batch

section Scans

variable {store : ρ} {markers : Markers} {before between after : List Action}
  {results results' : List (CommitId × Except Failure InstallRecord)}

theorem Scans.isSuffix (h : Scans store markers before after results) : before <:+ after := by
  obtain ⟨asked, rfl, -⟩ := h.asked
  exact List.suffix_append asked before

theorem Scans.scansTo (h : Scans store markers before after results) {c : CommitId}
    {r : InstallRecord} (hmem : (c, .ok r) ∈ results) : ScansTo store markers c r := by
  obtain ⟨moment, -, -, hscan⟩ := h.outcome c (.ok r) hmem
  exact ⟨moment, hscan⟩

theorem Scans.nil (store : ρ) (markers : Markers) (done : List Action) :
    Scans store markers done done [] :=
  ⟨⟨[], rfl, fun _ => iff_of_false List.not_mem_nil List.not_mem_nil⟩, nofun⟩

/-- One commit is scanned. -/
theorem scans_scan (store : ρ) (markers : Markers) (c : CommitId) (done : List Action) :
    Scans store markers done ((scan store markers c).after done).2
      [(c, ((scan store markers c).after done).1)] := by
  obtain ⟨reads, hreads, htrees⟩ := exists_asked_of_scan store markers c done
  refine ⟨⟨reads ++ [.commit c], by rw [hreads, List.append_cons], fun d => ?_⟩, ?_⟩
  · have hnot : Action.commit d ∉ reads := fun hmem => Bool.noConfusion (htrees _ hmem)
    rw [List.mem_append, or_iff_right hnot, List.mem_singleton, Action.commit.injEq]
    exact List.mem_singleton.symm
  · intro d result hmem
    obtain ⟨rfl, rfl⟩ := Prod.mk.inj (List.mem_singleton.1 hmem)
    exact ⟨done, List.suffix_refl done, hreads ▸ List.suffix_append reads _, rfl⟩

/-- What is scanned one after the other is scanned together. -/
theorem Scans.append (h : Scans store markers before between results)
    (h' : Scans store markers between after results') :
    Scans store markers before after (results ++ results') := by
  obtain ⟨asked, hbetween, hasked⟩ := h.asked
  obtain ⟨asked', hafter, hasked'⟩ := h'.asked
  refine ⟨⟨asked' ++ asked, by rw [hafter, hbetween, List.append_assoc], fun c => ?_⟩, ?_⟩
  · rw [List.map_append, List.mem_append, List.mem_append, hasked, hasked', or_comm]
  · intro c result hmem
    obtain hmem | hmem := List.mem_append.1 hmem
    · obtain ⟨moment, hbefore, hmoment, hresult⟩ := h.outcome c result hmem
      exact ⟨moment, hbefore, hmoment.trans h'.isSuffix, hresult⟩
    · obtain ⟨moment, hbetween, hmoment, hresult⟩ := h'.outcome c result hmem
      exact ⟨moment, h.isSuffix.trans hbetween, hmoment, hresult⟩

/-- Whatever else is done after the last scan asks for no commit. -/
theorem Scans.note (h : Scans store markers before after results) (action : Action)
    (hother : ∀ c, .commit c ≠ action) :
    Scans store markers before (action :: after) results := by
  obtain ⟨asked, rfl, hasked⟩ := h.asked
  refine ⟨⟨action :: asked, rfl, fun c => ?_⟩, fun c result hmem => ?_⟩
  · rw [List.mem_cons, or_iff_right (hother c), hasked]
  · obtain ⟨moment, hbefore, hmoment, hresult⟩ := h.outcome c result hmem
    exact ⟨moment, hbefore, hmoment.trans (List.suffix_cons _ _), hresult⟩

theorem scans_scanEach (store : ρ) (markers : Markers) (interrupt : Interrupt)
    (batch : List CommitId) (done : List Action) :
    Scans store markers done (scanEach store markers interrupt batch done).2
      (scanEach store markers interrupt batch done).1 := by
  induction batch generalizing done with
  | nil => exact .nil store markers done
  | cons c rest ih =>
    have hpoll : Scans store markers done (.poll :: done) [] :=
      (Scans.nil store markers done).note .poll nofun
    cases hraised : interrupt.raised done with
    | true =>
      rw [scanEach_of_raised c rest hraised]
      exact hpoll
    | false =>
      rw [scanEach_cons c rest hraised]
      exact (hpoll.append (scans_scan store markers c (.poll :: done))).append (ih _)

theorem map_fst_filterMap_find? (results : List (CommitId × Except Failure InstallRecord))
    (batch : List CommitId) :
    (batch.filterMap fun c => results.find? fun r => r.1 == c).map Prod.fst =
      batch.filter (results.map Prod.fst).contains := by
  induction batch with
  | nil => rfl
  | cons c batch ih =>
    cases hfind : results.find? fun r => r.1 == c with
    | none =>
      have hc : (results.map Prod.fst).contains c = false := by
        rw [Bool.eq_false_iff, ne_eq, List.contains_iff_mem, List.mem_map]
        rintro ⟨r, hr, heq⟩
        exact List.find?_eq_none.1 hfind r hr (beq_iff_eq.2 heq)
      simp only [List.filterMap_cons, hfind]
      rw [ih, List.filter_cons_of_neg (Bool.eq_false_iff.1 hc)]
    | some r =>
      have heq : r.1 = c := eq_of_beq (List.find?_some hfind :)
      have hc : (results.map Prod.fst).contains c = true :=
        List.contains_iff_mem.2 (heq ▸ List.mem_map_of_mem (List.mem_of_find?_eq_some hfind))
      simp only [List.filterMap_cons, hfind]
      rw [List.map_cons, ih, List.filter_cons_of_pos hc, heq]

/-- What is done in a batch. -/
theorem scansBatch_scanBatch (store : ρ) (markers : Markers) (interrupt : Interrupt)
    (schedule : Schedule) (batch : List CommitId) (done : List Action) :
    ScansBatch store markers interrupt batch done
      (scanBatch store markers interrupt schedule batch done).2
      (scanBatch store markers interrupt schedule batch done).1 := by
  have heach := scans_scanEach store markers interrupt (schedule.order batch) done
  have hfst : (scanBatch store markers interrupt schedule batch done).1.map Prod.fst =
      batch.filter ((scanEach store markers interrupt (schedule.order batch)
        done).1.map Prod.fst).contains := map_fst_filterMap_find? _ batch
  obtain ⟨asked, hafter, hasked⟩ := heach.asked
  refine ⟨⟨⟨asked, hafter, fun c => ?_⟩, fun c result hmem => ?_⟩, ?_, fun hquiet => ?_⟩
  · rw [hasked, hfst, List.mem_filter, List.contains_iff_mem, iff_and_self]
    intro hc
    obtain ⟨⟨_, result⟩, hresult, rfl⟩ := List.mem_map.1 hc
    exact (schedule.perm batch).mem_iff.1 (mem_scanEach hresult).1
  · exact heach.outcome c result (List.mem_of_find?_eq_some (mem_scanBatch_iff.1 hmem).2)
  · rw [hfst]
    exact List.filter_sublist
  · rw [hfst, List.filter_eq_self]
    intro c hc
    obtain ⟨result, hresult⟩ := exists_mem_scanEach hquiet ((schedule.perm batch).mem_iff.2 hc)
    exact List.contains_iff_mem.2 (List.mem_map_of_mem hresult)

end Scans

end ReleaseRecovery
