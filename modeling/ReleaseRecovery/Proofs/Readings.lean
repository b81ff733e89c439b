import ReleaseRecovery.History
import ReleaseRecovery.Install.Search

/-!
# Reading growing stores

What a store has told once it tells for ever: a question that was answered is answered the same
after the store has grown. Scanning a commit and collecting histories only ask questions, so what
they have come to in a run with outages they come to without outages, too.

## Main Definitions

* `Reading.Follows` — a calculation comes to what another one comes to
* `Grows` — a store holds all commits and directories of another one
* `Sees` — what a run gets to see of a store
* `scanned`, `collected` — what scanning and collecting come to

## Main Statements

* `Grows.scanned_eq_ok` — a commit that was scanned once comes to the same later
* `Sees.collected_eq_ok` — histories that a run has collected are those of the store
-/

namespace ReleaseRecovery

namespace Reading

variable {ρ α β : Type}

theorem after_bind_eq_ok_iff {r : Reading α} {f : α → Reading β} {done : List Action} {b : β} :
    ((r >>= f).after done).1 = .ok b ↔
      ∃ a, (r.after done).1 = .ok a ∧ ((f a).after (r.after done).2).1 = .ok b := by
  rw [after_bind]
  obtain ⟨answer, later⟩ := r.after done
  cases answer <;> simp

/-- What a store that was asked has answered is its answer. -/
theorem answer_of_after_ask [Repository ρ] {repo : ρ} {action : Action} {answer : Except Failure α}
    {done : List Action} {a : α} (h : ((ask repo action answer).after done).1 = .ok a) :
    answer = .ok a := by
  rw [after_ask] at h
  cases houtage : Repository.outage repo done with
  | none =>
    rw [houtage] at h
    exact h
  | some e =>
    rw [houtage] at h
    cases h

/-- What every successful step preserves holds after a successful run over a list. -/
theorem foldlM_invariant {f : β → α → Reading β} {P : β → Prop} {l : List α}
    (step : ∀ b, ∀ a ∈ l, ∀ b' done, P b → ((f b a).after done).1 = .ok b' → P b')
    {b b' : β} {done : List Action} (h : P b) (hrun : ((l.foldlM f b).after done).1 = .ok b') :
    P b' := by
  induction l generalizing b done with
  | nil => exact Except.ok.inj hrun ▸ h
  | cons a l ih =>
    rw [List.foldlM_cons] at hrun
    obtain ⟨b₁, hfirst, hrest⟩ := after_bind_eq_ok_iff.1 hrun
    exact ih (fun b a' ha' => step b a' (List.mem_cons_of_mem a ha'))
      (step b a List.mem_cons_self b₁ done h hfirst) hrest

/-! ### Following -/

/-- Whatever one calculation comes to, another one comes to as well, after whatever actions. -/
def Follows (r' r : Reading α) : Prop :=
  ∀ a done done', (r.after done).1 = .ok a → (r'.after done').1 = .ok a

theorem Follows.pure (a : α) : (Pure.pure a : Reading α).Follows (Pure.pure a) :=
  fun _ _ _ h => h

theorem Follows.throw (r : Reading α) (e : Failure) :
    r.Follows (MonadExcept.throw e : Reading α) := by
  intro a done done' h
  rw [after_throw] at h
  cases h

/-- Only what the first part can come to has to be followed by the rest. -/
theorem Follows.bind_of_ok {r r' : Reading α} {f f' : α → Reading β} (h : r'.Follows r)
    (hf : ∀ a done, (r.after done).1 = .ok a → (f' a).Follows (f a)) :
    (r' >>= f').Follows (r >>= f) := by
  intro b done done' hb
  obtain ⟨a, ha, hb⟩ := after_bind_eq_ok_iff.1 hb
  exact after_bind_eq_ok_iff.2 ⟨a, h a done done' ha, hf a done ha b _ _ hb⟩

theorem Follows.bind {r r' : Reading α} {f f' : α → Reading β} (h : r'.Follows r)
    (hf : ∀ a, (f' a).Follows (f a)) : (r' >>= f').Follows (r >>= f) :=
  h.bind_of_ok fun a _ _ => hf a

theorem Follows.foldlM {f f' : β → α → Reading β} (h : ∀ b a, (f' b a).Follows (f b a))
    (l : List α) (b : β) : (l.foldlM f' b).Follows (l.foldlM f b) := by
  induction l generalizing b with
  | nil => exact .pure b
  | cons a l ih =>
    rw [List.foldlM_cons, List.foldlM_cons]
    exact (h b a).bind ih

theorem Follows.mapM {f f' : α → Reading β} {l : List α} (h : ∀ a ∈ l, (f' a).Follows (f a)) :
    (l.mapM f').Follows (l.mapM f) := by
  induction l with
  | nil => exact .pure []
  | cons a l ih =>
    rw [List.mapM_cons, List.mapM_cons]
    have hrest := ih fun a' ha' => h a' (List.mem_cons_of_mem a ha')
    exact (h a List.mem_cons_self).bind fun b => hrest.bind fun bs => .pure (b :: bs)

/-- A question that is answered is answered the same by a store that can always be reached and
knows as much. -/
theorem Follows.ask [Repository ρ] {repo repo' : ρ} {action : Action}
    {answer answer' : Except Failure α} (reachable : ∀ done, Repository.outage repo' done = none)
    (h : ∀ a, answer = .ok a → answer' = .ok a) :
    (Reading.ask repo' action answer').Follows (Reading.ask repo action answer) := by
  intro a done done' ha
  rw [after_ask] at ha ⊢
  rw [reachable done']
  cases houtage : Repository.outage repo done with
  | none =>
    rw [houtage] at ha
    exact h a ha
  | some e =>
    rw [houtage] at ha
    cases ha

end Reading

/-! ### Growing stores -/

section Stores

variable {ρ : Type} [Repository ρ] {old new seen store : ρ}

/-- A store holds all commits and directories that another one holds. -/
structure Grows (old new : ρ) : Prop where
  commit : ∀ id c, Repository.commit old id = .ok c → Repository.commit new id = .ok c
  entries : ∀ id es, Repository.entries old id = .ok es → Repository.entries new id = .ok es
  depth : Repository.depth old ≤ Repository.depth new

theorem Grows.refl (store : ρ) : Grows store store :=
  ⟨fun _ _ h => h, fun _ _ h => h, Nat.le_refl _⟩

theorem Grows.trans {newer : ρ} (h : Grows old new) (h' : Grows new newer) : Grows old newer :=
  ⟨fun id c hc => h'.commit id c (h.commit id c hc),
    fun id es he => h'.entries id es (h.entries id es he), Nat.le_trans h.depth h'.depth⟩

/-- A store can be reached at any moment. -/
def Reachable (store : ρ) : Prop := ∀ done, Repository.outage store done = none

/-- What a run gets to see of a store: what it is told is so, but it need not be told everything at
every moment. -/
structure Sees (seen store : ρ) : Prop where
  listRefs : ∀ start names,
    Repository.listRefs seen start = .ok names → Repository.listRefs store start = .ok names
  log : ∀ ref commits,
    Repository.log seen ref = .ok commits → Repository.log store ref = .ok commits
  grows : Grows seen store
  reachable : Reachable store

theorem Sees.refl {store : ρ} (reachable : Reachable store) : Sees store store :=
  ⟨fun _ _ h => h, fun _ _ h => h, .refl store, reachable⟩

/-- Searching goes the same way in a store that has grown, with as much room or more. -/
theorem searchTree_follows (h : Grows old new) (reachable : Reachable new) (markers : Markers)
    {room room' : Nat} (hroom : room ≤ room') (tree : TreeId) (path : String)
    (record : InstallRecord) :
    (searchTree new markers room' tree path record).Follows
      (searchTree old markers room tree path record) := by
  -- Running out of room is a failure, and a failure need not be followed.
  induction room generalizing room' tree path record with
  | zero => exact .throw _ _
  | succ room ih =>
    obtain ⟨room', rfl⟩ : ∃ n, room' = n + 1 := ⟨room' - 1, by omega⟩
    refine .bind (.ask reachable (h.entries tree)) fun entries => ?_
    cases entries.find? markers.isDirectory with
    | some marker => exact .pure _
    | none =>
      dsimp only
      split
      · exact .pure _
      · have hroom := Nat.le_of_succ_le_succ hroom
        exact .foldlM (fun record (e : Entry) => ih hroom e.id _ record) _ _

theorem scan_follows (h : Grows old new) (reachable : Reachable new) (markers : Markers)
    (c : CommitId) : (scan new markers c).Follows (scan old markers c) :=
  .bind (.ask reachable (h.commit c)) fun commit =>
    searchTree_follows h reachable markers h.depth commit.tree "/" .empty

theorem history_follows (h : Sees seen store) (terminators : List CommitId) (ref : String) :
    (history store terminators ref).Follows (history seen terminators ref) :=
  .bind (.ask h.reachable (h.log ref)) fun _ => .pure _

theorem collect_follows (h : Sees seen store) (layout : Layout) :
    (collect store layout).Follows (collect seen layout) := by
  refine .bind (history_follows h [] layout.reference) fun reference => ?_
  refine .bind (.ask h.reachable (h.listRefs layout.start)) fun names => ?_
  exact .bind (.mapM fun ref _ => history_follows h reference.commits ref) fun others => .pure _

/-- What scanning a commit comes to. -/
def scanned (store : ρ) (markers : Markers) (c : CommitId) : Except Failure InstallRecord :=
  ((scan store markers c).after []).1

/-- What collecting the histories comes to. -/
def collected (store : ρ) (layout : Layout) : Except Failure (SortedMap BranchHistory) :=
  ((collect store layout).after []).1

/-- A commit that was scanned once comes to the same after the store has grown. -/
theorem Grows.scanned_eq_ok (h : Grows old new) (reachable : Reachable new) {markers : Markers}
    {c : CommitId} {r : InstallRecord} (hr : scanned old markers c = .ok r) :
    scanned new markers c = .ok r :=
  scan_follows h reachable markers c r [] [] hr

/-- A commit that a run has scanned comes to the same in the store. -/
theorem Sees.scanned_eq_ok (h : Sees seen store) {markers : Markers} {c : CommitId}
    {done : List Action} {r : InstallRecord} (hr : ((scan seen markers c).after done).1 = .ok r) :
    scanned store markers c = .ok r :=
  scan_follows h.grows h.reachable markers c r done [] hr

/-- Histories that a run has collected are those of the store. -/
theorem Sees.collected_eq_ok (h : Sees seen store) {layout : Layout}
    {histories : SortedMap BranchHistory}
    (hh : ((collect seen layout).after []).1 = .ok histories) :
    collected store layout = .ok histories :=
  collect_follows h layout histories [] [] hh

end Stores

end ReleaseRecovery
