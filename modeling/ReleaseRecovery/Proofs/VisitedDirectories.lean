import Mathlib.Data.List.Nodup
import Mathlib.Logic.Relation
import ReleaseRecovery.Proofs.Exploration

/-!
# The directories that a search reads

A search reads the directories that it visits one after the other, each of them once, and what it
notes of one depends on that directory alone. So a search comes to the notes on a list of
directories. The room that it is given is enough where no directory contains itself, and a search
that keeps a list of the directories that wait for their turn comes to the same.

## Main Definitions

* `Contains` — a directory stands directly inside another one
* `BoundsDepth` — the room of a search is as much as can be needed
* `HasRoom` — a search from a directory does not run out of room
* `visited` — the directories that a search gets to, in its order
* `noted` — what a search notes of one directory
* `worklist` — a search that lets directories wait until their turn comes

## Main Statements

* `hasRoom_of_acyclic` — a search has room if no directory contains itself
* `mem_visited_iff` — which directories a search gets to
* `after_searchTree` — what a search comes to, and what it has read
* `exists_entries_of_searchTree` — a search fails if something that it visits cannot be read
* `exists_visits_of_searchTree_eq_error` — with room enough a search fails for nothing else
* `foldl_noted_of_searchTree` — what a search has come to that came to something at some moment
* `scan_unique` — a commit never has two different records
* `worklist_eq_searchTree` — searching the directories that wait comes to an end, and to the same
-/

namespace ReleaseRecovery

variable {ρ : Type} [Repository ρ]

/-! ### Room -/

/-- A directory stands directly inside another one. -/
def Contains (store : ρ) (outer inner : TreeId) : Prop :=
  ∃ entries, Repository.entries store outer = .ok entries ∧
    ∃ e ∈ entries, e.kind = .tree ∧ e.id = inner

/-- Directories that stand inside each other, each of them in the next one and none of them twice,
are no more than a store tells. -/
def BoundsDepth (store : ρ) : Prop :=
  ∀ chain : List TreeId, chain.Nodup →
    chain.IsChain (fun inner outer => Contains store outer inner) →
    chain.length ≤ Repository.depth store

/-- A search from a directory does not run out of room. -/
inductive HasRoom (store : ρ) (markers : Markers) : Nat → TreeId → Prop
  | intro {room : Nat} {tree : TreeId} :
    (∀ entries, Repository.entries store tree = .ok entries → markers.IsScaffolding entries →
      ∀ e ∈ entries, e.kind = .tree → HasRoom store markers room e.id) →
      HasRoom store markers (room + 1) tree

/-- None of a directory and the directories below it contains itself. -/
def IsAcyclic (store : ρ) (root : TreeId) : Prop :=
  ∀ tree, Relation.ReflTransGen (Contains store) root tree →
    ¬ Relation.TransGen (Contains store) tree tree

section Room

variable {store : ρ} {markers : Markers} {root tree : TreeId} {room : Nat}

/-- With the directories around it, a directory needs no more room than a store tells. -/
theorem hasRoom_below (bounded : BoundsDepth store) (acyclic : IsAcyclic store root)
    {around : List TreeId} (hroot : Relation.ReflTransGen (Contains store) root tree)
    (haround : ∀ a ∈ around, Relation.TransGen (Contains store) a tree)
    (nodup : (tree :: around).Nodup)
    (chain : (tree :: around).IsChain fun inner outer => Contains store outer inner)
    (hroom : Repository.depth store ≤ room + around.length) : HasRoom store markers room tree := by
  induction room generalizing tree around with
  | zero =>
    have hlength := bounded _ nodup chain
    rw [List.length_cons] at hlength
    omega
  | succ room ih =>
    refine .intro fun entries hentries _ e he hkind => ?_
    have hcontains : Contains store tree e.id := ⟨entries, hentries, e, he, hkind, rfl⟩
    have haround' : ∀ a ∈ tree :: around, Relation.TransGen (Contains store) a e.id :=
      List.forall_mem_cons.2 ⟨.single hcontains, fun a ha => (haround a ha).tail hcontains⟩
    have hnew : e.id ∉ tree :: around := fun hmem =>
      acyclic e.id (hroot.tail hcontains) (haround' e.id hmem)
    refine ih (hroot.tail hcontains) haround' (List.nodup_cons.2 ⟨hnew, nodup⟩)
      (List.isChain_cons_cons.2 ⟨hcontains, chain⟩) ?_
    rw [List.length_cons]
    omega

/-- A search has room if no directory contains itself. -/
theorem hasRoom_of_acyclic (markers : Markers) (bounded : BoundsDepth store)
    (acyclic : IsAcyclic store root) : HasRoom store markers (Repository.depth store) root :=
  hasRoom_below bounded acyclic .refl (List.forall_mem_nil _) (List.nodup_singleton root)
    (.singleton root) (Nat.le_refl _)

end Room

/-! ### What is visited -/

instance (markers : Markers) (entries : List Entry) : Decidable (markers.IsScaffolding entries) :=
  inferInstanceAs
    (Decidable (∀ e ∈ entries, markers.isDirectory e = false ∧ markers.isFile e = false))

/-- The directories that a search goes on with from a directory, in its order. -/
def Markers.inside (markers : Markers) (entries : List Entry) : List Entry :=
  if markers.IsScaffolding entries then (entries.filter (·.kind == .tree)).reverse else []

/-- The directories that a search gets to, in its order, with `room` for directories inside each
other. -/
def visited (store : ρ) (markers : Markers) : Nat → String → TreeId → List (String × TreeId)
  | 0, _, _ => []
  | room + 1, path, tree =>
    (path, tree) ::
      match Repository.entries store tree with
      | .error _ => []
      | .ok entries =>
        (markers.inside entries).flatMap fun e =>
          visited store markers room (InstallRecord.subpath path e.name) e.id

/-- What a search notes of a directory at a path. -/
def noted (store : ρ) (markers : Markers) (record : InstallRecord) (v : String × TreeId) :
    InstallRecord :=
  match Repository.entries store v.2 with
  | .error _ => record
  | .ok entries =>
    match entries.find? markers.isDirectory with
    | some marker => record.addFull markers v.1 v.2 marker.id
    | none => if entries.any markers.isFile then record.addPartial v.1 v.2 else record

section Visited

variable {store : ρ} {markers : Markers} {path last : String} {tree found : TreeId} {room : Nat}
  {entries : List Entry}

theorem Markers.mem_inside_iff {e : Entry} :
    e ∈ markers.inside entries ↔ markers.IsScaffolding entries ∧ e ∈ entries ∧ e.kind = .tree := by
  unfold inside
  split
  · rename_i h
    rw [List.mem_reverse, List.mem_filter, beq_iff_eq, and_iff_right h]
  · rename_i h
    exact iff_of_false List.not_mem_nil fun h' => h h'.1

theorem visits_iff_of_error {e : Failure} (h : Repository.entries store tree = .error e) :
    Visits store markers path tree last found ↔ last = path ∧ found = tree := by
  constructor
  · intro hvisits
    cases hvisits with
    | here => exact ⟨rfl, rfl⟩
    | through hentries =>
      rw [h] at hentries
      cases hentries
  · rintro ⟨rfl, rfl⟩
    exact .here

theorem visited_of_error {e : Failure} (h : Repository.entries store tree = .error e) :
    visited store markers (room + 1) path tree = [(path, tree)] := by
  rw [visited, h]

theorem visited_of_ok (h : Repository.entries store tree = .ok entries) :
    visited store markers (room + 1) path tree =
      (path, tree) :: (markers.inside entries).flatMap fun e =>
        visited store markers room (InstallRecord.subpath path e.name) e.id := by
  rw [visited, h]

theorem noted_of_ok (h : Repository.entries store tree = .ok entries) (record : InstallRecord) :
    noted store markers record (path, tree) =
      match entries.find? markers.isDirectory with
      | some marker => record.addFull markers path tree marker.id
      | none => if entries.any markers.isFile then record.addPartial path tree else record := by
  rw [noted, h]

/-- The list has the directories that a search gets to. -/
theorem mem_visited_iff (hasRoom : HasRoom store markers room tree) :
    (last, found) ∈ visited store markers room path tree ↔
      Visits store markers path tree last found := by
  induction hasRoom generalizing path with
  | @intro room tree _ ih =>
    cases hentries : Repository.entries store tree with
    | error e =>
      rw [visited_of_error hentries, visits_iff_of_error hentries, List.mem_singleton,
        Prod.mk.injEq]
    | ok entries =>
      rw [visited_of_ok hentries, visits_iff hentries, List.mem_cons, Prod.mk.injEq,
        List.mem_flatMap]
      refine or_congr_right ?_
      constructor
      · rintro ⟨e, he, hvisited⟩
        obtain ⟨hscaffolding, hmem, hkind⟩ := Markers.mem_inside_iff.1 he
        exact ⟨hscaffolding, e, hmem, hkind,
          (ih entries hentries hscaffolding e hmem hkind).1 hvisited⟩
      · rintro ⟨hscaffolding, e, hmem, hkind, hvisits⟩
        exact ⟨e, Markers.mem_inside_iff.2 ⟨hscaffolding, hmem, hkind⟩,
          (ih entries hentries hscaffolding e hmem hkind).2 hvisits⟩

/-- What some searches, one after the other, come to and have read. -/
theorem after_foldlM_searchTree {l : List Entry}
    (h : ∀ e ∈ l, ∀ record done,
      (searchTree store markers room e.id (InstallRecord.subpath path e.name) record).after done =
        (.ok ((visited store markers room (InstallRecord.subpath path e.name) e.id).foldl
            (noted store markers) record),
          ((visited store markers room (InstallRecord.subpath path e.name) e.id).map
            fun v => Action.entries v.2).reverse ++ done))
    (record : InstallRecord) (done : List Action) :
    (l.foldlM (fun record e => searchTree store markers room e.id
        (InstallRecord.subpath path e.name) record) record).after done =
      (.ok ((l.flatMap fun e => visited store markers room (InstallRecord.subpath path e.name)
          e.id).foldl (noted store markers) record),
        ((l.flatMap fun e => visited store markers room (InstallRecord.subpath path e.name)
          e.id).map fun v => Action.entries v.2).reverse ++ done) := by
  induction l generalizing record done with
  | nil => rfl
  | cons e l ih =>
    rw [List.foldlM_cons, Reading.after_bind, h e List.mem_cons_self]
    dsimp only
    rw [ih fun e he => h e (List.mem_cons_of_mem _ he), List.flatMap_cons, List.foldl_append,
      List.map_append, List.reverse_append, List.append_assoc]

/-- If all that a search visits can be read, it comes to the notes on the directories visited, and
has read each of them once. -/
theorem after_searchTree (reachable : Reachable store) (hasRoom : HasRoom store markers room tree)
    (hread : ∀ last found, Visits store markers path tree last found →
      ∃ entries, Repository.entries store found = .ok entries)
    (record : InstallRecord) (done : List Action) :
    (searchTree store markers room tree path record).after done =
      (.ok ((visited store markers room path tree).foldl (noted store markers) record),
        ((visited store markers room path tree).map fun v => Action.entries v.2).reverse ++
          done) := by
  induction hasRoom generalizing path record done with
  | @intro room tree _ ih =>
    obtain ⟨entries, hentries⟩ := hread path tree .here
    have hask : (Reading.entries store tree).after done = (.ok entries, .entries tree :: done) := by
      rw [Reading.entries, Reading.after_ask, reachable done, hentries]
      rfl
    rw [searchTree, Reading.after_bind, hask, visited_of_ok hentries, List.foldl_cons,
      noted_of_ok hentries]
    dsimp only
    by_cases hscaffolding : markers.IsScaffolding entries
    · obtain ⟨hfind, hfile⟩ := Markers.isScaffolding_iff.1 hscaffolding
      have hinside := after_foldlM_searchTree (l := markers.inside entries) (fun e he => by
        obtain ⟨-, hmem, hkind⟩ := Markers.mem_inside_iff.1 he
        exact ih entries hentries hscaffolding e hmem hkind fun last found hvisits =>
          hread last found (.through hentries hscaffolding hmem hkind hvisits))
        record (.entries tree :: done)
      rw [Markers.inside, if_pos hscaffolding] at hinside ⊢
      rw [hfind, hfile, List.map_cons, List.reverse_cons, List.append_assoc]
      exact hinside
    · rw [Markers.inside, if_neg hscaffolding]
      cases hfind : entries.find? markers.isDirectory with
      | some marker => rfl
      | none =>
        cases hfile : entries.any markers.isFile with
        | true => rfl
        | false => exact absurd (Markers.isScaffolding_iff.2 ⟨hfind, hfile⟩) hscaffolding

/-- If a calculation over a list comes to something, every step does. -/
theorem Reading.exists_of_mem_foldlM {α β : Type} {f : β → α → Reading β} {l : List α} {b b' : β}
    {done : List Action} (h : ((l.foldlM f b).after done).1 = .ok b') {a : α} (ha : a ∈ l) :
    ∃ b₁ b₂ done', ((f b₁ a).after done').1 = .ok b₂ := by
  induction l generalizing b done with
  | nil => cases ha
  | cons c l ih =>
    rw [List.foldlM_cons] at h
    obtain ⟨b₁, hfirst, hrest⟩ := Reading.after_bind_eq_ok_iff.1 h
    obtain rfl | ha := List.mem_cons.1 ha
    · exact ⟨b, b₁, done, hfirst⟩
    · exact ih hrest ha

/-- If a search comes to something, all that it visits can be read. -/
theorem exists_entries_of_searchTree {record record' : InstallRecord} {done : List Action}
    (h : ((searchTree store markers room tree path record).after done).1 = .ok record')
    (hvisits : Visits store markers path tree last found) :
    ∃ entries, Repository.entries store found = .ok entries := by
  induction hvisits generalizing room record record' done with
  | here =>
    cases room with
    | zero => cases h
    | succ room =>
      obtain ⟨entries, hanswer, -⟩ := searchTree_eq_ok_iff.1 h
      exact ⟨entries, Reading.answer_of_after_ask hanswer⟩
  | @through path last tree found entries e hentries hscaffolding hmem hkind _ ih =>
    cases room with
    | zero => cases h
    | succ room =>
      obtain ⟨entries', hanswer, hcases⟩ := searchTree_eq_ok_iff.1 h
      obtain rfl := Except.ok.inj (hentries.symm.trans (Reading.answer_of_after_ask hanswer))
      obtain ⟨hnone, hfile⟩ := Markers.isScaffolding_iff.1 hscaffolding
      obtain ⟨marker, hfind, -⟩ | ⟨-, ⟨hfile', -⟩ | ⟨-, hfold⟩⟩ := hcases
      · rw [hnone] at hfind
        cases hfind
      · rw [hfile] at hfile'
        cases hfile'
      · have he : e ∈ (entries.filter (·.kind == .tree)).reverse :=
          List.mem_reverse.2 (List.mem_filter.2 ⟨hmem, beq_iff_eq.2 hkind⟩)
        obtain ⟨_, _, _, hstep⟩ := Reading.exists_of_mem_foldlM hfold he
        exact ih hstep

/-- If a calculation over a list fails, some step does. -/
theorem Reading.exists_error_of_foldlM {α β : Type} {f : β → α → Reading β} {l : List α} {b : β}
    {done : List Action} {e : Failure} (h : ((l.foldlM f b).after done).1 = .error e) :
    ∃ a ∈ l, ∃ b' done', ((f b' a).after done').1 = .error e := by
  induction l generalizing b done with
  | nil => cases h
  | cons a l ih =>
    rw [List.foldlM_cons, Reading.after_bind] at h
    cases hfirst : (f b a).after done with
    | mk result done' =>
      rw [hfirst] at h
      cases result with
      | error e' =>
        obtain rfl := Except.error.inj h
        exact ⟨a, List.mem_cons_self, b, done, congrArg Prod.fst hfirst⟩
      | ok b' =>
        obtain ⟨a', ha', hstep⟩ := ih h
        exact ⟨a', List.mem_cons_of_mem a ha', hstep⟩

/-- If a search with room enough fails, it is told that something it visits cannot be read. -/
theorem exists_visits_of_searchTree_eq_error (reachable : Reachable store)
    (hasRoom : HasRoom store markers room tree) {record : InstallRecord} {done : List Action}
    {e : Failure}
    (h : ((searchTree store markers room tree path record).after done).1 = .error e) :
    ∃ last found, Visits store markers path tree last found ∧
      Repository.entries store found = .error e := by
  induction hasRoom generalizing path record done with
  | @intro room tree _ ih =>
    rw [searchTree, Reading.after_bind, Reading.entries, Reading.after_ask, reachable done] at h
    cases hentries : Repository.entries store tree with
    | error e' =>
      rw [hentries] at h
      obtain rfl := Except.error.inj h
      exact ⟨path, tree, .here, hentries⟩
    | ok entries =>
      rw [hentries] at h
      dsimp only [Option.elim] at h
      cases hfind : entries.find? markers.isDirectory with
      | some marker =>
        rw [hfind] at h
        cases h
      | none =>
        cases hfile : entries.any markers.isFile with
        | true =>
          rw [hfind, hfile] at h
          cases h
        | false =>
          rw [hfind, hfile] at h
          have hscaffolding := Markers.isScaffolding_iff.2 ⟨hfind, hfile⟩
          obtain ⟨inner, hinner, _, _, hstep⟩ := Reading.exists_error_of_foldlM h
          obtain ⟨hmem, hkind⟩ := List.mem_filter.1 (List.mem_reverse.1 hinner)
          have hkind := beq_iff_eq.1 hkind
          obtain ⟨last, found, hvisits, herror⟩ :=
            ih entries hentries hscaffolding inner hmem hkind hstep
          exact ⟨last, found, .through hentries hscaffolding hmem hkind hvisits, herror⟩

end Visited

/-! ### Searches that come to something -/

section Search

variable {store : ρ} {markers : Markers} {path : String} {tree : TreeId} {room : Nat}
  {record record' : InstallRecord} {done done' : List Action}

/-- A search that comes to something has had room enough. -/
theorem hasRoom_of_searchTree
    (h : ((searchTree store markers room tree path record).after done).1 = .ok record') :
    HasRoom store markers room tree := by
  induction room generalizing tree path record record' done with
  | zero => cases h
  | succ room ih =>
    obtain ⟨entries, hanswer, hcases⟩ := searchTree_eq_ok_iff.1 h
    refine .intro fun entries' hentries' hscaffolding e he hkind => ?_
    obtain rfl := Except.ok.inj ((Reading.answer_of_after_ask hanswer).symm.trans hentries')
    obtain ⟨hnone, hfile⟩ := Markers.isScaffolding_iff.1 hscaffolding
    rw [hnone, hfile] at hcases
    obtain ⟨_, hsome, -⟩ | ⟨-, ⟨htrue, -⟩ | ⟨-, hfold⟩⟩ := hcases
    · cases hsome
    · cases htrue
    · have hmem : e ∈ (entries.filter (·.kind == .tree)).reverse :=
        List.mem_reverse.2 (List.mem_filter.2 ⟨he, beq_iff_eq.2 hkind⟩)
      obtain ⟨_, _, _, hstep⟩ := Reading.exists_of_mem_foldlM hfold hmem
      exact ih hstep

/-- Searches that come to something, one after the other, come to the notes on what they visit. -/
theorem foldl_noted_of_foldlM {l : List Entry}
    (step : ∀ e ∈ l, ∀ record record' done,
      ((searchTree store markers room e.id (InstallRecord.subpath path e.name) record).after
        done).1 = .ok record' →
      (visited store markers room (InstallRecord.subpath path e.name) e.id).foldl
        (noted store markers) record = record')
    (h : ((l.foldlM (fun record e => searchTree store markers room e.id
      (InstallRecord.subpath path e.name) record) record).after done).1 = .ok record') :
    (l.flatMap fun e => visited store markers room (InstallRecord.subpath path e.name)
      e.id).foldl (noted store markers) record = record' := by
  induction l generalizing record done with
  | nil => exact Except.ok.inj h
  | cons e l ih =>
    rw [List.foldlM_cons] at h
    obtain ⟨record₁, hfirst, hrest⟩ := Reading.after_bind_eq_ok_iff.1 h
    rw [List.flatMap_cons, List.foldl_append, step e List.mem_cons_self _ _ _ hfirst]
    exact ih (fun e he => step e (List.mem_cons_of_mem _ he)) hrest

/-- A search that comes to something comes to the notes on the directories visited. -/
theorem foldl_noted_of_searchTree
    (h : ((searchTree store markers room tree path record).after done).1 = .ok record') :
    (visited store markers room path tree).foldl (noted store markers) record = record' := by
  induction room generalizing tree path record record' done with
  | zero => cases h
  | succ room ih =>
    obtain ⟨entries, hanswer, hcases⟩ := searchTree_eq_ok_iff.1 h
    have hentries := Reading.answer_of_after_ask hanswer
    rw [visited_of_ok hentries, List.foldl_cons, noted_of_ok hentries, Markers.inside]
    obtain ⟨marker, hfind, rfl⟩ | ⟨hfind, ⟨hfile, rfl⟩ | ⟨hfile, hfold⟩⟩ := hcases
    · have hmarked : ¬ markers.IsScaffolding entries := fun hscaffolding => by
        rw [(Markers.isScaffolding_iff.1 hscaffolding).1] at hfind
        cases hfind
      rw [if_neg hmarked, hfind]
      rfl
    · have hmarked : ¬ markers.IsScaffolding entries := fun hscaffolding => by
        rw [(Markers.isScaffolding_iff.1 hscaffolding).2] at hfile
        cases hfile
      rw [if_neg hmarked, hfind, hfile]
      rfl
    · rw [if_pos (Markers.isScaffolding_iff.2 ⟨hfind, hfile⟩), hfind, hfile]
      exact foldl_noted_of_foldlM (fun e _ _ _ _ hstep => ih hstep) hfold

/-- A commit that comes to a record at two moments comes to the same one. -/
theorem scan_unique {c : CommitId} (h : ((scan store markers c).after done).1 = .ok record)
    (h' : ((scan store markers c).after done').1 = .ok record') : record = record' := by
  obtain ⟨commit, hcommit, hsearch⟩ := Reading.after_bind_eq_ok_iff.1 h
  obtain ⟨commit', hcommit', hsearch'⟩ := Reading.after_bind_eq_ok_iff.1 h'
  have hanswer := Reading.answer_of_after_ask hcommit
  obtain rfl := Except.ok.inj (hanswer.symm.trans (Reading.answer_of_after_ask hcommit'))
  rw [← foldl_noted_of_searchTree hsearch, ← foldl_noted_of_searchTree hsearch']

end Search

/-! ### Waiting directories -/

/-- Searches the directories that wait, the last one put there first, and lets the directories
inside scaffolding wait in the order of its entries. No more than `steps` directories are read. -/
def worklist (store : ρ) (markers : Markers) :
    Nat → List (String × TreeId) → InstallRecord → Reading InstallRecord
  | _, [], record => return record
  | 0, (_, tree) :: _, _ => throw (.endlessTree tree)
  | steps + 1, (path, tree) :: waiting, record => do
    let entries ← Reading.entries store tree
    match entries.find? markers.isDirectory with
    | some marker =>
      worklist store markers steps waiting (record.addFull markers path tree marker.id)
    | none =>
      if entries.any markers.isFile then
        worklist store markers steps waiting (record.addPartial path tree)
      else
        worklist store markers steps
          ((entries.filter (·.kind == .tree)).foldl
            (fun waiting e => (InstallRecord.subpath path e.name, e.id) :: waiting) waiting)
          record

section Worklist

variable {store : ρ} {markers : Markers} {path : String} {tree : TreeId} {room : Nat}

/-- Calculations that go on in the same way from every answer of the store are the same. -/
theorem Reading.ask_bind_congr {α β : Type} {action : Action} {answer : Except Failure α}
    {f g : α → Reading β} (h : ∀ a, answer = .ok a → f a = g a) :
    Reading.ask store action answer >>= f = Reading.ask store action answer >>= g := by
  funext done
  change Reading.after _ done = Reading.after _ done
  rw [Reading.after_bind, Reading.after_bind]
  cases hanswer : (Reading.ask store action answer).after done with
  | mk result done' =>
    cases result with
    | error e => rfl
    | ok a =>
      have hsame := h a (Reading.answer_of_after_ask (congrArg Prod.fst hanswer))
      exact congrArg (Reading.after · done') hsame

/-- Directories that wait next to each other are searched one after the other. -/
theorem worklist_append (path : String) {l : List Entry}
    (h : ∀ e ∈ l, ∀ steps waiting record,
      worklist store markers
          ((visited store markers room (InstallRecord.subpath path e.name) e.id).length + steps)
          ((InstallRecord.subpath path e.name, e.id) :: waiting) record =
        searchTree store markers room e.id (InstallRecord.subpath path e.name) record >>=
          worklist store markers steps waiting)
    (steps : Nat) (waiting : List (String × TreeId)) (record : InstallRecord) :
    worklist store markers
        ((l.flatMap fun e => visited store markers room (InstallRecord.subpath path e.name)
          e.id).length + steps)
        (l.map (fun e => (InstallRecord.subpath path e.name, e.id)) ++ waiting) record =
      l.foldlM (fun record e => searchTree store markers room e.id
          (InstallRecord.subpath path e.name) record) record >>=
        worklist store markers steps waiting := by
  induction l generalizing record with
  | nil =>
    rw [List.flatMap_nil, List.length_nil, Nat.zero_add, List.map_nil, List.nil_append,
      List.foldlM_nil, pure_bind]
  | cons e l ih =>
    rw [List.flatMap_cons, List.length_append, Nat.add_assoc, List.map_cons, List.cons_append,
      h e List.mem_cons_self, List.foldlM_cons, bind_assoc]
    exact bind_congr fun record => ih (fun e he => h e (List.mem_cons_of_mem _ he)) record

/-- A directory that waits is searched to its end before the next one, in as many steps as there
are directories visited. -/
theorem worklist_cons (hasRoom : HasRoom store markers room tree) (steps : Nat)
    (waiting : List (String × TreeId)) (record : InstallRecord) :
    worklist store markers ((visited store markers room path tree).length + steps)
        ((path, tree) :: waiting) record =
      searchTree store markers room tree path record >>= worklist store markers steps waiting := by
  induction hasRoom generalizing path steps waiting record with
  | @intro room tree _ ih =>
    rw [visited, List.length_cons, Nat.add_right_comm, worklist, searchTree, bind_assoc,
      Reading.entries]
    refine Reading.ask_bind_congr fun entries hentries => ?_
    rw [hentries]
    dsimp only
    by_cases hscaffolding : markers.IsScaffolding entries
    · obtain ⟨hfind, hfile⟩ := Markers.isScaffolding_iff.1 hscaffolding
      rw [hfind, hfile, List.foldl_flip_cons_eq_append, ← List.map_reverse]
      have hinside := worklist_append path (l := markers.inside entries) (fun e he => by
        obtain ⟨-, hmem, hkind⟩ := Markers.mem_inside_iff.1 he
        exact ih entries hentries hscaffolding e hmem hkind) steps waiting record
      rw [Markers.inside, if_pos hscaffolding] at hinside ⊢
      exact hinside
    · rw [Markers.inside, if_neg hscaffolding, List.flatMap_nil, List.length_nil, Nat.zero_add]
      cases hfind : entries.find? markers.isDirectory with
      | some marker => rfl
      | none =>
        cases hfile : entries.any markers.isFile with
        | true => rfl
        | false => exact absurd (Markers.isScaffolding_iff.2 ⟨hfind, hfile⟩) hscaffolding

/-- Searching the directories that wait comes to an end. -/
theorem worklist_eq_searchTree (hasRoom : HasRoom store markers room tree) {steps : Nat}
    (hsteps : (visited store markers room path tree).length ≤ steps) (record : InstallRecord) :
    worklist store markers steps [(path, tree)] record =
      searchTree store markers room tree path record := by
  obtain ⟨more, rfl⟩ := Nat.exists_eq_add_of_le hsteps
  have hnil : worklist store markers more [] = pure := by
    funext record
    rw [worklist]
  rw [worklist_cons hasRoom, hnil, bind_pure]

end Worklist

end ReleaseRecovery
