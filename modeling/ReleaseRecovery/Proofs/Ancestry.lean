import Mathlib.Logic.Relation
import ReleaseRecovery.Proofs.GitGrowth
import ReleaseRecovery.Proofs.Heaps

/-!
# The commits of a log

A walk through the history comes upon every commit that its start leads to, and upon no other one,
since it has room for as many commits as there are objects. The log lists them by the time of
committing, so its first commit is the start only if none of them is later.

## Main Definitions

* `Git.Store.LeadsTo` — a commit can be reached from another one through parents
* `Git.Store.IsLater` — a commit was committed after another one
* `Git.Store.Frontier.Explored` — what a walk comes to that goes on from some waiting commits

## Main Statements

* `Git.Store.mem_reachable?_iff` — the commits that a walk comes upon
* `Git.Store.exists_head?_log` — the first commit of a log
-/

namespace ReleaseRecovery.Git.Store

/-- A commit names another one as its parent. -/
def HasParent (s : Store) (a b : Id) : Prop := ∃ c, s.link? a = some c ∧ b ∈ c.parents

/-- A commit can be reached from another one through parents; every commit leads to itself. -/
def LeadsTo (s : Store) : Id → Id → Prop := Relation.ReflTransGen s.HasParent

/-- A commit was committed after another one. -/
def IsLater (s : Store) (a b : Id) : Prop :=
  ∃ c d, s.link? a = some c ∧ s.link? b = some d ∧ d.time < c.time

variable {s : Store} {f g : Frontier} {id : Id} {links : List Link}

theorem id_of_link? {c : Link} (h : s.link? id = some c) : c.id = id := by
  obtain ⟨o, -, h⟩ := Option.bind_eq_some_iff.1 h
  split at h
  · unfold Link.decode? at h
    split at h
    · cases h
    · obtain ⟨s₁, -, h⟩ := Option.bind_eq_some_iff.1 h
      obtain ⟨⟨committer, s₂⟩, -, h⟩ := Option.bind_eq_some_iff.1 h
      obtain rfl := Option.some.inj h
      rfl
  · cases h

@[simp] theorem mem_enqueue {c d : Link} {l : List Link} :
    d ∈ enqueue c l ↔ d = c ∨ d ∈ l := by
  fun_induction enqueue c l with
  | case1 => rw [List.mem_singleton, or_iff_left List.not_mem_nil]
  | case2 => rw [List.mem_cons]
  | case3 e rest hnewer ih => rw [List.mem_cons, ih, List.mem_cons, or_left_comm]

/-! ### One step of a walk -/

/-- A walk has come upon the given commits, too: those that it has not seen before wait now. -/
structure Frontier.Takes (s : Store) (f : Frontier) (ids : List Id) (g : Frontier) : Prop where
  waiting : ∀ c, c ∈ g.waiting ↔
    c ∈ f.waiting ∨ c.id ∈ ids ∧ c.id ∉ f.seen ∧ s.link? c.id = some c
  seen : ∀ id, id ∈ g.seen ↔ id ∈ f.seen ∨ id ∈ ids
  there : ∀ id ∈ ids, ∃ c, s.link? id = some c

theorem Frontier.takes_add? (h : f.add? s id = some g) : f.Takes s [id] g := by
  obtain ⟨c, hc, h⟩ := Option.bind_eq_some_iff.1 h
  have hid : c.id = id := id_of_link? hc
  have hthere : ∀ id' ∈ [id], ∃ c, s.link? id' = some c :=
    fun id' hid' => ⟨c, List.mem_singleton.1 hid' ▸ hc⟩
  split at h
  · rename_i hseen
    rw [List.contains_iff_mem] at hseen
    obtain rfl := Option.some.inj h
    refine ⟨fun d => ⟨.inl, ?_⟩, fun id' => ⟨.inl, ?_⟩, hthere⟩
    · rintro (hd | ⟨hd, hnew, -⟩)
      · exact hd
      · exact absurd (List.mem_singleton.1 hd ▸ hseen) hnew
    · rintro (hid' | hid')
      · exact hid'
      · exact List.mem_singleton.1 hid' ▸ hseen
  · rename_i hnew
    rw [List.contains_iff_mem] at hnew
    obtain rfl := Option.some.inj h
    refine ⟨fun d => ?_, fun id' => ?_, hthere⟩
    · rw [mem_enqueue, List.mem_singleton, or_comm]
      refine or_congr_right ⟨?_, ?_⟩
      · rintro rfl
        exact ⟨hid, hid.symm ▸ hnew, hid.symm ▸ hc⟩
      · rintro ⟨hd, -, hlink⟩
        rw [hd, hc] at hlink
        exact (Option.some.inj hlink).symm
    · rw [List.mem_cons, List.mem_singleton, or_comm]

theorem Frontier.takes_foldlM_add? {ids : List Id}
    (h : ids.foldlM (Frontier.add? s) f = some g) : f.Takes s ids g := by
  induction ids generalizing f with
  | nil =>
    obtain rfl := Option.some.inj h
    exact ⟨fun c => by simp, fun id => by simp, nofun⟩
  | cons id ids ih =>
    obtain ⟨f₁, hfirst, hrest⟩ := Option.bind_eq_some_iff.1 h
    have first := takes_add? hfirst
    have rest := ih hrest
    refine ⟨fun c => ?_, fun id' => ?_, ?_⟩
    · rw [rest.waiting, first.waiting, first.seen, List.mem_singleton, List.mem_cons]
      tauto
    · rw [rest.seen, first.seen, List.mem_singleton, List.mem_cons, or_assoc]
    · exact List.forall_mem_cons.2 ⟨first.there id (List.mem_singleton_self id), rest.there⟩

/-! ### A whole walk -/

/-- What a walk comes to that goes on from some waiting commits: it follows all of them, and
whatever they lead to, as far as it was not seen before. -/
structure Frontier.Explored (s : Store) (f : Frontier) (links : List Link) : Prop where
  waiting : ∀ c ∈ f.waiting, c ∈ links
  closed : ∀ c ∈ links, ∀ parent ∈ c.parents, parent ∈ f.seen ∨ ∃ d ∈ links, d.id = parent
  sound : ∀ c ∈ links, s.link? c.id = some c ∧ ∃ d ∈ f.waiting, s.LeadsTo d.id c.id

/-- One more commit has been followed: its parents have been come upon, and what waits then is
followed to its end. -/
theorem Frontier.Explored.cons {c : Link} {rest : List Link} {seen : List Id}
    (hc : s.link? c.id = some c) (takes : Frontier.Takes s ⟨rest, seen⟩ c.parents g)
    (next : g.Explored s links) : Frontier.Explored s ⟨c :: rest, seen⟩ (c :: links) := by
  -- A parent that was not seen before waits next, and is followed later.
  have hparent : ∀ parent ∈ c.parents, parent ∈ seen ∨ ∃ d ∈ c :: links, d.id = parent := by
    intro parent hparent
    by_cases hseen : parent ∈ seen
    · exact .inl hseen
    · obtain ⟨d, hd⟩ := takes.there parent hparent
      obtain rfl := id_of_link? hd
      have hnext : d ∈ g.waiting := (takes.waiting d).2 (.inr ⟨hparent, hseen, hd⟩)
      exact .inr ⟨d, List.mem_cons_of_mem c (next.waiting d hnext), rfl⟩
  constructor
  · intro d hd
    rcases List.mem_cons.1 hd with rfl | hd
    · exact List.mem_cons_self
    · exact List.mem_cons_of_mem c (next.waiting d ((takes.waiting d).2 (.inl hd)))
  · intro d hd parent hmem
    rcases List.mem_cons.1 hd with rfl | hd
    · exact hparent parent hmem
    rcases next.closed d hd parent hmem with hseen | ⟨e, he, rfl⟩
    · rcases (takes.seen parent).1 hseen with hseen | hmem
      · exact .inl hseen
      · exact hparent parent hmem
    · exact .inr ⟨e, List.mem_cons_of_mem c he, rfl⟩
  · intro d hd
    rcases List.mem_cons.1 hd with rfl | hd
    · exact ⟨hc, d, List.mem_cons_self, .refl⟩
    obtain ⟨hlink, e, he, hleads⟩ := next.sound d hd
    refine ⟨hlink, ?_⟩
    rcases (takes.waiting e).1 he with he | ⟨he, -, -⟩
    · exact ⟨e, List.mem_cons_of_mem c he, hleads⟩
    · exact ⟨c, List.mem_cons_self, .head ⟨c, hc, he⟩ hleads⟩

/-- A walk with room for every object that is left comes upon all that the waiting commits lead
to. -/
theorem explored_of_gather? {room : Nat} (found : f.IsFound s)
    (hwaiting : ∀ c ∈ f.waiting, s.link? c.id = some c)
    (henough : f.waiting.length + s.objects.size < room + f.seen.length)
    (h : s.gather? room f = some links) : f.Explored s links := by
  induction room generalizing f links with
  | zero =>
    have := found.length_seen_le
    omega
  | succ room ih =>
    obtain ⟨waiting, seen⟩ := f
    cases waiting with
    | nil =>
      obtain rfl := Option.some.inj h
      exact ⟨nofun, nofun, nofun⟩
    | cons c rest =>
      obtain ⟨g, hfold, h⟩ := Option.bind_eq_some_iff.1 h
      obtain ⟨links', hlinks, h⟩ := Option.bind_eq_some_iff.1 h
      obtain rfl := Option.some.inj h
      obtain ⟨hc, hrest⟩ := List.forall_mem_cons.1 hwaiting
      have found' : Frontier.IsFound s ⟨rest, seen⟩ := ⟨found.nodup, found.there⟩
      obtain ⟨foundNext, hspends⟩ := Frontier.isFound_foldlM_add? found' hfold
      have takes := Frontier.takes_foldlM_add? hfold
      refine .cons hc takes (ih foundNext (fun d hd => ?_) ?_ hlinks)
      · rcases (takes.waiting d).1 hd with hd | ⟨-, -, hd⟩
        · exact hrest d hd
        · exact hd
      · simp only [Frontier.Spends, List.length_cons] at hspends henough
        omega

/-- A walk begins with its start, and comes upon exactly the commits that this leads to. -/
theorem mem_reachable?_iff (h : s.reachable? id = some links) :
    (∃ c rest, links = c :: rest ∧ c.id = id) ∧
      ∀ c, c ∈ links ↔ s.link? c.id = some c ∧ s.LeadsTo id c.id := by
  obtain ⟨f, hf, h⟩ := Option.bind_eq_some_iff.1 h
  have nothing : Frontier.IsFound s ⟨[], []⟩ := ⟨List.nodup_nil, nofun⟩
  obtain ⟨found, hspends⟩ := Frontier.isFound_add? nothing hf
  obtain ⟨start, hstart, hf⟩ := Option.bind_eq_some_iff.1 hf
  obtain rfl : f = ⟨[start], [id]⟩ := (Option.some.inj hf).symm
  obtain rfl := id_of_link? hstart
  have hwaiting : ∀ c ∈ [start], s.link? c.id = some c :=
    fun c hc => List.mem_singleton.1 hc ▸ hstart
  have explored : Frontier.Explored s ⟨[start], [start.id]⟩ links := by
    refine explored_of_gather? found hwaiting ?_ h
    simp only [List.length_cons, List.length_nil]
    omega
  have hmem : start ∈ links := explored.waiting start (List.mem_singleton_self start)
  refine ⟨?_, fun c => ⟨fun hc => ?_, fun ⟨hlink, hleads⟩ => ?_⟩⟩
  · obtain ⟨g, -, h⟩ := Option.bind_eq_some_iff.1 h
    obtain ⟨rest, -, h⟩ := Option.bind_eq_some_iff.1 h
    exact ⟨start, rest, (Option.some.inj h).symm, rfl⟩
  · obtain ⟨hlink, d, hd, hleads⟩ := explored.sound c hc
    rw [List.mem_singleton.1 hd] at hleads
    exact ⟨hlink, hleads⟩
  · -- Along a way through parents, the walk never leaves what it has come upon.
    suffices ∀ id', s.LeadsTo start.id id' → ∃ d ∈ links, d.id = id' by
      obtain ⟨d, hd, hid⟩ := this c.id hleads
      have hd' := (explored.sound d hd).1
      rw [hid, hlink] at hd'
      exact Option.some.inj hd' ▸ hd
    intro id' hleads
    induction hleads with
    | refl => exact ⟨start, hmem, rfl⟩
    | tail _ hparent ih =>
      obtain ⟨d, hd, hdid⟩ := ih
      obtain ⟨e, he, hparent⟩ := hparent
      have hd' := (explored.sound d hd).1
      rw [hdid, he] at hd'
      obtain rfl := Option.some.inj hd'
      rcases explored.closed e hd _ hparent with hseen | hnext
      · exact ⟨start, hmem, (List.mem_singleton.1 hseen).symm⟩
      · exact hnext

/-! ### Logs -/

theorem ranks_isNewer : Heap.Ranks isNewer where
  asymm h := by
    simp only [isNewer, decide_eq_true_eq, decide_eq_false_iff_not] at h ⊢
    omega
  split h := by
    simp only [isNewer, decide_eq_true_eq] at h ⊢
    omega

/-- The log of a ref begins with a commit that the commit of the ref leads to, and that none of
these is later than. It is the commit of the ref itself if none of them is later than that. -/
theorem exists_head?_log {ref : String} {commits : List CommitId} (htip : s.tip ref = .ok id)
    (h : s.log ref = .ok commits) :
    ∃ first, commits.head? = some first.hex ∧ s.LeadsTo id first ∧
      (∀ a, s.LeadsTo id a → ¬ s.IsLater a first) ∧
      ((∀ a, s.LeadsTo id a → ¬ s.IsLater a id) → first = id) := by
  obtain ⟨start, hstart, h⟩ := bind_eq_ok_iff.1 h
  obtain rfl := Except.ok.inj (htip.symm.trans hstart)
  cases hlinks : s.reachable? id with
  | none =>
    rw [hlinks] at h
    cases h
  | some links =>
    rw [hlinks] at h
    obtain ⟨⟨c, rest, rfl, rfl⟩, hmem⟩ := mem_reachable?_iff hlinks
    obtain ⟨first, hhead, hfirst, hnone, hstays⟩ := Heap.exists_head?_sorted ranks_isNewer c rest
    obtain ⟨hlink, hleads⟩ := (hmem first).1 hfirst
    refine ⟨first.id, ?_, hleads, ?_, fun hnot => ?_⟩
    · rw [← Except.ok.inj h, List.head?_map, hhead]
      rfl
    · rintro a ha ⟨d, e, hd, he, htime⟩
      obtain rfl := id_of_link? hd
      obtain rfl : first = e := Option.some.inj (hlink.symm.trans he)
      exact Bool.eq_false_iff.1 (hnone d ((hmem d).2 ⟨hd, ha⟩)) (decide_eq_true htime)
    · refine congrArg Link.id (hstays fun d hd => Bool.eq_false_iff.2 fun hnewer => ?_)
      obtain ⟨hlink, hleads⟩ := (hmem d).1 (List.mem_cons_of_mem c hd)
      have hc := ((hmem c).1 List.mem_cons_self).1
      exact hnot d.id hleads ⟨d, c, hlink, hc, of_decide_eq_true hnewer⟩

end ReleaseRecovery.Git.Store
