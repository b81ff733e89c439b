import Mathlib.Data.List.Perm.Subperm
import ReleaseRecovery.Git.Log
import ReleaseRecovery.Proofs.Calculations

/-!
# Repositories that have grown

A store of objects and refs may have got more of both. What was found before is found again, and a
walk through the history comes to the same, since the number of objects is room enough for it.

## Main Definitions

* `Git.Store.Within` — one store has all objects and refs of another one
* `Git.Store.Confirms` — whatever one answer says, another one says, too
* `Git.Store.Frontier.IsFound` — a walk has come upon commits that are there, each once

## Main Statements

* `Git.Store.Within.draft`, `Git.Store.Within.followName` — what a larger store says again
* `Git.Store.Within.reachable?` — a walk that got to its end comes to the same in a larger store
* `Git.Store.Within.log` — so does a log, if the name of its ref still stands for the same
-/

namespace ReleaseRecovery

/-! ### Keys -/

namespace SortedMap

variable {α : Type}

/-- There are not more keys than entries. -/
theorem length_le_size {m : SortedMap α} {keys : List String} (nodup : keys.Nodup)
    (h : ∀ key ∈ keys, ∃ value, m.get? key = some value) : keys.length ≤ m.size := by
  rw [← length_keys]
  exact (List.subperm_of_subset nodup fun key hkey => mem_keys_iff.2 (h key hkey)).length_le

/-- What is found is found again once another value stands under a key that was free. -/
theorem get?_insert_of_free {m : SortedMap α} {key free : String} {value other : α}
    (hfree : m.get? free = none) (h : m.get? key = some value) :
    (m.insert free other).get? key = some value := by
  have hne : key ≠ free := fun heq => by
    rw [heq, hfree] at h
    cases h
  rw [get?_insert, if_neg hne, h]

end SortedMap

namespace Git.Store

/-- All objects and all refs of one store are there in another one. -/
structure Within (s t : Store) : Prop where
  objects : ∀ hex o, s.objects.get? hex = some o → t.objects.get? hex = some o
  refs : ∀ name target, s.refs.get? name = some target → t.refs.get? name = some target

/-- Whatever one answer says, another one says, too. What was refused may be answered now. -/
def Confirms {ε α : Type} (later earlier : Except ε α) : Prop :=
  ∀ a, earlier = .ok a → later = .ok a

namespace Confirms

variable {ε α β : Type}

theorem refl (x : Except ε α) : Confirms x x := fun _ h => h

theorem error (x : Except ε α) (e : ε) : Confirms x (.error e) := by
  intro a h
  cases h

theorem bind {x x' : Except ε α} {f f' : α → Except ε β} (h : Confirms x' x)
    (hf : ∀ a, Confirms (f' a) (f a)) : Confirms (x' >>= f') (x >>= f) := by
  intro b hb
  obtain ⟨a, ha, hb⟩ := bind_eq_ok_iff.1 hb
  exact bind_eq_ok_iff.2 ⟨a, h a ha, hf a b hb⟩

end Confirms

namespace Within

variable {s t u : Store}

theorem refl (s : Store) : Within s s := ⟨fun _ _ h => h, fun _ _ h => h⟩

theorem trans (h : Within s t) (h' : Within t u) : Within s u :=
  ⟨fun hex o ho => h'.objects hex o (h.objects hex o ho),
    fun name target ht => h'.refs name target (h.refs name target ht)⟩

/-! ### Objects -/

theorem object? (h : Within s t) {id : Id} {o : Object} (ho : s.object? id = some o) :
    t.object? id = some o := by
  unfold Store.object? at ho ⊢
  split at ho
  · rename_i hempty
    rw [if_pos hempty, ho]
  · rename_i hempty
    rw [if_neg hempty]
    exact h.objects _ _ ho

theorem find {α : Type} (h : Within s t) (kind : ObjectKind) (read? : Bytes → Option α) (id : Id)
    (given : String) : Confirms (t.find kind read? id given) (s.find kind read? id given) := by
  intro a ha
  unfold Store.find at ha ⊢
  cases ho : s.object? id with
  | none =>
    rw [ho] at ha
    dsimp only at ha
    split at ha <;> cases ha
  | some o =>
    rw [ho] at ha
    rw [h.object? ho]
    exact ha

/-- A commit that could be made can be made again. -/
theorem draft (h : Within s t) (c : NewCommit) : Confirms (t.draft c) (s.draft c) := by
  unfold Store.draft
  refine (Confirms.refl _).bind fun treeId => (Confirms.refl _).bind fun parentId => ?_
  split
  · exact .error _ _
  refine (h.find _ _ _ _).bind fun _ => ?_
  -- The parent is looked up before the message is looked at.
  split
  · split
    · exact (h.find _ _ _ _).bind fun _ => .error _ _
    · exact .error _ _
  · split
    · exact (h.find _ _ _ _).bind fun _ => .refl _
    · exact .refl _

theorem objects_size_le (h : Within s t) : s.objects.size ≤ t.objects.size := by
  rw [← SortedMap.length_keys]
  refine SortedMap.length_le_size s.objects.nodup_keys fun hex hhex => ?_
  obtain ⟨o, ho⟩ := SortedMap.mem_keys_iff.1 hhex
  exact ⟨o, h.objects hex o ho⟩

theorem peelAs? (h : Within s t) {room room' : Nat} (hroom : room ≤ room')
    {kind : Option ObjectKind} {id commit : Id} (hs : s.peelAs? room kind id = some commit) :
    t.peelAs? room' kind id = some commit := by
  induction room generalizing room' kind id with
  | zero => cases hs
  | succ room ih =>
    obtain ⟨room', rfl⟩ : ∃ n, room' = n + 1 := ⟨room' - 1, by omega⟩
    have hroom := Nat.le_of_succ_le_succ hroom
    obtain ⟨o, ho, hs⟩ := Option.bind_eq_some_iff.1 hs
    refine Option.bind_eq_some_iff.2 ⟨o, h.object? ho, ?_⟩
    split at hs
    · cases hs
    rename_i hkind
    rw [if_neg hkind]
    split at hs
    · rename_i hcommit
      rw [if_pos hcommit, hs]
    rename_i hcommit
    rw [if_neg hcommit]
    split at hs
    · rename_i htag
      rw [if_pos htag]
      obtain ⟨note, hnote, hs⟩ := Option.bind_eq_some_iff.1 hs
      exact Option.bind_eq_some_iff.2 ⟨note, hnote, ih hroom hs⟩
    · cases hs

theorem peel? (h : Within s t) {id commit : Id} (hs : s.peel? id = some commit) :
    t.peel? id = some commit :=
  h.peelAs? (Nat.succ_le_succ h.objects_size_le) hs

/-! ### Refs -/

theorem lookUp (h : Within s t) (name : String) : Confirms (t.lookUp name) (s.lookUp name) :=
  fun _ htarget => lookUp_eq_ok_iff.2 (h.refs _ _ (lookUp_eq_ok_iff.1 htarget))

theorem follow (h : Within s t) (room : Nat) (target : RefTarget) :
    Confirms (t.follow room target) (s.follow room target) := by
  induction room generalizing target with
  | zero =>
    intro id hid
    cases target with
    | object => exact hid
    | ref => cases hid
  | succ room ih =>
    cases target with
    | object => exact .refl _
    | ref name =>
      intro id hid
      unfold Store.follow at hid ⊢
      cases hname : s.lookUp name with
      | error e =>
        rw [hname] at hid
        cases hid
      | ok next =>
        rw [hname] at hid
        rw [h.lookUp name next hname]
        exact ih next id hid

theorem followName (h : Within s t) (name : String) :
    Confirms (t.followName name) (s.followName name) :=
  (h.lookUp name).bind fun target => h.follow maxRefs target

theorem pointsAt? (h : Within s t) {target : RefTarget} {commit : Id}
    (hs : s.pointsAt? target = some commit) : t.pointsAt? target = some commit := by
  cases target with
  | object id => exact h.peel? hs
  | ref name =>
    unfold Store.pointsAt? at hs ⊢
    dsimp only at hs ⊢
    cases hname : s.followName name with
    | error e =>
      rw [hname] at hs
      cases hs
    | ok id =>
      rw [hname] at hs
      rw [h.followName name id hname]
      exact h.peel? hs

end Within

/-! ### Walking through the history -/

/-- A walk has come upon commits that are there, each of them once. -/
structure Frontier.IsFound (s : Store) (f : Frontier) : Prop where
  nodup : f.seen.Nodup
  there : ∀ id ∈ f.seen, ∃ o, s.objects.get? id.hex = some o

/-- Every commit that a walk has come upon waits, or has been followed. -/
def Frontier.Spends (f g : Frontier) : Prop :=
  g.waiting.length + f.seen.length = f.waiting.length + g.seen.length

/-- A walk cannot come upon more commits than there are objects. -/
theorem Frontier.IsFound.length_seen_le {s : Store} {f : Frontier} (found : f.IsFound s) :
    f.seen.length ≤ s.objects.size := by
  have hnodup : (f.seen.map Id.hex).Nodup :=
    List.pairwise_map.2 (found.nodup.imp fun hne heq => hne (Id.hex_inj.1 heq))
  rw [← List.length_map Id.hex]
  refine SortedMap.length_le_size hnodup fun hex hhex => ?_
  obtain ⟨id, hid, rfl⟩ := List.mem_map.1 hhex
  exact found.there id hid

@[simp] theorem length_enqueue (c : Link) (l : List Link) :
    (enqueue c l).length = l.length + 1 := by
  fun_induction enqueue c l with
  | case1 => rfl
  | case2 => rfl
  | case3 d rest hnewer ih => rw [List.length_cons, ih, List.length_cons]

/-- A commit that a walk comes upon is one of the objects. -/
theorem object?_of_link? {s : Store} {id : Id} {c : Link} (h : s.link? id = some c) :
    ∃ o, s.objects.get? id.hex = some o := by
  obtain ⟨o, ho, h⟩ := Option.bind_eq_some_iff.1 h
  unfold object? at ho
  split at ho
  · -- The directory without entries is no commit.
    obtain rfl := Option.some.inj ho
    rw [if_neg (by decide)] at h
    cases h
  · exact ⟨o, ho⟩

section Walk

variable {s t : Store} {f g : Frontier}

theorem Frontier.isFound_add? (found : f.IsFound s) {id : Id} (h : f.add? s id = some g) :
    g.IsFound s ∧ f.Spends g := by
  obtain ⟨c, hc, h⟩ := Option.bind_eq_some_iff.1 h
  split at h
  · obtain rfl := Option.some.inj h
    exact ⟨found, rfl⟩
  · rename_i hnew
    obtain rfl := Option.some.inj h
    have hnew : id ∉ f.seen := fun hmem => hnew (List.contains_iff_mem.2 hmem)
    refine ⟨⟨List.nodup_cons.2 ⟨hnew, found.nodup⟩, ?_⟩, ?_⟩
    · exact List.forall_mem_cons.2 ⟨object?_of_link? hc, found.there⟩
    · simp only [Spends, length_enqueue, List.length_cons]
      omega

theorem Frontier.isFound_foldlM_add? (found : f.IsFound s) {ids : List Id}
    (h : ids.foldlM (Frontier.add? s) f = some g) : g.IsFound s ∧ f.Spends g := by
  induction ids generalizing f with
  | nil =>
    obtain rfl := Option.some.inj h
    exact ⟨found, rfl⟩
  | cons id ids ih =>
    obtain ⟨f₁, hfirst, hrest⟩ := Option.bind_eq_some_iff.1 h
    obtain ⟨found₁, hspends⟩ := isFound_add? found hfirst
    obtain ⟨found₂, hspends'⟩ := ih found₁ hrest
    refine ⟨found₂, ?_⟩
    simp only [Spends] at hspends hspends' ⊢
    omega

theorem Within.link? (h : Within s t) {id : Id} {c : Link} (hc : s.link? id = some c) :
    t.link? id = some c := by
  obtain ⟨o, ho, hc⟩ := Option.bind_eq_some_iff.1 hc
  exact Option.bind_eq_some_iff.2 ⟨o, h.object? ho, hc⟩

theorem Within.add? (h : Within s t) {id : Id} (hs : f.add? s id = some g) :
    f.add? t id = some g := by
  obtain ⟨c, hc, hs⟩ := Option.bind_eq_some_iff.1 hs
  exact Option.bind_eq_some_iff.2 ⟨c, h.link? hc, hs⟩

theorem Within.foldlM_add? (h : Within s t) {ids : List Id}
    (hs : ids.foldlM (Frontier.add? s) f = some g) : ids.foldlM (Frontier.add? t) f = some g := by
  induction ids generalizing f with
  | nil => exact hs
  | cons id ids ih =>
    obtain ⟨f₁, hfirst, hrest⟩ := Option.bind_eq_some_iff.1 hs
    exact Option.bind_eq_some_iff.2 ⟨f₁, h.add? hfirst, ih hrest⟩

/-- A walk that has room for every object that is left comes to the same with more room, and in a
larger store. -/
theorem Within.gather? (h : Within s t) {room room' : Nat} {links : List Link}
    (found : f.IsFound s) (henough : f.waiting.length + s.objects.size < room + f.seen.length)
    (hroom : room ≤ room') (hs : s.gather? room f = some links) :
    t.gather? room' f = some links := by
  induction room generalizing room' f links with
  | zero =>
    have := found.length_seen_le
    omega
  | succ room ih =>
    obtain ⟨room', rfl⟩ : ∃ n, room' = n + 1 := ⟨room' - 1, by omega⟩
    obtain ⟨waiting, seen⟩ := f
    cases waiting with
    | nil => exact hs
    | cons c rest =>
      obtain ⟨g, hfold, hs⟩ := Option.bind_eq_some_iff.1 hs
      obtain ⟨links', hlinks, hs⟩ := Option.bind_eq_some_iff.1 hs
      have found' : Frontier.IsFound s ⟨rest, seen⟩ := ⟨found.nodup, found.there⟩
      obtain ⟨foundNext, hspends⟩ := Frontier.isFound_foldlM_add? found' hfold
      refine Option.bind_eq_some_iff.2 ⟨g, h.foldlM_add? hfold, ?_⟩
      refine Option.bind_eq_some_iff.2 ⟨links', ih foundNext ?_ (by omega) hlinks, hs⟩
      simp only [Frontier.Spends, List.length_cons] at hspends henough
      omega

/-- A walk that got to its end comes to the same in a larger store. -/
theorem Within.reachable? (h : Within s t) {id : Id} {links : List Link}
    (hs : s.reachable? id = some links) : t.reachable? id = some links := by
  obtain ⟨f, hf, hs⟩ := Option.bind_eq_some_iff.1 hs
  have nothing : Frontier.IsFound s ⟨[], []⟩ := ⟨List.nodup_nil, nofun⟩
  obtain ⟨found, hspends⟩ := Frontier.isFound_add? nothing hf
  refine Option.bind_eq_some_iff.2 ⟨f, h.add? hf, ?_⟩
  refine h.gather? found ?_ (Nat.succ_le_succ h.objects_size_le) hs
  simp only [Frontier.Spends, List.length_nil] at hspends
  omega

/-- A log that was told is told again, if the name of the ref still stands for the same object. -/
theorem Within.log (h : Within s t) {ref : String} (hsame : t.resolve ref = s.resolve ref) :
    Confirms (t.log ref) (s.log ref) := by
  have htip : Confirms (t.tip ref) (s.tip ref) := by
    intro commit hcommit
    unfold tip at hcommit ⊢
    rw [hsame]
    split at hcommit
    · cases hcommit
    · cases hcommit
    · rename_i id hid
      cases hpeel : s.peel? id with
      | none =>
        rw [hpeel] at hcommit
        cases hcommit
      | some c =>
        rw [hpeel] at hcommit
        rw [h.peel? hpeel]
        exact hcommit
  refine htip.bind fun start => ?_
  cases hlinks : s.reachable? start with
  | none => exact .error _ _
  | some links =>
    rw [h.reachable? hlinks]
    exact .refl _

end Walk

end Git.Store

end ReleaseRecovery
