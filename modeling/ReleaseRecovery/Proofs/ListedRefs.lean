import Mathlib.Data.List.TakeWhile
import ReleaseRecovery.Proofs.Ancestry
import ReleaseRecovery.Proofs.Rerunning
import ReleaseRecovery.Proofs.Truncation

/-!
# The histories of listed refs

Refs are listed under short names, and a short name is followed to whichever ref it stands for. It
stands for the ref that is listed if no name that comes before that of the ref leads anywhere. The
history under the short name then begins with the commit of the ref, unless that leads to a commit
that was committed later.

## Main Definitions

* `Git.Store.IsUnshadowed` — no other ref comes before a ref under its short name

## Main Statements

* `head?_truncated` — a history begins as the log does
* `Git.Store.tip_of_isUnshadowed` — what the short name of a ref stands for
* `Git.Store.collect_listed` — the first commit of the history of a listed ref
* `Git.Store.not_forall_collect_listed` — it need not be the commit of the ref
-/

namespace ReleaseRecovery

/-! ### Collected histories -/

theorem head?_upTo {α : Type} (stop : α → Bool) (l : List α) : (upTo stop l).head? = l.head? := by
  cases l with
  | nil => rfl
  | cons a rest =>
    rw [upTo]
    split <;> rfl

/-- A history begins as the log does. -/
theorem head?_truncated (terminators log : List CommitId) :
    (truncated terminators log).head? = log.head? := by
  rw [truncated, ← head?_upTo terminators.contains log]
  cases upTo terminators.contains log with
  | nil => rfl
  | cons c rest => rw [List.eraseDups_cons, List.head?_cons, List.head?_cons]

namespace Git

/-! ### Short names -/

namespace RefName

theorem eq_append_of_after? {start name rest : String} (h : after? start name = some rest) :
    name = start ++ rest := by
  rw [after?] at h
  split at h
  · rename_i hstart
    obtain ⟨tail, htail⟩ := List.isPrefixOf_iff_prefix.1 hstart
    obtain rfl := Option.some.inj h
    rw [← String.toList_inj, String.toList_append, String.toList_ofList, ← htail, List.drop_left]
  · cases h

/-- The short name of a ref is what follows one of four beginnings. -/
theorem exists_start_of_short {full : String} (hbelow : isBelow "refs" full = true) :
    ∃ start ∈ ["refs/heads/", "refs/tags/", "refs/remotes/", "refs/"],
      full = start ++ short full := by
  have hrefs : after? "refs/" full = some (String.ofList (full.toList.drop 5)) := if_pos hbelow
  cases hfound : ["refs/heads/", "refs/tags/", "refs/remotes/", "refs/"].findSome?
      (after? · full) with
  | none =>
    have hnone := List.findSome?_eq_none_iff.1 hfound "refs/" (by decide)
    rw [hrefs] at hnone
    cases hnone
  | some rest =>
    obtain ⟨start, hstart, hrest⟩ := List.exists_of_findSome?_eq_some hfound
    refine ⟨start, hstart, ?_⟩
    rw [short, hfound]
    exact eq_append_of_after? hrest

/-- A ref is among those that its short name can stand for. -/
theorem mem_candidates_short {full : String} (hbelow : isBelow "refs" full = true)
    (hvalid : isValid full = true) : full ∈ candidates (short full) := by
  obtain ⟨start, hstart, hfull⟩ := exists_start_of_short hbelow
  have hne : short full ≠ "" := by
    intro hempty
    rw [hempty, String.append_empty] at hfull
    have hinvalid : ∀ start ∈ ["refs/heads/", "refs/tags/", "refs/remotes/", "refs/"],
        isValid start = false := by decide
    rw [hfull, hinvalid start hstart] at hvalid
    cases hvalid
  rw [candidates, if_neg hne]
  simp only [List.mem_cons, List.not_mem_nil, or_false] at hstart ⊢
  rcases hstart with rfl | rfl | rfl | rfl
  · exact .inr (.inr (.inr (.inl hfull)))
  · exact .inr (.inr (.inl hfull))
  · exact .inr (.inr (.inr (.inr (.inl hfull))))
  · exact .inr (.inl hfull)

/-- The names that a short name can stand for are longer and longer. -/
theorem pairwise_candidates (name : String) :
    (candidates name).Pairwise fun a b => a.utf8ByteSize < b.utf8ByteSize := by
  rw [candidates]
  split
  · exact List.pairwise_singleton ..
  · obtain ⟨hrefs, htags, hheads, hremotes, hhead⟩ : "refs/".utf8ByteSize = 5 ∧
        "refs/tags/".utf8ByteSize = 10 ∧ "refs/heads/".utf8ByteSize = 11 ∧
        "refs/remotes/".utf8ByteSize = 13 ∧ "/HEAD".utf8ByteSize = 5 := ⟨rfl, rfl, rfl, rfl, rfl⟩
    simp only [List.pairwise_cons, List.mem_cons, List.not_mem_nil, or_false, forall_eq_or_imp,
      forall_eq, String.utf8ByteSize_append, hrefs, htags, hheads, hremotes, hhead, false_implies,
      implies_true, List.Pairwise.nil, and_true]
    omega

theorem fits_of_lt {name full : String} (hfits : fits full = true)
    (hlt : name.utf8ByteSize < full.utf8ByteSize) : fits name = true :=
  decide_eq_true (Nat.lt_trans hlt (of_decide_eq_true hfits))

/-- The names that come before another one are shorter. -/
theorem size_lt_of_mem_takeWhile {short full name : String} (hmem : full ∈ candidates short)
    (hname : name ∈ (candidates short).takeWhile (· != full)) :
    name.utf8ByteSize < full.utf8ByteSize := by
  have hpairwise := pairwise_candidates short
  rw [← List.takeWhile_append_dropWhile (p := (· != full)) (l := candidates short)]
    at hmem hpairwise
  have hrest : full ∈ (candidates short).dropWhile (· != full) := by
    refine (List.mem_append.1 hmem).resolve_left fun hbefore => ?_
    have hne : (full != full) = true := List.mem_takeWhile_imp (p := (· != full)) hbefore
    exact bne_iff_ne.1 hne rfl
  exact (List.pairwise_append.1 hpairwise).2.2 name hname full hrest

end RefName

namespace Store

variable {s : Store} {full : String} {id c : Id}

/-- No name that comes before the full name of a ref, among those that its short name can stand for,
leads anywhere. -/
structure IsUnshadowed (s : Store) (full : String) : Prop where
  valid : RefName.isValid full = true
  fits : RefName.fits full = true
  free : ∀ name ∈ (RefName.candidates (RefName.short full)).takeWhile (· != full),
    RefName.isValid name = true → s.followName name = .error .missing

theorem followName_of_object (hget : s.refs.get? full = some (.object id)) :
    s.followName full = .ok id := by
  rw [followName, lookUp_eq_ok_iff.2 hget]
  rfl

/-- The first name that leads anywhere counts. -/
theorem firstOf_eq_ok {names : List String} {last : NoObject} (hmem : full ∈ names)
    (hvalid : RefName.isValid full = true) (hfits : RefName.fits full = true)
    (hfull : s.followName full = .ok id)
    (hbefore : ∀ name ∈ names.takeWhile (· != full),
      RefName.fits name = true ∧
        (RefName.isValid name = true → s.followName name = .error .missing)) :
    s.firstOf last names = .ok id := by
  induction names generalizing last with
  | nil => cases hmem
  | cons name rest ih =>
    by_cases heq : name = full
    · subst heq
      rw [firstOf, hvalid, hfits, hfull]
      rfl
    · have hrest : full ∈ rest := (List.mem_cons.1 hmem).resolve_left (Ne.symm heq)
      have htake : (name :: rest).takeWhile (· != full) = name :: rest.takeWhile (· != full) :=
        List.takeWhile_cons_of_pos (bne_iff_ne.2 heq)
      rw [htake, List.forall_mem_cons] at hbefore
      obtain ⟨⟨hshort, hmissing⟩, hbefore⟩ := hbefore
      rw [firstOf]
      by_cases hname : RefName.isValid name = true
      · rw [hname, hshort, hmissing hname]
        exact ih hrest hbefore
      · rw [Bool.not_eq_true] at hname
        rw [hname]
        exact ih hrest hbefore

/-- The short name of a ref stands for its commit if no other ref comes before it. -/
theorem tip_of_isUnshadowed (unshadowed : s.IsUnshadowed full)
    (hbelow : RefName.isBelow "refs" full = true)
    (hget : s.refs.get? full = some (.object id)) (hpeel : s.peel? id = some c) :
    s.tip (RefName.short full) = .ok c := by
  have hmem := RefName.mem_candidates_short hbelow unshadowed.valid
  have hresolve : s.resolve (RefName.short full) = .ok id := by
    refine firstOf_eq_ok hmem unshadowed.valid unshadowed.fits (followName_of_object hget)
      fun name hname => ⟨?_, unshadowed.free name hname⟩
    exact RefName.fits_of_lt unshadowed.fits (RefName.size_lt_of_mem_takeWhile hmem hname)
  rw [tip, hresolve]
  dsimp only
  rw [hpeel]

/-! ### Listed refs -/

/-- A direct ref is listed under its short name, and a history is collected under that. If the short
name stands for the commit of the ref, as it does if no other ref comes before it, the history
begins with one of the commits that this commit leads to, none of which is later: with the commit
itself exactly if none of them is later than that. -/
theorem collect_listed {layout : Layout} {histories : SortedMap BranchHistory}
    {done : List Action} (hget : s.refs.get? full = some (.object id))
    (hbelow : RefName.isBelow "refs" full = true)
    (hstart : (RefName.short full).startsWith layout.start = true)
    (hpeel : s.peel? id = some c)
    (h : ((collect s layout).after done).1 = .ok histories) :
    ∃ history, histories.get? (RefName.short full) = some history ∧
      history.refName = RefName.short full ∧
      (s.IsUnshadowed full → s.tip (RefName.short full) = .ok c) ∧
      (s.tip (RefName.short full) = .ok c →
        (∃ first, history.commits.head? = some first.hex ∧ s.LeadsTo c first ∧
          ∀ a, s.LeadsTo c a → ¬ s.IsLater a first) ∧
        (history.commits.head? = some c.hex ↔ ∀ a, s.LeadsTo c a → ¬ s.IsLater a c)) := by
  obtain ⟨line, -, hall⟩ := get?_of_collect h rfl
  have hlisted : RefName.short full ∈ s.shortNames layout.start :=
    mem_shortNames_iff.2 ⟨hstart, full, id, hget, hbelow, rfl⟩
  obtain ⟨log, hlog, hhistory⟩ := hall _ (List.mem_cons_of_mem _ hlisted)
  refine ⟨_, hhistory, rfl, fun unshadowed => tip_of_isUnshadowed unshadowed hbelow hget hpeel,
    fun htip => ?_⟩
  obtain ⟨first, hfirst, hleads, hnone, hown⟩ := exists_head?_log htip hlog
  dsimp only
  rw [head?_truncated, hfirst]
  refine ⟨⟨first, rfl, hleads, hnone⟩, fun hc => ?_, fun hnot => by rw [hown hnot]⟩
  obtain rfl := Id.hex_inj.1 (Option.some.inj hc)
  exact hnone

/-- A commit without parents leads to itself alone. -/
theorem eq_of_leadsTo {a b : Id} {time : Int} (hlink : s.link? a = some ⟨a, [], time⟩)
    (h : s.LeadsTo a b) : b = a := by
  rcases Relation.ReflTransGen.cases_head h with heq | ⟨e, ⟨d, hd, he⟩, -⟩
  · exact heq.symm
  · rw [← Option.some.inj (hlink.symm.trans hd)] at he
    cases he

theorem not_isLater_self (s : Store) (a : Id) : ¬ s.IsLater a a := by
  rintro ⟨d, e, hd, he, hlt⟩
  obtain rfl := Option.some.inj (hd.symm.trans he)
  exact Int.lt_irrefl d.time hlt

/-- The layout of an imported line. -/
def importedLayout : Layout := ⟨"svn/", "svn/trunk"⟩

/-- The ref of the release. -/
def releaseRef : String := "refs/remotes/svn/tags/v0.9"

theorem short_releaseRef : RefName.short releaseRef = "svn/tags/v0.9" := by decide

/-- The ref of the release is one of those that are looked at. -/
theorem isListed_releaseRef : RefName.isBelow "refs" releaseRef = true ∧
    (RefName.short releaseRef).startsWith importedLayout.start = true := by
  refine ⟨by decide, ?_⟩
  rw [short_releaseRef]
  exact String.startsWith_string_iff.2 (by decide)

/-- The ref of the release stands for its commit, which has no parents. -/
theorem stored_releaseRef :
    imported.refs.get? releaseRef = some (.object (idOf releaseCommit)) ∧
      imported.peel? (idOf releaseCommit) = some (idOf releaseCommit) ∧
      imported.link? (idOf releaseCommit) = some ⟨idOf releaseCommit, [], 1000000060⟩ := by
  decide +kernel

/-- The history of the imported release begins with its commit. -/
theorem collect_listed_imported :
    imported.IsUnshadowed releaseRef ∧
      ∃ histories history, ((collect imported importedLayout).after []).1 = .ok histories ∧
        histories.get? (RefName.short releaseRef) = some history ∧
        history.commits.head? = some (idOf releaseCommit).hex := by
  have unshadowed : imported.IsUnshadowed releaseRef :=
    ⟨by decide, by decide, by decide +kernel⟩
  have hcollect : ((collect imported importedLayout).after []).1 =
      .ok (.ofList [("svn/tags/v0.9", ⟨"svn/tags/v0.9", [releaseCommit]⟩),
        ("svn/trunk", ⟨"svn/trunk", [importedCommit]⟩)]) := by
    decide +kernel
  obtain ⟨hbelow, hstart⟩ := isListed_releaseRef
  obtain ⟨hget, hpeel, hlink⟩ := stored_releaseRef
  obtain ⟨history, hhistory, -, htip, hfirst⟩ :=
    collect_listed hget hbelow hstart hpeel hcollect
  refine ⟨unshadowed, _, history, hcollect, hhistory,
    ((hfirst (htip unshadowed)).2).2 ?_⟩
  intro a ha
  rw [eq_of_leadsTo hlink ha]
  exact not_isLater_self _ _

/-- A commit on top of the release, with the time of an earlier one. -/
def lateCommit : CommitId := "76bce4577f7cbc313522491d605da1a7b62d6e2f"

/-- The object of that commit. -/
def lateObject : Object :=
  let signature : Signature :=
    ⟨Ascii.bytes "Importer", Ascii.bytes "importer@example.com", 1000000030⟩
  ⟨.commit, Commit.encode ⟨idOf releaseTree, [idOf releaseCommit], signature, signature,
    Ascii.bytes "late"⟩ 0 0⟩

/-- The ref of a later release. -/
def lateRef : String := "refs/remotes/svn/tags/v1.0"

/-- The imported line with two refs that mislead: a branch that stands for the line under the short
name of the release, and a later release whose last commit is older than the one before, by its
time. -/
def misleading : Store :=
  { imported with
    objects := imported.objects.insert lateCommit lateObject
    refs := (imported.refs.insert lateRef (.object (idOf lateCommit))).insert
      "refs/heads/svn/tags/v0.9" (.ref "refs/remotes/svn/trunk") }

/-- The histories of the imported line with misleading refs. -/
def misleadingHistories : SortedMap BranchHistory :=
  .ofList [("svn/tags/v0.9", ⟨"svn/tags/v0.9", [importedCommit]⟩),
    ("svn/tags/v1.0", ⟨"svn/tags/v1.0", [releaseCommit, lateCommit]⟩),
    ("svn/trunk", ⟨"svn/trunk", [importedCommit]⟩)]

theorem collect_misleading :
    ((collect misleading importedLayout).after []).1 = .ok misleadingHistories := by
  decide +kernel

/-- The late commit is a new one, and is kept under its own id. -/
theorem stored_lateCommit : imported.objects.get? lateCommit = none ∧
    lateObject.id.hex = lateCommit ∧
      misleading.peel? (idOf lateCommit) = some (idOf lateCommit) := by
  decide +kernel

theorem within_misleading : Within imported misleading := by
  refine ⟨fun _ _ => SortedMap.get?_insert_of_free stored_lateCommit.1, fun _ _ h => ?_⟩
  exact SortedMap.get?_insert_of_free (by decide) (SortedMap.get?_insert_of_free (by decide) h)

theorem hex_id_misleading : ∀ e ∈ misleading.objects.entries, e.2.id.hex = e.1 := by
  intro e he
  rcases SortedMap.mem_insertEntry he with rfl | he
  · exact stored_lateCommit.2.1
  · exact hex_id_imported e he

theorem short_lateRef : RefName.short lateRef = "svn/tags/v1.0" := by decide

/-- The ref of the later release is one of those that are looked at, and no other ref comes before
it. -/
theorem isListed_lateRef : RefName.isBelow "refs" lateRef = true ∧
    (RefName.short lateRef).startsWith importedLayout.start = true ∧
    misleading.refs.get? lateRef = some (.object (idOf lateCommit)) ∧
    misleading.IsUnshadowed lateRef := by
  refine ⟨by decide, ?_, by decide, by decide, by decide, by decide⟩
  rw [short_lateRef]
  exact String.startsWith_string_iff.2 (by decide)

/-- The history of a listed ref need not begin with the commit of the ref: another ref can come
before it under its short name, even one that is not listed, and its commit can lead to one with a
later time. -/
theorem not_forall_collect_listed :
    (¬ ∀ (s : Store) (layout : Layout) (full : String) (id c : Id)
        (histories : SortedMap BranchHistory),
      (∀ e ∈ s.objects.entries, e.2.id.hex = e.1) →
      s.refs.get? full = some (.object id) → RefName.isBelow "refs" full = true →
      (RefName.short full).startsWith layout.start = true → s.peel? id = some c →
      ((collect s layout).after []).1 = .ok histories →
      (∀ a, s.LeadsTo c a → ¬ s.IsLater a c) →
      ∃ history, histories.get? (RefName.short full) = some history ∧
        history.commits.head? = some c.hex) ∧
    (¬ ∀ (s : Store) (layout : Layout) (full : String) (id c : Id)
        (histories : SortedMap BranchHistory),
      (∀ e ∈ s.objects.entries, e.2.id.hex = e.1) →
      s.refs.get? full = some (.object id) → RefName.isBelow "refs" full = true →
      (RefName.short full).startsWith layout.start = true → s.peel? id = some c →
      ((collect s layout).after []).1 = .ok histories →
      s.tip (RefName.short full) = .ok c →
      ∃ history, histories.get? (RefName.short full) = some history ∧
        history.commits.head? = some c.hex) := by
  constructor
  · intro hclaim
    obtain ⟨hbelow, hstart⟩ := isListed_releaseRef
    obtain ⟨hget, hpeel, hlink⟩ := stored_releaseRef
    have hnone : ∀ a, misleading.LeadsTo (idOf releaseCommit) a →
        ¬ misleading.IsLater a (idOf releaseCommit) := fun a ha => by
      rw [eq_of_leadsTo (within_misleading.link? hlink) ha]
      exact not_isLater_self _ _
    obtain ⟨history, hhistory, hfirst⟩ := hclaim misleading importedLayout releaseRef _ _ _
      hex_id_misleading (within_misleading.refs _ _ hget) hbelow hstart
      (within_misleading.peel? hpeel) collect_misleading hnone
    have hline : misleadingHistories.get? (RefName.short releaseRef) =
        some ⟨"svn/tags/v0.9", [importedCommit]⟩ := by
      decide
    obtain rfl := Option.some.inj (hline.symm.trans hhistory)
    exact absurd hfirst (by decide +kernel)
  · intro hclaim
    obtain ⟨hbelow, hstart, hget, unshadowed⟩ := isListed_lateRef
    have hpeel := stored_lateCommit.2.2
    obtain ⟨history, hhistory, hfirst⟩ := hclaim misleading importedLayout lateRef _ _ _
      hex_id_misleading hget hbelow hstart hpeel collect_misleading
      (tip_of_isUnshadowed unshadowed hbelow hget hpeel)
    have hearlier : misleadingHistories.get? (RefName.short lateRef) =
        some ⟨"svn/tags/v1.0", [releaseCommit, lateCommit]⟩ := by
      decide
    obtain rfl := Option.some.inj (hearlier.symm.trans hhistory)
    exact absurd hfirst (by decide +kernel)

end Store

end Git

end ReleaseRecovery
