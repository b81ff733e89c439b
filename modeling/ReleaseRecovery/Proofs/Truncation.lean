import Mathlib.Data.List.Induction
import Mathlib.Data.List.Nodup
import ReleaseRecovery.Proofs.Exploration
import ReleaseRecovery.Proofs.Filling
import ReleaseRecovery.Repository.Memory

/-!
# Histories and their logs

The history of a ref lists the commits of its log, each of them where it first stands, up to the
first one at which it is to end. All of the reference line is listed, and the history of any other
ref ends with the commit in which it meets the reference line, if it does.

## Main Definitions

* `ListsFirsts` — the members of a list, each of them once, in the order in which they first occur
* `Reaches` — how far a log is followed
* `IsTruncation` — a history is what is listed of a log
* `followLog` — following a log commit by commit

## Main Statements

* `ListsFirsts.unique` — there is one such list
* `listsFirsts_followLog` — what following a log comes to
* `collect_eq_ok` — what collecting the histories comes to
* `histories_truncated` — what the history of every ref is
-/

namespace ReleaseRecovery

/-! ### First occurrences -/

/-- A list has the members of another one, each of them once, in the order in which they first occur
there. -/
structure ListsFirsts (l firsts : List String) : Prop where
  mem_iff : ∀ a, a ∈ firsts ↔ a ∈ l
  ordered : firsts.Pairwise fun a b => l.idxOf a < l.idxOf b

namespace ListsFirsts

variable {l firsts firsts' : List String}

theorem nil : ListsFirsts [] [] := ⟨fun _ => Iff.rfl, .nil⟩

theorem nodup (h : ListsFirsts l firsts) : firsts.Nodup :=
  h.ordered.imp fun hlt heq => Nat.ne_of_lt hlt (congrArg l.idxOf heq)

/-- There is one such list. -/
theorem unique (h : ListsFirsts l firsts) (h' : ListsFirsts l firsts') : firsts = firsts' := by
  have hperm : firsts.Perm firsts' := (List.perm_ext_iff_of_nodup h.nodup h'.nodup).2 fun a =>
    (h.mem_iff a).trans (h'.mem_iff a).symm
  exact hperm.eq_of_pairwise (fun a b _ _ hab hba => absurd hab (Nat.lt_asymm hba)) h.ordered
    h'.ordered

/-- One more member is listed behind the others, unless it has occurred before. -/
theorem concat (h : ListsFirsts l firsts) (c : String) :
    ListsFirsts (l ++ [c]) (if c ∈ firsts then firsts else firsts ++ [c]) := by
  have hsame : ∀ a ∈ firsts, (l ++ [c]).idxOf a = l.idxOf a := fun a ha =>
    List.idxOf_append_of_mem ((h.mem_iff a).1 ha)
  have hordered : firsts.Pairwise fun a b => (l ++ [c]).idxOf a < (l ++ [c]).idxOf b :=
    h.ordered.imp_of_mem fun ha hb hlt => by rwa [hsame _ ha, hsame _ hb]
  split
  · rename_i hc
    refine ⟨fun a => ?_, hordered⟩
    rw [List.mem_append, List.mem_singleton, h.mem_iff]
    exact ⟨.inl, fun ha => ha.elim id fun heq => heq ▸ (h.mem_iff c).1 hc⟩
  · rename_i hc
    refine ⟨fun a => ?_, List.pairwise_append.2 ⟨hordered, List.pairwise_singleton .., ?_⟩⟩
    · rw [List.mem_append, List.mem_append, h.mem_iff]
    · intro a ha b hb
      obtain rfl := List.mem_singleton.1 hb
      have hnew : b ∉ l := fun hb => hc ((h.mem_iff b).2 hb)
      rw [hsame a ha, List.idxOf_append_of_notMem hnew]
      exact Nat.lt_add_right _ (List.idxOf_lt_length_of_mem ((h.mem_iff a).1 ha))

/-- A member that occurs only at the end is listed last. -/
theorem getLast?_concat {c : String} (h : ListsFirsts (l ++ [c]) firsts) (hc : c ∉ l) :
    firsts.getLast? = some c := by
  have hmem : c ∈ firsts := (h.mem_iff c).2 (List.mem_append_right l List.mem_cons_self)
  obtain ⟨before, after, rfl⟩ := List.append_of_mem hmem
  cases after with
  | nil => exact List.getLast?_concat
  | cons d after =>
    -- Nothing occurs behind the end.
    have hlt := (List.pairwise_cons.1 (List.pairwise_append.1 h.ordered).2.1).1 d
      List.mem_cons_self
    have hd : d ∈ l ++ [c] := (h.mem_iff d).1 (by simp)
    have hlength := List.idxOf_lt_length_of_mem hd
    rw [List.idxOf_append_of_notMem hc] at hlt
    rw [List.length_append, List.length_singleton] at hlength
    omega

end ListsFirsts

theorem listsFirsts_eraseDups (l : List String) : ListsFirsts l l.eraseDups := by
  induction l using List.reverseRecOn with
  | nil => exact .nil
  | append_singleton l c ih =>
    have hstep := ih.concat c
    rw [List.eraseDups_append]
    by_cases hc : c ∈ l
    · rw [if_pos (List.mem_eraseDups.2 hc)] at hstep
      simpa [List.removeAll, hc] using hstep
    · rw [if_neg fun h => hc (List.mem_eraseDups.1 h)] at hstep
      simpa [List.removeAll, hc, List.eraseDups_cons] using hstep

/-! ### Following a log -/

/-- How far a log is followed: up to and including its first terminator, or all of it if it has
none. -/
inductive Reaches (terminators log : List CommitId) : List CommitId → Prop
  | whole : (∀ c ∈ log, c ∉ terminators) → Reaches terminators log log
  | ended {before rest : List CommitId} {c : CommitId} : log = before ++ c :: rest →
    (∀ d ∈ before, d ∉ terminators) → c ∈ terminators → Reaches terminators log (before ++ [c])

/-- A history is what is listed of a log. -/
def IsTruncation (terminators log commits : List CommitId) : Prop :=
  ∃ reached, Reaches terminators log reached ∧ ListsFirsts reached commits

/-- Follows a log, with some commits listed already. A commit is listed when it is met for the first
time, and after a terminator nothing is listed any more. -/
def followLog (terminators : List CommitId) : List CommitId → List CommitId → List CommitId
  | listed, [] => listed
  | listed, c :: log =>
    let listed := if c ∈ listed then listed else listed ++ [c]
    if c ∈ terminators then listed else followLog terminators listed log

section Logs

variable {terminators terminators' log reached commits listed met : List CommitId}

theorem reaches_upTo (terminators log : List CommitId) :
    Reaches terminators log (upTo terminators.contains log) := by
  induction log with
  | nil => exact .whole nofun
  | cons c log ih =>
    simp only [upTo, List.contains_iff_mem]
    by_cases hc : c ∈ terminators
    · rw [if_pos hc]
      show Reaches terminators (c :: log) ([] ++ [c])
      exact .ended rfl nofun hc
    · rw [if_neg hc]
      generalize upTo terminators.contains log = reached at ih ⊢
      cases ih with
      | whole hnone => exact .whole (List.forall_mem_cons.2 ⟨hc, hnone⟩)
      | @ended before rest d hlog hbefore hd =>
        show Reaches terminators (c :: log) ((c :: before) ++ [d])
        exact .ended (congrArg (c :: ·) hlog) (List.forall_mem_cons.2 ⟨hc, hbefore⟩) hd

theorem isTruncation_truncated (terminators log : List CommitId) :
    IsTruncation terminators log (truncated terminators log) :=
  ⟨_, reaches_upTo terminators log, listsFirsts_eraseDups _⟩

/-- What is listed while a log is followed are the first occurrences in the part that is met. -/
theorem listsFirsts_followLog (h : ListsFirsts met listed) :
    ListsFirsts (met ++ upTo terminators.contains log) (followLog terminators listed log) := by
  induction log generalizing met listed with
  | nil => rwa [upTo, List.append_nil]
  | cons c log ih =>
    simp only [followLog, upTo, List.contains_iff_mem]
    split
    · exact h.concat c
    · rw [← List.singleton_append, ← List.append_assoc]
      exact ih (h.concat c)

theorem truncated_eq_followLog (terminators log : List CommitId) :
    truncated terminators log = followLog terminators [] log :=
  (listsFirsts_eraseDups _).unique (listsFirsts_followLog .nil)

theorem IsTruncation.nodup (h : IsTruncation terminators log commits) : commits.Nodup := by
  obtain ⟨reached, -, hfirsts⟩ := h
  exact hfirsts.nodup

/-- A terminator is listed last. -/
theorem IsTruncation.getLast?_eq (h : IsTruncation terminators log commits) {c : CommitId}
    (hc : c ∈ commits) (hterminator : c ∈ terminators) : commits.getLast? = some c := by
  obtain ⟨reached, hreached, hfirsts⟩ := h
  have hmem := (hfirsts.mem_iff c).1 hc
  cases hreached with
  | whole hnone => exact absurd hterminator (hnone c hmem)
  | @ended before rest d _ hbefore _ =>
    rcases List.mem_append.1 hmem with hmem | hmem
    · exact absurd hterminator (hbefore c hmem)
    · obtain rfl := List.mem_singleton.1 hmem
      exact hfirsts.getLast?_concat fun hmem => hbefore c hmem hterminator

/-- A terminator is listed if the log has one. -/
theorem IsTruncation.exists_terminator_iff (h : IsTruncation terminators log commits) :
    (∃ c ∈ commits, c ∈ terminators) ↔ ∃ c ∈ log, c ∈ terminators := by
  obtain ⟨reached, hreached, hfirsts⟩ := h
  simp only [hfirsts.mem_iff]
  cases hreached with
  | whole => rfl
  | ended hlog _ hc =>
    rw [hlog]
    exact iff_of_true ⟨_, by simp, hc⟩ ⟨_, by simp, hc⟩

/-- Without terminators all of a log is listed. -/
theorem IsTruncation.mem_iff (h : IsTruncation [] log commits) (c : CommitId) :
    c ∈ commits ↔ c ∈ log := by
  obtain ⟨reached, hreached, hfirsts⟩ := h
  cases hreached with
  | whole => exact hfirsts.mem_iff c
  | ended _ _ hc => cases hc

end Logs

/-! ### Collecting -/

/-- A value is found under a key that stands for no other value. -/
theorem SortedMap.get?_ofList_of_mem {α : Type} {l : List (String × α)} {key : String} {value : α}
    (hmem : (key, value) ∈ l) (honly : ∀ other, (key, other) ∈ l → other = value) :
    (ofList l).get? key = some value := by
  rw [get?_ofList]
  cases hget : l.reverse.lookup key with
  | none =>
    have hnone := List.lookup_eq_none_iff.1 hget _ (List.mem_reverse.2 hmem)
    simp at hnone
  | some other =>
    obtain ⟨l₁, l₂, hfound, -⟩ := List.lookup_eq_some_iff.1 hget
    have hother : (key, other) ∈ l.reverse := hfound ▸ List.mem_append_right l₁ List.mem_cons_self
    rw [honly other (List.mem_reverse.1 hother)]

/-- A calculation for a list comes to something for every member, and to nothing else. -/
theorem Reading.answers_of_mapM {α β : Type} {f : α → Reading β} {P : α → β → Prop}
    (hf : ∀ a b done, ((f a).after done).1 = .ok b → P a b) {l : List α} {bs : List β}
    {done : List Action} (h : ((l.mapM f).after done).1 = .ok bs) :
    (∀ a ∈ l, ∃ b ∈ bs, P a b) ∧ ∀ b ∈ bs, ∃ a ∈ l, P a b := by
  induction l generalizing done bs with
  | nil =>
    obtain rfl := Except.ok.inj h
    exact ⟨nofun, nofun⟩
  | cons a l ih =>
    rw [List.mapM_cons] at h
    obtain ⟨b, hfirst, h⟩ := after_bind_eq_ok_iff.1 h
    obtain ⟨bs, hrest, h⟩ := after_bind_eq_ok_iff.1 h
    obtain rfl := Except.ok.inj h
    have first := hf a b _ hfirst
    obtain ⟨hall, hback⟩ := ih hrest
    simp only [List.forall_mem_cons, List.exists_mem_cons_iff]
    exact ⟨⟨.inl first, fun a ha => .inr (hall a ha)⟩, .inl first, fun b hb => .inr (hback b hb)⟩

section Collect

variable {ρ : Type} [Repository ρ] {repo : ρ} {layout : Layout} {done : List Action}
  {histories : SortedMap BranchHistory}

theorem log_of_history {terminators : List CommitId} {ref : String} {b : BranchHistory}
    (h : ((history repo terminators ref).after done).1 = .ok b) :
    ∃ log, Repository.log repo ref = .ok log ∧ b = ⟨ref, truncated terminators log⟩ := by
  obtain ⟨log, hlog, h⟩ := Reading.after_bind_eq_ok_iff.1 h
  exact ⟨log, Reading.answer_of_after_ask hlog, (Except.ok.inj h).symm⟩

/-- The history of a ref whose log is answered. -/
theorem after_history {terminators log : List CommitId} {ref : String}
    (hlog : Repository.log repo ref = .ok log) (houtage : Repository.outage repo done = none) :
    (history repo terminators ref).after done =
      (.ok ⟨ref, truncated terminators log⟩, .log ref :: done) := by
  rw [history, Reading.log, Reading.after_bind, Reading.after_ask, houtage, hlog]
  rfl

/-- What collecting comes to: the reference line is followed to its end, and every other ref that is
listed up to the reference line. -/
theorem collect_eq_ok (h : ((collect repo layout).after done).1 = .ok histories) :
    ∃ (line : List CommitId) (names : List String) (others : List BranchHistory),
      Repository.log repo layout.reference = .ok line ∧
      Repository.listRefs repo layout.start = .ok names ∧
      (∀ ref ∈ names, ref ≠ layout.reference → ∃ b ∈ others,
        ∃ log, Repository.log repo ref = .ok log ∧
          b = ⟨ref, truncated (truncated [] line) log⟩) ∧
      (∀ b ∈ others, ∃ ref ∈ names, ref ≠ layout.reference ∧
        ∃ log, Repository.log repo ref = .ok log ∧
          b = ⟨ref, truncated (truncated [] line) log⟩) ∧
      histories = (SortedMap.ofList (others.map fun b => (b.refName, b))).insert layout.reference
        ⟨layout.reference, truncated [] line⟩ := by
  obtain ⟨reference, hreference, h⟩ := Reading.after_bind_eq_ok_iff.1 h
  obtain ⟨names, hnames, h⟩ := Reading.after_bind_eq_ok_iff.1 h
  obtain ⟨others, hothers, h⟩ := Reading.after_bind_eq_ok_iff.1 h
  obtain ⟨line, hline, rfl⟩ := log_of_history hreference
  obtain ⟨hall, hback⟩ := Reading.answers_of_mapM (fun _ _ _ => log_of_history) hothers
  simp only [List.mem_filter, bne_iff_ne, and_imp, and_assoc] at hall hback
  exact ⟨line, names, others, hline, Reading.answer_of_after_ask hnames, hall, hback,
    (Except.ok.inj h).symm⟩

/-- The history of the reference line is all of its log, and that of any other ref its log up to the
reference line. -/
theorem get?_of_collect {names : List String}
    (h : ((collect repo layout).after done).1 = .ok histories)
    (hnames : Repository.listRefs repo layout.start = .ok names) :
    ∃ line, Repository.log repo layout.reference = .ok line ∧
      ∀ ref ∈ layout.reference :: names, ∃ log, Repository.log repo ref = .ok log ∧
        histories.get? ref = some ⟨ref,
          truncated (if ref = layout.reference then [] else truncated [] line) log⟩ := by
  obtain ⟨line, names', others, hline, hnames', hall, hback, rfl⟩ := collect_eq_ok h
  obtain rfl := Except.ok.inj (hnames.symm.trans hnames')
  refine ⟨line, hline, fun ref href => ?_⟩
  by_cases heq : ref = layout.reference
  · subst heq
    exact ⟨line, hline, by rw [SortedMap.get?_insert, if_pos rfl, if_pos rfl]⟩
  obtain ⟨_, hb, log, hlog, rfl⟩ := hall ref ((List.mem_cons.1 href).resolve_left heq) heq
  refine ⟨log, hlog, ?_⟩
  rw [SortedMap.get?_insert, if_neg heq, if_neg heq]
  refine SortedMap.get?_ofList_of_mem (List.mem_map_of_mem hb) fun b hfound => ?_
  -- Whatever is kept under the name has been collected for it, and a name has one log.
  obtain ⟨b', hb', hsame⟩ := List.mem_map.1 hfound
  obtain ⟨_, -, -, log', hlog', rfl⟩ := hback b' hb'
  obtain ⟨rfl, rfl⟩ := Prod.mk.inj hsame
  rw [Except.ok.inj (hlog.symm.trans hlog')]

/-- There is a history for the reference line and for every ref that is listed. -/
theorem mem_keys_of_collect {names : List String}
    (h : ((collect repo layout).after done).1 = .ok histories)
    (hnames : Repository.listRefs repo layout.start = .ok names) (ref : String) :
    ref ∈ histories.keys ↔ ref ∈ layout.reference :: names := by
  constructor
  · intro href
    obtain ⟨line, names', others, -, hnames', -, hback, rfl⟩ := collect_eq_ok h
    obtain rfl := Except.ok.inj (hnames.symm.trans hnames')
    rw [SortedMap.mem_keys_insert, SortedMap.mem_keys_ofList_iff, List.map_map] at href
    refine List.mem_cons.2 (href.imp_right fun href => ?_)
    obtain ⟨b, hb, rfl⟩ := List.mem_map.1 href
    obtain ⟨ref, hlisted, -, log, -, rfl⟩ := hback b hb
    exact hlisted
  · intro href
    obtain ⟨line, -, hget⟩ := get?_of_collect h hnames
    obtain ⟨log, -, href⟩ := hget ref href
    exact SortedMap.mem_keys_iff.2 ⟨_, href⟩

end Collect

/-- What the history of every ref is: the first occurrences in the log of the ref, up to the first
terminator. All that is collected of the reference line is its log without repetitions, and every
other history ends where its log meets the reference line. -/
theorem histories_truncated {ρ : Type} [Repository ρ] (store : ρ) :
    (∀ terminators log ref done, Repository.log store ref = .ok log →
      Repository.outage store done = none →
      ∃ commits, (history store terminators ref).after done =
          (.ok ⟨ref, commits⟩, .log ref :: done) ∧
        commits = followLog terminators [] log ∧ IsTruncation terminators log commits ∧
        commits.Nodup ∧ ∀ c ∈ commits, c ∈ terminators → commits.getLast? = some c) ∧
    ∀ layout done histories, ((collect store layout).after done).1 = .ok histories →
      ∃ line names commits, Repository.log store layout.reference = .ok line ∧
        Repository.listRefs store layout.start = .ok names ∧
        (∀ ref, ref ∈ histories.keys ↔ ref = layout.reference ∨ ref ∈ names) ∧
        histories.get? layout.reference = some ⟨layout.reference, commits⟩ ∧
        IsTruncation [] line commits ∧
        ∀ ref history, histories.get? ref = some history → ref ≠ layout.reference →
          ∃ log, Repository.log store ref = .ok log ∧ history.refName = ref ∧
            IsTruncation commits log history.commits ∧ history.commits.Nodup ∧
            (∀ c ∈ history.commits, c ∈ commits → history.commits.getLast? = some c) ∧
            ((∃ c ∈ history.commits, c ∈ commits) ↔ ∃ c ∈ log, c ∈ commits) := by
  constructor
  · intro terminators log ref done hlog houtage
    have htruncated := isTruncation_truncated terminators log
    exact ⟨_, after_history hlog houtage, truncated_eq_followLog terminators log, htruncated,
      htruncated.nodup, fun c hc hterminator => htruncated.getLast?_eq hc hterminator⟩
  · intro layout done histories h
    obtain ⟨_, names, _, -, hnames, -⟩ := collect_eq_ok h
    have hkeys := mem_keys_of_collect h hnames
    obtain ⟨line, hline, hget⟩ := get?_of_collect h hnames
    obtain ⟨line', hline', hreference⟩ := hget layout.reference List.mem_cons_self
    obtain rfl := Except.ok.inj (hline.symm.trans hline')
    rw [if_pos rfl] at hreference
    refine ⟨line, names, truncated [] line, hline, hnames,
      fun ref => (hkeys ref).trans List.mem_cons, hreference, isTruncation_truncated [] line, ?_⟩
    intro ref found hfound hne
    obtain ⟨log, hlog, hhistory⟩ := hget ref ((hkeys ref).1 (SortedMap.mem_keys_iff.2 ⟨_, hfound⟩))
    rw [if_neg hne, hfound] at hhistory
    obtain rfl := Option.some.inj hhistory
    have htruncated := isTruncation_truncated (truncated [] line) log
    exact ⟨log, hlog, rfl, htruncated, htruncated.nodup,
      fun c hc hterminator => htruncated.getLast?_eq hc hterminator,
      htruncated.exists_terminator_iff⟩

/-- A reference line that repeats a commit, a release that meets it twice and repeats commits of its
own, and a ref that never meets it. -/
def crossing : Memory :=
  { Memory.empty with
    logs := .ofList [("svn/trunk", ["C3", "C2", "C3", "C1"]),
      ("svn/tags/v1.0", ["R2", "R1", "R2", "C2", "R1", "C1"]),
      ("svn/branches/apart", ["B1", "B1"]), ("other/trunk", ["C3"])] }

/-- The histories that are collected of it. -/
def crossingHistories : SortedMap BranchHistory :=
  .ofList [("svn/branches/apart", ⟨"svn/branches/apart", ["B1"]⟩),
    ("svn/tags/v1.0", ⟨"svn/tags/v1.0", ["R2", "R1", "C2"]⟩),
    ("svn/trunk", ⟨"svn/trunk", ["C3", "C2", "C1"]⟩)]

/-- The release is followed to where it first meets the reference line. -/
theorem histories_truncated_crossing :
    (∃ commits, ((history crossing ["C1", "C2"] "svn/tags/v1.0").after []).1 =
        .ok ⟨"svn/tags/v1.0", commits⟩ ∧
      commits = ["R2", "R1", "C2"] ∧ commits.getLast? = some "C2") ∧
    ((collect crossing ⟨"svn/", "svn/trunk"⟩).after []).1 = .ok crossingHistories ∧
      ∃ release, crossingHistories.get? "svn/tags/v1.0" = some release ∧
        release.commits = ["R2", "R1", "C2"] ∧ release.commits.getLast? = some "C2" := by
  obtain ⟨hhistory, hcollect⟩ := histories_truncated crossing
  constructor
  · obtain ⟨commits, hcommits, hfollow, -, -, hlast⟩ := hhistory ["C1", "C2"]
      ["R2", "R1", "R2", "C2", "R1", "C1"] "svn/tags/v1.0" [] (by decide +kernel) rfl
    obtain rfl : commits = ["R2", "R1", "C2"] := hfollow.trans (by decide)
    exact ⟨_, congrArg Prod.fst hcommits, rfl, hlast "C2" (by decide) (by decide)⟩
  · have hcollected : ((collect crossing ⟨"svn/", "svn/trunk"⟩).after []).1 =
        .ok crossingHistories := by
      decide +kernel
    have htrunk : crossingHistories.get? "svn/trunk" =
        some ⟨"svn/trunk", ["C3", "C2", "C1"]⟩ := by
      decide
    have hrelease : crossingHistories.get? "svn/tags/v1.0" =
        some ⟨"svn/tags/v1.0", ["R2", "R1", "C2"]⟩ := by
      decide
    obtain ⟨line, names, commits, -, -, -, hreference, -, hothers⟩ := hcollect _ _ _ hcollected
    obtain rfl : _ = commits :=
      (BranchHistory.mk.inj (Option.some.inj (htrunk.symm.trans hreference))).2
    obtain ⟨log, -, -, -, -, hlast, -⟩ := hothers _ _ hrelease (by decide)
    exact ⟨hcollected, _, hrelease, rfl, hlast "C2" (by decide) (by decide)⟩

end ReleaseRecovery
