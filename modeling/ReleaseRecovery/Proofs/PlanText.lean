import ReleaseRecovery.Plan.Format
import ReleaseRecovery.Proofs.IndexText
import ReleaseRecovery.Proofs.Numerals
import ReleaseRecovery.Proofs.Soundness
import ReleaseRecovery.Proofs.Versions

/-!
# Reading back the text of a plan

Versions, subhistories, reasons and releases are read back from their JSON values, and so is the
whole of a cross-reference. A version is read back from its name, which takes a number in it. The
fields of a reason are held in memory before they are taken apart, so their numbers have to be in
range there, and there has to be room for their brackets.

## Main Definitions

* `ReleasePlan.versions` — the versions that a plan names
* `UnresolvedReason.IsCounted` — the count in a reason is a number of 64 bits

## Main Statements

* `UnresolvedReason.decode_encode` — a reason is read back, whatever room is left
* `CrossReference.decode_encode` — a cross-reference is read back from its JSON value
* `CrossReference.decode_render` — nothing is lost between writing a plan and reading it
-/

namespace ReleaseRecovery

open Json

namespace Json

theorem isWritten_ofString? (s : Option String) : (Value.ofString? s).IsWritten := by
  cases s with
  | none => trivial
  | some s => exact isWritten_ofString s

theorem text?_ofString? (s : Option String) : (Value.ofString? s).text? = .ok s := by
  cases s with
  | none => rfl
  | some s =>
    show (Value.ofString s).text.map some = .ok (some s)
    rw [text_ofString]
    rfl

theorem isWritten_items {α : Type} {value : α → Value} (h : ∀ a, (value a).IsWritten)
    (l : List α) : (Value.ofItems (l.map value)).IsWritten := by
  refine isWritten_ofItems fun t ht => ?_
  obtain ⟨a, -, rfl⟩ := List.mem_map.1 ht
  exact h a

/-- Names can be held in memory. -/
theorem hold_encodeNames (l : List String) (room : Nat) :
    (encodeNames l).hold (room + 1) = .ok () := by
  show (Items.ofList (l.map Value.ofString)).hold room = .ok ()
  induction l with
  | nil => rfl
  | cons s l ih =>
    have hs : (Value.ofString s).hold room = .ok () := by
      show (decodeText (encodeText s)).map (fun _ => ()) = .ok ()
      rw [decodeText_encodeText]
      rfl
    rw [List.map_cons, Items.ofList, Items.hold, hs]
    exact ih

end Json

/-! ### Versions and subhistories -/

theorem Version.isWritten_encode (v : Version) : v.encode.IsWritten := isWritten_ofString v.text

/-- A version with a number is read back from its name. -/
theorem Version.decode_encode {v : Version} (h : v.components ≠ []) : decode v.encode = .ok v := by
  rw [decode, encode, text_ofString]
  show required (ofText? v.text) = .ok v
  rw [ofText?_text h]
  rfl

theorem Subhistory.isWritten_encode (s : Subhistory) : s.encode.IsWritten := by
  rw [encode]
  refine isWritten_ofFields fun f hf => ?_
  simp only [List.mem_cons, List.not_mem_nil, or_false] at hf
  obtain rfl | rfl | rfl := hf
  · exact isWritten_encodeNames s.history
  · exact isWritten_ofString? s.branchedFrom
  · exact isWritten_ofString? s.mergedTo

theorem Subhistory.decode_encode (s : Subhistory) : decode s.encode = .ok s := by
  rw [encode, Value.ofFields, decode, walk_ofList]
  simp only [List.foldlM_cons, List.foldlM_nil, Fields.add, once, decodeNames_encodeNames,
    text?_ofString?]
  rfl

/-! ### Reasons -/

namespace UnresolvedReason

/-- The count in a reason is a number of 64 bits. -/
def IsCounted : UnresolvedReason → Prop
  | noTrunkMatch distinct => distinct < UInt64.size
  | emptyHistory | conflictingSources _ => True

theorem isWritten_encode (r : UnresolvedReason) : r.encode.IsWritten := by
  cases r with
  | emptyHistory =>
    refine isWritten_ofFields fun f hf => ?_
    rw [List.mem_singleton.1 hf]
    exact isWritten_ofString _
  | noTrunkMatch distinct =>
    refine isWritten_ofFields fun f hf => ?_
    simp only [List.mem_cons, List.not_mem_nil, or_false] at hf
    obtain rfl | rfl := hf
    · exact isWritten_ofString _
    · exact isWritten_ofNat distinct
  | conflictingSources sources =>
    refine isWritten_ofFields fun f hf => ?_
    simp only [List.mem_cons, List.not_mem_nil, or_false] at hf
    obtain rfl | rfl := hf
    · exact isWritten_ofString _
    · exact isWritten_encodeNames sources

/-- The kind of a reason is kept apart from its other fields. -/
theorem Fields.add_kind {room : Nat} {t : Value} {kind : Kind} (h : Kind.decode t = .ok kind) :
    Fields.add room ⟨none, []⟩ "kind" t = .ok ⟨some kind, []⟩ := by
  rw [add, if_pos rfl, once, h]
  rfl

/-- Any other field is held in memory. -/
theorem Fields.add_other {room : Nat} {key : String} (hkey : key ≠ "kind") {t : Value}
    (ht : t.hold room = .ok ()) (f : Fields) :
    f.add room key t = .ok { f with others := (key, t) :: f.others } := by
  rw [add, if_neg hkey, ht]
  rfl

/-- A reason is read back if there is room for the brackets in it. -/
theorem decode_encode {r : UnresolvedReason} (h : r.IsCounted) (room : Nat) :
    decode (room + 2) r.encode = .ok r := by
  cases r with
  | emptyHistory =>
    have hkind : Kind.decode (Value.ofString "empty_history") = .ok .emptyHistory := by
      rw [Kind.decode, text_ofString]
      rfl
    rw [encode, Value.ofFields, decode, walk_ofList]
    exact bind_eq_ok_iff.2 ⟨_, bind_eq_ok_iff.2 ⟨_, Fields.add_kind hkind, rfl⟩, rfl⟩
  | noTrunkMatch distinct =>
    have hkind : Kind.decode (Value.ofString "no_trunk_match") = .ok .noTrunkMatch := by
      rw [Kind.decode, text_ofString]
      rfl
    have hcount : decodeCount (Value.ofNat distinct) = .ok distinct := by
      rw [Value.ofNat, decodeCount, word?_repr h]
      rfl
    have hhold : (Value.ofNat distinct).hold (room + 1) = .ok () := by
      rw [Value.ofNat, Value.hold, checkNumber, isRepresentable_repr h]
      rfl
    have hother := Fields.add_other (by decide : "distinct" ≠ "kind") hhold
      ⟨some .noTrunkMatch, []⟩
    rw [encode, Value.ofFields, decode, walk_ofList]
    refine bind_eq_ok_iff.2 ⟨⟨some .noTrunkMatch, [("distinct", .ofNat distinct)]⟩, ?_, ?_⟩
    · exact bind_eq_ok_iff.2 ⟨_, Fields.add_kind hkind, bind_eq_ok_iff.2 ⟨_, hother, rfl⟩⟩
    · show (decodeCount (Value.ofNat distinct)).map noTrunkMatch = .ok (.noTrunkMatch distinct)
      rw [hcount]
      rfl
  | conflictingSources sources =>
    have hkind : Kind.decode (Value.ofString "conflicting_sources") =
        .ok .conflictingSources := by
      rw [Kind.decode, text_ofString]
      rfl
    have hhold := hold_encodeNames sources room
    have hother := Fields.add_other (by decide : "sources" ≠ "kind") hhold
      ⟨some .conflictingSources, []⟩
    rw [encode, Value.ofFields, decode, walk_ofList]
    refine bind_eq_ok_iff.2
      ⟨⟨some .conflictingSources, [("sources", encodeNames sources)]⟩, ?_, ?_⟩
    · exact bind_eq_ok_iff.2 ⟨_, Fields.add_kind hkind, bind_eq_ok_iff.2 ⟨_, hother, rfl⟩⟩
    · show (decodeNames (encodeNames sources)).map conflictingSources =
        .ok (.conflictingSources sources)
      rw [decodeNames_encodeNames]
      rfl

end UnresolvedReason

/-! ### Releases and plans -/

theorem PlannedRelease.isWritten_encode (r : PlannedRelease) : r.encode.IsWritten := by
  rw [encode]
  refine isWritten_ofFields fun f hf => ?_
  simp only [List.mem_cons, List.not_mem_nil, or_false] at hf
  obtain rfl | rfl | rfl | rfl := hf
  · exact r.version.isWritten_encode
  · exact isWritten_ofString r.source
  · exact isWritten_ofString r.tree
  · exact isWritten_ofString? r.trunkCommit

theorem PlannedRelease.decode_encode {r : PlannedRelease} (h : r.version.components ≠ []) :
    decode r.encode = .ok r := by
  rw [encode, Value.ofFields, decode, walk_ofList]
  simp only [List.foldlM_cons, List.foldlM_nil, Fields.add, once, Version.decode_encode h,
    text_ofString, text?_ofString?]
  rfl

theorem UnresolvedRelease.isWritten_encode (r : UnresolvedRelease) : r.encode.IsWritten := by
  rw [encode]
  refine isWritten_ofFields fun f hf => ?_
  simp only [List.mem_cons, List.not_mem_nil, or_false] at hf
  obtain rfl | rfl | rfl | rfl := hf
  · exact r.version.isWritten_encode
  · exact isWritten_ofString r.source
  · exact r.reason.isWritten_encode
  · exact isWritten_encodeNames r.history

theorem UnresolvedRelease.decode_encode {r : UnresolvedRelease} (h : r.version.components ≠ [])
    (h' : r.reason.IsCounted) (room : Nat) : decode (room + 3) r.encode = .ok r := by
  rw [encode, Value.ofFields, decode, walk_ofList]
  simp only [List.foldlM_cons, List.foldlM_nil, Nat.add_one_sub_one, Fields.add, once,
    Version.decode_encode h, text_ofString, UnresolvedReason.decode_encode h' room,
    decodeNames_encodeNames]
  rfl

theorem ReleasePlan.isWritten_encode (p : ReleasePlan) : p.encode.IsWritten := by
  rw [encode]
  refine isWritten_ofFields fun f hf => ?_
  simp only [List.mem_cons, List.not_mem_nil, or_false] at hf
  obtain rfl | rfl := hf
  · exact isWritten_items PlannedRelease.isWritten_encode p.releases
  · exact isWritten_items UnresolvedRelease.isWritten_encode p.unresolved

namespace ReleasePlan

/-- The versions that a plan names. -/
def versions (p : ReleasePlan) : List Version :=
  p.releases.map (·.version) ++ p.unresolved.map (·.version)

theorem forall_mem_versions_iff {p : ReleasePlan} {P : Version → Prop} :
    (∀ v ∈ p.versions, P v) ↔
      (∀ r ∈ p.releases, P r.version) ∧ ∀ u ∈ p.unresolved, P u.version := by
  rw [versions, List.forall_mem_append, List.forall_mem_map, List.forall_mem_map]

/-- A plan is read back if its versions have a number and its counts are of 64 bits. -/
theorem decode_encode {p : ReleasePlan} (h : ∀ v ∈ p.versions, v.components ≠ [])
    (h' : ∀ u ∈ p.unresolved, u.reason.IsCounted) (room : Nat) :
    decode (room + 5) p.encode = .ok p := by
  rw [forall_mem_versions_iff] at h
  have hreleases : (Value.ofItems (p.releases.map PlannedRelease.encode)).list
      PlannedRelease.decode = .ok p.releases :=
    list_ofItems fun r hr => PlannedRelease.decode_encode (h.1 r hr)
  have hunresolved : (Value.ofItems (p.unresolved.map UnresolvedRelease.encode)).list
      (UnresolvedRelease.decode (room + 3)) = .ok p.unresolved :=
    list_ofItems fun u hu => UnresolvedRelease.decode_encode (h.2 u hu) (h' u hu) room
  rw [encode, Value.ofFields, decode, walk_ofList]
  simp only [List.foldlM_cons, List.foldlM_nil, Nat.add_one_sub_one, Fields.add, once, hreleases,
    hunresolved]
  rfl

end ReleasePlan

/-! ### What cross-referencing writes -/

/-- What cross-referencing plans or reports has a number. -/
theorem components_ne_nil_of_resolveReleases {subs : SortedMap Subhistory}
    {trunk : SortedMap CommitId} {v : Version} (h : v ∈ (resolveReleases subs trunk).versions) :
    v.components ≠ [] := by
  revert h v
  rw [ReleasePlan.forall_mem_versions_iff]
  constructor
  · intro r hr
    obtain ⟨-, hresolves, -⟩ := agreed?_resolved_iff.1 (mem_releases_iff.1 hr)
    exact Version.components_ne_nil_of_ofSource? hresolves.version_eq
  · intro u hu
    exact Version.components_ne_nil_of_ofSource? (ofSource?_of_mem_unresolved hu)

/-- The count in a reason is at most the number of contents that are reported with it. -/
theorem distinct_le_of_resolveReleases {subs : SortedMap Subhistory} {trunk : SortedMap CommitId}
    {u : UnresolvedRelease} (hu : u ∈ (resolveReleases subs trunk).unresolved) {distinct : Nat}
    (hreason : u.reason = .noTrunkMatch distinct) : distinct ≤ u.history.length := by
  rcases mem_unresolved_iff.1 hu with ⟨s, -, -, hhistory, hresolve⟩ | hconflict
  · obtain ⟨-, ⟨-, h⟩ | ⟨-, h⟩⟩ := resolve_eq_unresolved_iff.1 hresolve
    · rw [hreason] at h
      cases h
    · rw [hreason] at h
      rw [UnresolvedReason.noTrunkMatch.inj h, hhistory]
      exact (nodup_eraseDups u.history).length_le_of_subset fun _ => List.mem_eraseDups.1
  · rw [reason_of_conflict? hconflict] at hreason
    cases hreason

namespace CrossReference

theorem isWritten_encode (c : CrossReference) : c.encode.IsWritten := by
  rw [encode, fields]
  refine isWritten_ofFields fun f hf => ?_
  simp only [List.mem_cons, List.not_mem_nil, or_false] at hf
  obtain rfl | rfl := hf
  · exact Json.isWritten_encode Subhistory.isWritten_encode c.subhistories
  · exact c.plan.isWritten_encode

theorem decode_encode {c : CrossReference} (h : ∀ v ∈ c.plan.versions, v.components ≠ [])
    (h' : ∀ u ∈ c.plan.unresolved, u.reason.IsCounted) (room : Nat) :
    decode (room + 6) c.encode = .ok c := by
  rw [encode, fields, Value.ofFields, decode, walk_ofList]
  simp only [List.foldlM_cons, List.foldlM_nil, Nat.add_one_sub_one, Fields.add, once,
    map_encode Subhistory.decode_encode, ReleasePlan.decode_encode h h' room]
  rfl

/-- Nothing is lost between writing subhistories and plan and reading them, if every version has a
number and every count is one of 64 bits. What cross-referencing comes to is such that this holds:
its versions have a number, and it counts no more contents than it lists. -/
theorem decode_render :
    (∀ c : CrossReference, (∀ v ∈ c.plan.versions, v.components ≠ []) →
      (∀ u ∈ c.plan.unresolved, u.reason.IsCounted) →
        ∀ layout, Json.decode (decode nesting) (render layout c.encode) = .ok c) ∧
    ∀ index reference c, crossReference index reference = .ok c →
      (∀ v ∈ c.plan.versions, v.components ≠ []) ∧
        ∀ u ∈ c.plan.unresolved, ∀ distinct, u.reason = .noTrunkMatch distinct →
          distinct ≤ u.history.length := by
  refine ⟨fun c h h' layout => ?_, fun index reference c hc => ?_⟩
  · rw [Json.decode, render, read_render c.isWritten_encode]
    exact bind_eq_ok_iff.2 ⟨c, decode_encode h h' 121, rfl⟩
  · obtain ⟨trunk, -, -, hplan⟩ := crossReference_eq_ok_iff.1 hc
    rw [hplan]
    exact ⟨fun v => components_ne_nil_of_resolveReleases,
      fun u hu distinct => distinct_le_of_resolveReleases hu⟩

/-- A plan with releases of every kind, with the largest numbers, and with strings that are empty or
hold quotes, backslashes, control characters and characters of several bytes. -/
def oddPlan : CrossReference where
  subhistories := .ofList
    [("", .empty), ("\"\\/v1.0/", ⟨["\x00\n", "😀", ""], some "", none⟩)]
  plan :=
    { releases := [⟨⟨[0]⟩, "\t", "", none⟩, ⟨⟨[1, 4294967295]⟩, "\"\\/v1.0/", "\x7f", some "é"⟩]
      unresolved :=
        [⟨⟨[2]⟩, "", .emptyHistory, []⟩,
          ⟨⟨[2]⟩, "a", .noTrunkMatch 18446744073709551615, ["", "\\", ""]⟩,
          ⟨⟨[3, 0, 1]⟩, "b", .conflictingSources ["b", "\""], ["T", "\x1f"]⟩] }

theorem decode_render_oddPlan :
    Json.decode (decode nesting) (render .compact oddPlan.encode) = .ok oddPlan ∧
      Json.decode (decode nesting) (render .indented oddPlan.encode) = .ok oddPlan ∧
      ∃ c, crossReference revertedLine "svn/trunk" = .ok c ∧
        ∀ v ∈ c.plan.versions, v.components ≠ [] := by
  have hversions : ∀ v ∈ oddPlan.plan.versions, v.components ≠ [] := by decide
  have hcounted : ∀ u ∈ oddPlan.plan.unresolved, u.reason.IsCounted := by
    simp [oddPlan, UnresolvedReason.IsCounted, UInt64.size]
  let trunk : SortedMap CommitId := .ofList [("T1", "C1"), ("T2", "C2")]
  let subs : SortedMap Subhistory := .ofList [("svn/tags/v1.0/", ⟨["T1"], some "C1", some "C1"⟩),
    ("svn/tags/v2.0/", ⟨["T9"], none, none⟩)]
  have hc : crossReference revertedLine "svn/trunk" = .ok ⟨subs, resolveReleases subs trunk⟩ :=
    crossReference_eq_ok_iff.2 ⟨trunk, by decide +kernel, by decide +kernel, rfl⟩
  exact ⟨decode_render.1 oddPlan hversions hcounted .compact,
    decode_render.1 oddPlan hversions hcounted .indented, _, hc,
    (decode_render.2 revertedLine "svn/trunk" _ hc).1⟩

end CrossReference

end ReleaseRecovery
