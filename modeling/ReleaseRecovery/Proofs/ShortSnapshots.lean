import Mathlib.Data.List.Basic
import ReleaseRecovery.Proofs.ShortTexts
import ReleaseRecovery.Proofs.Snapshots

/-!
# Snapshots that stop too early

Strings, lists, maps and records are taken from a value in the order of its text. Whatever was cut
off the text of an index, one of them is met that is cut, and all that stands before it is read as
it was saved. So nothing is taken from the text but the problem at its end.

## Main Definitions

* `Json.NeedsWhole` — a calculation reports the end of the text wherever a value is cut
* `Json.NeedsAll` — the same for the fields of a record, one after the other

## Main Statements

* `Json.decodeText_of_short` — a string that is cut is not read
* `Json.decode_of_short` — a text that stops too early is not read
* `Snapshot.load_of_short` — no part of a snapshot is loaded
-/

namespace ReleaseRecovery

namespace Json

open Ascii

/-! ### Strings that are cut -/

theorem unescape_backslash_of_error {s : Bytes} {p : Problem} (h : escaped s = .error p) :
    unescape (backslash :: s) = .error p := by
  rw [unescape, if_neg (by decide), if_pos rfl]
  split
  · rename_i meant rest h'
    rw [h] at h'
    cases h'
  · rename_i p' h'
    rw [h] at h'
    rw [Except.error.inj h']

/-- A byte is written as it is, as a letter behind a backslash, or as a number of four digits. -/
theorem escapeByte_cases (b : UInt8) :
    escapeByte b = [b] ∨ (∃ letter, escapeByte b = [backslash, letter]) ∨
      ∃ number, number.length = 4 ∧ escapeByte b = backslash :: 0x75 :: number := by
  unfold escapeByte
  split
  · exact .inr (.inl ⟨_, rfl⟩)
  split
  · exact .inr (.inl ⟨_, rfl⟩)
  split
  · exact .inr (.inl ⟨_, rfl⟩)
  split
  · exact .inr (.inl ⟨_, rfl⟩)
  split
  · exact .inr (.inl ⟨_, rfl⟩)
  split
  · exact .inr (.inl ⟨_, rfl⟩)
  split
  · exact .inr (.inl ⟨_, rfl⟩)
  split
  · exact .inr (.inr ⟨[zero, zero] ++ hexByte b, rfl, rfl⟩)
  · exact .inl rfl

/-- Fewer than four digits are no number yet. -/
theorem digits_of_length_lt {s : Bytes} (h : s.length < 4) : digits s = .error .endOfText := by
  match s with
  | [] | [_] | [_, _] | [_, _, _] => rfl
  | _ :: _ :: _ :: _ :: _ =>
    simp only [List.length_cons] at h
    omega

/-- A byte of which not all is written is not read. -/
theorem unescape_of_short_byte {b : UInt8} {part due : Bytes} (h : part ++ due = escapeByte b)
    (hdue : due ≠ []) : unescape part = .error .endOfText := by
  have hlength : part.length < (escapeByte b).length := by
    rw [← h, List.length_append]
    exact Nat.lt_add_of_pos_right (List.length_pos_iff.2 hdue)
  cases part with
  | nil => rw [unescape]
  | cons c part =>
    obtain hb | ⟨letter, hb⟩ | ⟨number, hnumber, hb⟩ := escapeByte_cases b
    · rw [hb] at hlength
      simp at hlength
    · rw [hb] at h hlength
      obtain ⟨rfl, -⟩ := List.cons.inj h
      obtain rfl : part = [] :=
        List.length_eq_zero_iff.1 (Nat.lt_one_iff.1 (Nat.lt_of_succ_lt_succ hlength))
      exact unescape_backslash_of_error rfl
    · rw [hb] at h hlength
      obtain ⟨rfl, hrest⟩ := List.cons.inj h
      refine unescape_backslash_of_error ?_
      cases part with
      | nil => rfl
      | cons c part =>
        obtain ⟨rfl, -⟩ := List.cons.inj hrest
        have hdigits : digits part = .error .endOfText :=
          digits_of_length_lt (by simp only [List.length_cons, hnumber] at hlength; omega)
        rw [escaped, if_pos rfl, numbered, hdigits]

/-- The mark that closes a string is missed wherever the string is cut. -/
theorem unescape_of_short {s part due : Bytes}
    (h : part ++ due = s.flatMap escapeByte ++ [quote]) (hdue : due ≠ []) :
    unescape part = .error .endOfText := by
  induction s generalizing part with
  | nil =>
    obtain ⟨rfl, -⟩ | ⟨-, rfl⟩ := List.append_eq_singleton_iff.1 h
    · rw [unescape]
    · exact absurd rfl hdue
  | cons b s ih =>
    rw [List.flatMap_cons, List.append_assoc] at h
    obtain ⟨due', hbyte, -⟩ | ⟨part', rfl, hrest⟩ := List.append_eq_append_iff.1 h
    · by_cases hnil : due' = []
      · -- The cut is right behind the byte.
        rw [hnil, List.append_nil] at hbyte
        rw [← hbyte, ← List.append_nil (escapeByte b), unescape_escapeByte, unescape]
        rfl
      · exact unescape_of_short_byte hbyte.symm hnil
    · rw [unescape_escapeByte, ih hrest.symm]
      rfl

/-- A string that is cut is not read, wherever the cut is. -/
theorem decodeText_of_short {s : String} {part due : Bytes} (h : part ++ due = encodeText s)
    (hdue : due ≠ []) : decodeText part = .error .endOfText := by
  rw [decodeText, unescape_of_short h hdue]

/-! ### Values that are cut -/

section Cut

variable {α σ : Type}

/-- A calculation reports the end of the text wherever a value is cut. -/
def NeedsWhole (value : Value → Except Problem α) (v : Value) : Prop :=
  ∀ t, v.CutsTo t → value t = .error .endOfText

theorem needsWhole_text (s : String) : NeedsWhole Value.text (Value.ofString s) := by
  intro t ht
  generalize hv : Value.ofString s = v at ht
  cases ht with
  | start => rfl
  | string hdue => exact decodeText_of_short (Value.string.inj hv).symm hdue
  | number | openNumber | array | object => cases hv

/-- A list is needed as a whole if each of its items is. -/
theorem needsWhole_list {item : Value → Except Problem α} {value : α → Value}
    (h : ∀ a, item (value a) = .ok a) (h' : ∀ a, NeedsWhole item (value a)) (l : List α) :
    NeedsWhole (Value.list item) (Value.ofItems (l.map value)) := by
  have hitems : ∀ items', (Items.ofList (l.map value)).CutsTo items' →
      items'.decode item = .error .endOfText := by
    induction l with
    | nil =>
      rintro _ (_ | _ | _)
      rfl
    | cons a l ih =>
      rintro _ (_ | ⟨-, ht⟩ | ⟨-, hrest⟩)
      · rfl
      · rw [Items.decode, h' a _ ht]
        rfl
      · rw [Items.decode, h a, ih _ hrest]
        rfl
  rintro _ (_ | _ | _ | _ | hcut)
  · rfl
  · exact hitems _ hcut

/-- The same for fields one after the other, each of them read as it was written. -/
def NeedsAll (member : σ → String → Value → Except Problem σ) : σ → List (String × Value) → Prop
  | _, [] => True
  | s, f :: fields =>
    NeedsWhole (member s f.1) f.2 ∧ ∃ s', member s f.1 f.2 = .ok s' ∧ NeedsAll member s' fields

/-- Fields that are needed as a whole are not followed to the end if the last one is cut. -/
theorem walk_of_short {member : σ → String → Value → Except Problem σ} {s : σ}
    {fields : List (String × Value)} (h : NeedsAll member s fields) {members : Members}
    (hcut : (Members.ofList (fields.map fun f => (encodeText f.1, f.2))).CutsTo members) :
    members.walk member s = .error .endOfText := by
  induction fields generalizing s members with
  | nil =>
    cases hcut with
    | start => rfl
  | cons f fields ih =>
    obtain ⟨hwhole, s', hs', hfields⟩ := h
    generalize hwritten : Members.ofList _ = written at hcut
    cases hcut with
    | start => rfl
    | key t rest hdue =>
      obtain ⟨hkey, -, -⟩ := Members.cons.inj hwritten
      exact bind_eq_error_iff.2 (.inl (decodeText_of_short hkey.symm hdue))
    | value k rest ht =>
      obtain ⟨rfl, rfl, -⟩ := Members.cons.inj hwritten
      refine bind_eq_error_iff.2 (.inr ⟨f.1, decodeText_encodeText f.1, ?_⟩)
      exact bind_eq_error_iff.2 (.inl (hwhole _ ht))
    | later k t hrest =>
      obtain ⟨rfl, rfl, rfl⟩ := Members.cons.inj hwritten
      refine bind_eq_error_iff.2 (.inr ⟨f.1, decodeText_encodeText f.1, ?_⟩)
      exact bind_eq_error_iff.2 (.inr ⟨s', hs', ih hfields hrest⟩)

/-- A map is needed as a whole if each of its values is. -/
theorem needsWhole_map {value : Value → Except Problem α} {encode : α → Value}
    (h : ∀ a, value (encode a) = .ok a) (h' : ∀ a, NeedsWhole value (encode a)) (m : SortedMap α) :
    NeedsWhole (Value.map value) (m.encode encode) := by
  have hall : ∀ (entries : List (String × α)) (start : SortedMap α),
      NeedsAll (fun m key t => (value t).map (m.insert key)) start
        (entries.map fun e => (e.1, encode e.2)) := by
    intro entries
    induction entries with
    | nil => exact fun _ => trivial
    | cons e entries ih =>
      refine fun start => ⟨fun t ht => ?_, start.insert e.1 e.2, ?_, ih _⟩
      · dsimp only
        rw [h' e.2 t ht]
        rfl
      · dsimp only
        rw [h e.2]
        rfl
  rintro _ (_ | _ | _ | _ | _ | hcut)
  · rfl
  · exact walk_of_short (hall m.entries .empty) hcut

/-- A field that has not been given before is needed as a whole if its value is. -/
theorem NeedsAll.field {member : σ → String → Value → Except Problem σ} {s : σ} {key : String}
    {value : Value → Except Problem α} {update : Option α → σ} {v : Value} {a : α}
    (hmember : ∀ t, member s key t = (once none (value t)).map update)
    (h : NeedsWhole value v) (ha : value v = .ok a) {fields : List (String × Value)}
    (hfields : NeedsAll member (update (some a)) fields) :
    NeedsAll member s ((key, v) :: fields) := by
  refine ⟨fun t ht => ?_, update (some a), ?_, hfields⟩
  · rw [hmember, h t ht]
    rfl
  · rw [hmember, ha]
    rfl

/-- A text that stops too early is not read if all of it is needed. -/
theorem decode_of_short {value : Value → Except Problem α} {v : Value} (hv : v.IsWritten)
    (h : NeedsWhole value v) {layout : Layout} {part due : Bytes}
    (htext : part ++ due = render layout v) (hdue : due ≠ []) :
    decode value part = .error .endOfText := by
  obtain ⟨t, ht, hread⟩ := exists_read_eq_of_short hv layout htext hdue
  rw [decode, hread]
  dsimp only
  rw [h t ht]
  rfl

end Cut

end Json

/-! ### The index -/

open Json

theorem needsWhole_encodeNames (l : List String) : NeedsWhole decodeNames (encodeNames l) :=
  needsWhole_list text_ofString needsWhole_text l

theorem InstallRecord.needsWhole_encode (r : InstallRecord) : NeedsWhole decode r.encode := by
  have hfull := needsWhole_map text_ofString needsWhole_text r.full
  have hpartly := needsWhole_map text_ofString needsWhole_text r.partly
  have hall : NeedsAll Fields.add ⟨none, none⟩
      [("full", r.full.encode Value.ofString), ("partial", r.partly.encode Value.ofString)] :=
    .field (fun _ => rfl) hfull (map_encode text_ofString r.full) <|
      .field (fun _ => rfl) hpartly (map_encode text_ofString r.partly) trivial
  rintro _ (_ | _ | _ | _ | _ | hcut)
  · rfl
  · rw [decode, walk_of_short hall hcut]
    rfl

theorem ContentIndex.needsWhole_encode (index : ContentIndex) :
    NeedsWhole decode index.encode := by
  have hhistories := needsWhole_map decodeNames_encodeNames needsWhole_encodeNames index.histories
  have hrecords :=
    needsWhole_map InstallRecord.decode_encode InstallRecord.needsWhole_encode index.records
  have hall : NeedsAll Fields.add ⟨none, none⟩
      [("branch_history", index.histories.encode encodeNames),
        ("commit_trees", index.records.encode InstallRecord.encode)] :=
    .field (fun _ => rfl) hhistories (map_encode decodeNames_encodeNames index.histories) <|
      .field (fun _ => rfl) hrecords (map_encode InstallRecord.decode_encode index.records) trivial
  rintro _ (_ | _ | _ | _ | _ | hcut)
  · rfl
  · rw [decode, walk_of_short hall hcut]
    rfl

/-- The text of an index is not read if it stops too early, wherever that is. -/
theorem ContentIndex.ofText_of_short {index : ContentIndex} {part due : Bytes}
    (htext : part ++ due = index.text) (hdue : due ≠ []) :
    ofText part = .error .endOfText :=
  decode_of_short index.isWritten_encode index.needsWhole_encode htext hdue

namespace Snapshot

/-- A file that holds a part of a snapshot is refused. -/
theorem load_of_short {path : String} {files : Files} {index : ContentIndex} {part due : Bytes}
    (hread : files.read path = .ok part) (htext : part ++ due = index.text) (hdue : due ≠ []) :
    load path files = .error (.indexMalformed .endOfText) := by
  rw [load, hread]
  dsimp only
  rw [ContentIndex.ofText_of_short htext hdue]

/-- A save leaves the text of the index, and no part of that text that stops before its end is taken
for an index. -/
theorem load_of_isPrefix (index : ContentIndex) :
    (∀ path files, (save path index files).1 = .ok () →
      (save path index files).2.read path = .ok index.text) ∧
    ∀ part, part <+: index.text → part ≠ index.text →
      ∀ path files, files.read path = .ok part →
        ∃ cause, load path files = .error (.indexMalformed cause) ∧ cause.category = "eof" := by
  refine ⟨fun path files => read_save, ?_⟩
  rintro part ⟨due, htext⟩ hshort path files hread
  have hdue : due ≠ [] := by
    rintro rfl
    exact hshort (by rwa [List.append_nil] at htext)
  exact ⟨.endOfText, load_of_short hread htext hdue, rfl⟩

/-- A file with the text of an index up to the first byte of a character of four. -/
theorem load_of_isPrefix_oddIndex :
    let part := oddIndex.text.take 92
    let files := (Files.fresh.replace "index.json" part).2
    part.getLast? = some 0xF0 ∧ part <+: oddIndex.text ∧ part ≠ oddIndex.text ∧
      (save "index.json" oddIndex .fresh).1 = .ok () ∧
      (save "index.json" oddIndex .fresh).2.read "index.json" = .ok oddIndex.text ∧
      files.read "index.json" = .ok part ∧
      ∃ cause, load "index.json" files = .error (.indexMalformed cause) ∧
        cause.category = "eof" := by
  intro part files
  have hpart : part <+: oddIndex.text := List.take_prefix 92 oddIndex.text
  have hshort : part ≠ oddIndex.text := by decide +kernel
  have hsave : (save "index.json" oddIndex .fresh).1 = .ok () :=
    toOption_eq_some_iff.1 (by decide +kernel)
  have hread : files.read "index.json" = .ok part :=
    Files.read_replace (toOption_eq_some_iff.1 (by decide +kernel))
  exact ⟨by decide +kernel, hpart, hshort, hsave,
    (load_of_isPrefix oddIndex).1 "index.json" .fresh hsave, hread,
    (load_of_isPrefix oddIndex).2 part hpart hshort "index.json" files hread⟩

end Snapshot

end ReleaseRecovery
