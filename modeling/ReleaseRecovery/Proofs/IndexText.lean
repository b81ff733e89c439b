import ReleaseRecovery.Index.Format
import ReleaseRecovery.Proofs.JsonRendering

/-!
# Reading back the text of an index

Names, lists, maps and records are read back from their JSON values, whatever their strings are, and
these values are read back from their text.

## Main Statements

* `Json.map_encode` — a map is read back if its values are
* `ContentIndex.decode_encode` — an index is read back from its JSON value
* `ContentIndex.ofText_text` — an index is read back from its text
-/

namespace ReleaseRecovery

open Json

namespace Json

/-! ### Values that are written -/

theorem isWritten_ofString (s : String) : (Value.ofString s).IsWritten := ⟨s, rfl⟩

theorem isWritten_ofItems {items : List Value} (h : ∀ t ∈ items, t.IsWritten) :
    (Value.ofItems items).IsWritten := by
  rw [Value.ofItems, Value.IsWritten]
  induction items with
  | nil => trivial
  | cons t items ih =>
    exact ⟨h t List.mem_cons_self, ih fun u hu => h u (List.mem_cons_of_mem t hu)⟩

theorem isWritten_ofFields {fields : List (String × Value)} (h : ∀ f ∈ fields, f.2.IsWritten) :
    (Value.ofFields fields).IsWritten := by
  rw [Value.ofFields, Value.IsWritten]
  induction fields with
  | nil => trivial
  | cons f fields ih =>
    exact ⟨⟨f.1, rfl⟩, h f List.mem_cons_self, ih fun g hg => h g (List.mem_cons_of_mem f hg)⟩

theorem isWritten_encode {α : Type} {value : α → Value} (h : ∀ a, (value a).IsWritten)
    (m : SortedMap α) : (m.encode value).IsWritten := by
  rw [SortedMap.encode]
  refine isWritten_ofFields fun f hf => ?_
  obtain ⟨e, -, rfl⟩ := List.mem_map.1 hf
  exact h e.2

/-! ### Parts that are read back -/

section ReadBack

variable {α σ : Type}

theorem text_ofString (s : String) : (Value.ofString s).text = .ok s := decodeText_encodeText s

/-- A list is read back if its items are. -/
theorem list_ofItems {item : Value → Except Problem α} {value : α → Value} {l : List α}
    (h : ∀ a ∈ l, item (value a) = .ok a) : (Value.ofItems (l.map value)).list item = .ok l := by
  show (Items.ofList (l.map value)).decode item = .ok l
  induction l with
  | nil => rfl
  | cons a l ih =>
    rw [List.forall_mem_cons] at h
    show (do
      let b ← item (value a)
      let rest ← (Items.ofList (l.map value)).decode item
      return b :: rest) = .ok (a :: l)
    rw [h.1, ih h.2]
    rfl

/-- The fields of a record are followed by their names. -/
theorem walk_ofList (member : σ → String → Value → Except Problem σ) (s : σ)
    (fields : List (String × Value)) :
    (Members.ofList (fields.map fun f => (encodeText f.1, f.2))).walk member s =
      fields.foldlM (fun s f => member s f.1 f.2) s := by
  induction fields generalizing s with
  | nil => rfl
  | cons f fields ih =>
    rw [List.foldlM_cons, ← funext fun s => ih s, List.map_cons, Members.ofList, Members.walk,
      decodeText_encodeText]
    rfl

/-- A map is read back if its values are. -/
theorem map_encode {value : Value → Except Problem α} {encode : α → Value}
    (h : ∀ a, value (encode a) = .ok a) (m : SortedMap α) :
    (m.encode encode).map value = .ok m := by
  have hfold : ∀ (entries : List (String × α)) (start : SortedMap α),
      (entries.map fun e => (e.1, encode e.2)).foldlM
          (fun m f => (value f.2).map (m.insert f.1)) start =
        .ok (entries.foldl (fun m e => m.insert e.1 e.2) start) := by
    intro entries
    induction entries with
    | nil => exact fun _ => rfl
    | cons e entries ih =>
      intro start
      rw [List.map_cons, List.foldlM_cons, h e.2]
      exact ih (start.insert e.1 e.2)
  rw [SortedMap.encode, Value.ofFields, Value.map, walk_ofList, hfold]
  show Except.ok (SortedMap.ofList m.entries) = .ok m
  rw [SortedMap.ofList_entries]

end ReadBack

end Json

/-! ### The index -/

theorem decodeNames_encodeNames (l : List String) : decodeNames (encodeNames l) = .ok l :=
  list_ofItems fun s _ => text_ofString s

theorem InstallRecord.decode_encode (r : InstallRecord) : decode r.encode = .ok r := by
  rw [encode, Value.ofFields, decode, walk_ofList]
  simp only [List.foldlM_cons, List.foldlM_nil, Fields.add, once, map_encode text_ofString]
  rfl

theorem ContentIndex.decode_encode (index : ContentIndex) : decode index.encode = .ok index := by
  rw [encode, Value.ofFields, decode, walk_ofList]
  simp only [List.foldlM_cons, List.foldlM_nil, Fields.add, once,
    map_encode decodeNames_encodeNames, map_encode InstallRecord.decode_encode]
  rfl

theorem isWritten_encodeNames (l : List String) : (encodeNames l).IsWritten := by
  rw [encodeNames]
  refine isWritten_ofItems fun t ht => ?_
  obtain ⟨s, -, rfl⟩ := List.mem_map.1 ht
  exact isWritten_ofString s

theorem InstallRecord.isWritten_encode (r : InstallRecord) : r.encode.IsWritten := by
  rw [encode]
  refine isWritten_ofFields fun f hf => ?_
  rcases List.mem_cons.1 hf with rfl | hf
  · exact Json.isWritten_encode isWritten_ofString r.full
  · rw [List.mem_singleton.1 hf]
    exact Json.isWritten_encode isWritten_ofString r.partly

theorem ContentIndex.isWritten_encode (index : ContentIndex) : index.encode.IsWritten := by
  rw [encode]
  refine isWritten_ofFields fun f hf => ?_
  rcases List.mem_cons.1 hf with rfl | hf
  · exact Json.isWritten_encode isWritten_encodeNames index.histories
  · rw [List.mem_singleton.1 hf]
    exact Json.isWritten_encode InstallRecord.isWritten_encode index.records

/-- An index is read back from its text. -/
theorem ContentIndex.ofText_text (index : ContentIndex) : ofText index.text = .ok index := by
  rw [ofText, text, Json.decode, render, read_render index.isWritten_encode]
  dsimp only
  rw [decode_encode]
  rfl

/-- The text of an index tells the index. -/
theorem ContentIndex.text_inj {index index' : ContentIndex} (h : index.text = index'.text) :
    index = index' :=
  Except.ok.inj ((ofText_text index).symm.trans (h ▸ ofText_text index'))

end ReleaseRecovery
