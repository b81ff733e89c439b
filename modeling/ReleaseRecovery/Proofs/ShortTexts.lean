import Mathlib.Data.List.Basic
import ReleaseRecovery.Json.Decode
import ReleaseRecovery.Proofs.JsonRendering

/-!
# JSON texts that stop too early

Wherever the text of a value stops before its end, the reader is left with that value cut at the
place, and the cut is marked as the end of the text.

## Main Definitions

* `Json.Value.CutsTo` — what is read of a value from a text that stops too early
* `Json.State.StopsWith` — what the reader is left with, wherever a text stops

## Main Statements

* `Json.Value.stopsWith_render` — wherever the text of a value stops, what is left is that value,
  cut
* `Json.exists_read_eq_of_short` — what is read from a text that stops too early
-/

namespace ReleaseRecovery.Json

open Ascii State

/-! ### Values that are cut -/

mutual

/-- What is read of a value from a text that stops too early. -/
inductive Value.CutsTo : Value → Value → Prop
  | start (v : Value) : Value.CutsTo v (.broken .endOfText)
  | string {part due : Bytes} :
    due ≠ [] → Value.CutsTo (.string (part ++ due)) (.openString part .endOfText)
  /-- The first digits of a number can be a number, too. -/
  | number (literal part : Bytes) : Value.CutsTo (.number literal) (.number part)
  | openNumber (literal : Bytes) : Value.CutsTo (.number literal) (.openNumber .endOfText)
  | array {items items' : Items} :
    Items.CutsTo items items' → Value.CutsTo (.array items) (.array items')
  | object {members members' : Members} :
    Members.CutsTo members members' → Value.CutsTo (.object members) (.object members')

/-- The same for a list of values. -/
inductive Items.CutsTo : Items → Items → Prop
  | start (items : Items) : Items.CutsTo items (.cut .endOfText)
  | item {t t' : Value} (rest : Items) :
    Value.CutsTo t t' → Items.CutsTo (.cons t rest) (.cons t' (.cut .endOfText))
  | later (t : Value) {rest rest' : Items} :
    Items.CutsTo rest rest' → Items.CutsTo (.cons t rest) (.cons t rest')

/-- The same for a list of members. -/
inductive Members.CutsTo : Members → Members → Prop
  | start (members : Members) : Members.CutsTo members (.cut .endOfText)
  | key {part due : Bytes} (t : Value) (rest : Members) : due ≠ [] →
    Members.CutsTo (.cons (part ++ due) t rest)
      (.cons part (.broken .endOfText) (.cut .endOfText))
  | value (k : Bytes) {t t' : Value} (rest : Members) :
    Value.CutsTo t t' → Members.CutsTo (.cons k t rest) (.cons k t' (.cut .endOfText))
  | later (k : Bytes) (t : Value) {rest rest' : Members} :
    Members.CutsTo rest rest' → Members.CutsTo (.cons k t rest) (.cons k t rest')

end

theorem Items.CutsTo.prepend {items items' : Items} (h : items.CutsTo items') (done : List Value) :
    (Items.prepend done items).CutsTo (Items.prepend done items') := by
  induction done generalizing items items' with
  | nil => exact h
  | cons t done ih => exact ih (.later t h)

theorem Members.CutsTo.prepend {members members' : Members} (h : members.CutsTo members')
    (done : List (Bytes × Value)) :
    (Members.prepend done members).CutsTo (Members.prepend done members') := by
  induction done generalizing members members' with
  | nil => exact h
  | cons m done ih => exact ih (.later m.1 m.2 h)

/-- Some value that is left of one inside open brackets, with these brackets cut around it. -/
def IsLeftOf (v : Value) (outer : List Frame) (left : Value) : Prop :=
  ∃ t, v.CutsTo t ∧ cutAll .endOfText t outer = left

section Left

variable {v left : Value} {outer : List Frame}

/-- What is left of an array whose last items are cut. -/
theorem isLeftOf_items {items items' : Items} (h : items.CutsTo items') (done : List Value) :
    IsLeftOf (.array (Items.prepend done items)) outer
      (cutAll .endOfText (.array (Items.prepend done items')) outer) :=
  ⟨_, .array (h.prepend done), rfl⟩

/-- What is left of an item is left of the array that it stands in. -/
theorem IsLeftOf.item {done : List Value} (h : IsLeftOf v (.array done :: outer) left)
    (rest : Items) : IsLeftOf (.array (Items.prepend (v :: done) rest)) outer left := by
  obtain ⟨t, ht, rfl⟩ := h
  exact isLeftOf_items (.item rest ht) done

/-- What is left of an object whose last members are cut. -/
theorem isLeftOf_members {members members' : Members} (h : members.CutsTo members')
    (done : List (Bytes × Value)) :
    IsLeftOf (.object (Members.prepend done members)) outer
      (cutAll .endOfText (.object (Members.prepend done members')) outer) :=
  ⟨_, .object (h.prepend done), rfl⟩

/-- What is left of a member is left of the object that it stands in. -/
theorem IsLeftOf.member {done : List (Bytes × Value)} {k : Bytes}
    (h : IsLeftOf v (.object done k :: outer) left) (rest : Members) :
    IsLeftOf (.object (Members.prepend ((k, v) :: done) rest)) outer left := by
  obtain ⟨t, ht, rfl⟩ := h
  exact isLeftOf_members (.value k rest ht) done

end Left

/-! ### Where a text stops -/

/-- Wherever a text stops before its end, a reader that starts in a state is left with a value of
some kind. -/
def State.StopsWith (P : Value → Prop) (s : State) (text : Bytes) : Prop :=
  ∀ part due, part ++ due = text → due ≠ [] →
    ∃ t, P t ∧ (part.foldl step s).finish = ⟨t, none⟩

namespace State.StopsWith

variable {P Q : Value → Prop} {s : State} {bytes : Bytes}

theorem nil (P : Value → Prop) (s : State) : StopsWith P s [] := by
  intro part due htext hdue
  exact absurd (List.append_eq_nil_iff.1 htext).2 hdue

theorem cons {b : UInt8} {t : Value} (ht : P t) (hfinish : s.finish = ⟨t, none⟩)
    (h : StopsWith P (s.step b) bytes) : StopsWith P s (b :: bytes) := by
  intro part due htext hdue
  cases part with
  | nil => exact ⟨t, ht, hfinish⟩
  | cons c part =>
    obtain ⟨rfl, rfl⟩ := List.cons.inj htext
    exact h part due rfl hdue

/-- A text in two parts stops in the first or in the second. -/
theorem append {first second : Bytes} (h : StopsWith P s first)
    (h' : StopsWith P (first.foldl step s) second) : StopsWith P s (first ++ second) := by
  intro part due htext hdue
  obtain ⟨due', hfirst, hdue'⟩ | ⟨part', rfl, hsecond⟩ := List.append_eq_append_iff.1 htext
  · by_cases hnil : due' = []
    · rw [hnil, List.append_nil] at hfirst
      rw [hnil, List.nil_append] at hdue'
      exact hfirst ▸ h' [] due hdue' hdue
    · exact h part due' hfirst.symm hnil
  · rw [List.foldl_append]
    exact h' part' due hsecond.symm hdue

theorem mono (h : StopsWith P s bytes) (hPQ : ∀ t, P t → Q t) : StopsWith Q s bytes := by
  intro part due htext hdue
  obtain ⟨t, ht, hfinish⟩ := h part due htext hdue
  exact ⟨t, hPQ t ht, hfinish⟩

/-- A reader that blanks leave alone is left with the same value wherever they stop. -/
theorem lineBreak (h : s.step newline = s) (h' : s.step space = s) {t : Value} (ht : P t)
    (hfinish : s.finish = ⟨t, none⟩) (layout : Layout) (depth : Nat) :
    StopsWith P s (layout.lineBreak depth) := by
  intro part due htext _
  have hpart : ∀ b ∈ part, b = newline ∨ b = space := fun b hb =>
    eq_of_mem_lineBreak (htext ▸ List.mem_append_left due hb)
  rw [foldl_blanks h h' hpart]
  exact ⟨t, ht, hfinish⟩

end State.StopsWith

/-- What is left if a text stops behind a value. -/
theorem State.Ended.finish_inside {v : Value} {f : Frame} {outer : List Frame} {s : State}
    (h : s.Ended v (f :: outer)) : s.finish = ⟨cutAll .endOfText v (f :: outer), none⟩ := by
  cases h with
  | after => rfl
  | number form literal complete hv =>
    rw [State.finish, settle, if_pos complete, hv]
    rfl

/-- Wherever the blanks behind a value stop, the same is left. -/
theorem State.Ended.stopsWith_lineBreak {P : Value → Prop} {v : Value} {f : Frame}
    {outer : List Frame} {s : State} (h : s.Ended v (f :: outer))
    (hP : P (cutAll .endOfText v (f :: outer))) (layout : Layout) (depth : Nat) :
    s.StopsWith P (layout.lineBreak depth) := by
  intro part due htext _
  have hpart : ∀ b ∈ part, b = newline ∨ b = space := fun b hb =>
    eq_of_mem_lineBreak (htext ▸ List.mem_append_left due hb)
  exact ⟨_, hP, (h.foldl_blanks hpart).finish_inside⟩

/-! ### Strings, numbers and words that are cut -/

/-- A string that is not closed is taken over as far as it goes. -/
theorem foldl_short_encodeText {inside : Bytes → Escape → State}
    (hinside : ∀ raw escape b next, textStep escape b = .goesOn next →
      (inside raw escape).step b = inside (b :: raw) next)
    {s : String} {part due : Bytes} (htext : part ++ due = encodeText s) (hdue : due ≠ []) :
    ∃ escape, part.foldl step (inside [] .plain) = inside part.reverse escape := by
  -- What is missing ends with the quotation mark, so the part is one of the body.
  obtain ⟨due, mark, rfl⟩ := (List.eq_nil_or_concat' due).resolve_left hdue
  rw [encodeText, ← List.append_assoc] at htext
  obtain ⟨hbody, -⟩ := List.append_inj' htext rfl
  have hfollow := Escape.follow_flatMap (Utf8.encode s)
  rw [← hbody, Escape.follow_append] at hfollow
  obtain ⟨escape, hescape, -⟩ := Option.bind_eq_some_iff.1 hfollow
  refine ⟨escape, ?_⟩
  rw [foldl_follow hinside hescape, List.append_nil]

theorem stopsWith_encodeText (s : String) (outer : List Frame) :
    State.StopsWith (IsLeftOf (.string (encodeText s)) outer) (.text [] .plain outer)
      (encodeText s) := by
  intro part due htext hdue
  have hinside : ∀ raw escape b next, textStep escape b = .goesOn next →
      (State.text raw escape outer).step b = .text (b :: raw) next outer :=
    fun raw escape b next h => by rw [step, h]
  obtain ⟨escape, hfold⟩ := foldl_short_encodeText hinside htext hdue
  refine ⟨_, ⟨.openString part .endOfText, htext ▸ .string hdue, rfl⟩, ?_⟩
  have hfinish : (State.text part.reverse escape outer).finish =
      ⟨cutAll .endOfText (.openString part.reverse.reverse .endOfText) outer, none⟩ := rfl
  rw [hfold, hfinish, List.reverse_reverse]

theorem stopsWith_encodeText_key (s : String) (done : List (Bytes × Value)) (t : Value)
    (rest : Members) (outer : List Frame) :
    State.StopsWith (IsLeftOf (.object (Members.prepend done (.cons (encodeText s) t rest))) outer)
      (.keyText [] .plain done outer) (encodeText s) := by
  intro part due htext hdue
  have hinside : ∀ raw escape b next, textStep escape b = .goesOn next →
      (State.keyText raw escape done outer).step b = .keyText (b :: raw) next done outer :=
    fun raw escape b next h => by rw [step, h]
  obtain ⟨escape, hfold⟩ := foldl_short_encodeText hinside htext hdue
  refine ⟨_, isLeftOf_members (htext ▸ Members.CutsTo.key t rest hdue) done, ?_⟩
  have hfinish : (State.keyText part.reverse escape done outer).finish =
      ⟨cutAll .endOfText (.object (Members.prepend done
        (.cons part.reverse.reverse (.broken .endOfText) (.cut .endOfText)))) outer, none⟩ := rfl
  rw [hfold, hfinish, List.reverse_reverse]

/-- What is left if a text stops inside a number. -/
theorem finish_number (whole : Bytes) (form : NumberForm) (literal : Bytes) (outer : List Frame) :
    ∃ t, IsLeftOf (.number whole) outer t ∧
      (State.number form literal outer).finish = ⟨t, none⟩ := by
  by_cases complete : form.isComplete = true
  · refine ⟨_, ⟨.number literal.reverse, .number whole _, rfl⟩, ?_⟩
    rw [finish, settle, if_pos complete]
    cases outer <;> rfl
  · refine ⟨_, ⟨.openNumber .endOfText, .openNumber whole, rfl⟩, ?_⟩
    rw [finish, settle, if_neg complete]
    rfl

theorem stopsWith_follow {form form' : NumberForm} {s : Bytes} (h : form.follow s = some form')
    (whole literal : Bytes) (outer : List Frame) :
    State.StopsWith (IsLeftOf (.number whole) outer) (.number form literal outer) s := by
  intro part due htext _
  rw [← htext, NumberForm.follow_append] at h
  obtain ⟨form'', hpart, -⟩ := Option.bind_eq_some_iff.1 h
  rw [foldl_number hpart]
  exact finish_number whole form'' _ outer

theorem stopsWith_word (due : Bytes) (v : Value) (outer : List Frame) :
    State.StopsWith (IsLeftOf v outer) (.word due v outer) due := by
  induction due with
  | nil => exact .nil _ _
  | cons d due ih =>
    refine .cons ⟨_, .start v, rfl⟩ rfl ?_
    cases due with
    | nil => exact .nil _ _
    | cons d' due =>
      rw [step, if_pos rfl]
      · exact ih
      · simp

/-! ### Values -/

/-- The first item of an array stops where a value stops that stands in its place. -/
theorem stopsWith_firstItem {v : Value} (h : v.IsWritten) (layout : Layout) (depth : Nat)
    (rest : Items) {outer : List Frame}
    (hvalue : State.StopsWith (IsLeftOf v (.array [] :: outer)) (.value (.array [] :: outer))
      (v.render layout depth)) :
    State.StopsWith (IsLeftOf (.array (.cons v rest)) outer) (.firstItem outer)
      (v.render layout depth) := by
  obtain ⟨b, bytes, hrender, hstep⟩ := exists_render_eq_cons h layout depth outer
  rw [hrender] at hvalue ⊢
  refine .cons (isLeftOf_items (.start (.cons v rest)) []) rfl ?_
  rw [hstep]
  intro part due htext hdue
  obtain ⟨t, ht, hfinish⟩ := hvalue (b :: part) due (by rw [List.cons_append, htext]) hdue
  exact ⟨t, ht.item rest, hfinish⟩

/-- The mark between a key and its value stops with nothing of the value read. -/
theorem stopsWith_keyMark (layout : Layout) (k : Bytes) (done : List (Bytes × Value)) (t : Value)
    (rest : Members) (outer : List Frame) :
    State.StopsWith (IsLeftOf (.object (Members.prepend done (.cons k t rest))) outer)
      (.colon k done outer) layout.keyMark := by
  have hleft : IsLeftOf (.object (Members.prepend done (.cons k t rest))) outer
      (cutAll .endOfText
        (.object (Members.prepend done (.cons k (.broken .endOfText) (.cut .endOfText)))) outer) :=
    isLeftOf_members (.value k rest (.start t)) done
  cases layout with
  | compact => exact .cons hleft rfl (.nil _ _)
  | indented => exact .cons hleft rfl (.cons hleft rfl (.nil _ _))

/-- A member and all that follows it stop before the key, in it, before the value, in it, or behind
it. -/
theorem stopsWith_member (layout : Layout) (depth : Nat) {s : State}
    {done : List (Bytes × Value)} {outer : List Frame}
    (hnewline : s.step newline = s) (hspace : s.step space = s)
    (hquote : s.step quote = .keyText [] .plain done outer)
    (hfinish : s.finish =
      ⟨cutAll .endOfText (.object (Members.prepend done (.cut .endOfText))) outer, none⟩)
    {key : String} {t : Value} {rest : Members}
    (hvalue : State.StopsWith (IsLeftOf t (.object done (encodeText key) :: outer))
      (.value (.object done (encodeText key) :: outer)) (t.render layout (depth + 1)))
    (hrest : State.StopsWith
      (IsLeftOf (.object (Members.prepend ((encodeText key, t) :: done) rest)) outer)
      ((t.render layout (depth + 1)).foldl step (.value (.object done (encodeText key) :: outer)))
      (rest.render layout depth false)) :
    State.StopsWith
      (IsLeftOf (.object (Members.prepend done (.cons (encodeText key) t rest))) outer) s
      (layout.lineBreak (depth + 1) ++ quote :: encodeText key ++ layout.keyMark
        ++ t.render layout (depth + 1) ++ rest.render layout depth false) := by
  have hcut : IsLeftOf (.object (Members.prepend done (.cons (encodeText key) t rest))) outer
      (cutAll .endOfText (.object (Members.prepend done (.cut .endOfText))) outer) :=
    isLeftOf_members (.start (.cons (encodeText key) t rest)) done
  have hkey : (quote :: encodeText key).foldl step s = .colon (encodeText key) done outer := by
    rw [List.foldl_cons, hquote, foldl_encodeText_key]
  refine .append (.append (.append (.append ?_ ?_) ?_) ?_) ?_
  · exact .lineBreak hnewline hspace hcut hfinish layout (depth + 1)
  · rw [foldl_lineBreak hnewline hspace]
    refine .cons hcut hfinish ?_
    rw [hquote]
    exact stopsWith_encodeText_key key done t rest outer
  · rw [List.foldl_append, foldl_lineBreak hnewline hspace, hkey]
    exact stopsWith_keyMark layout (encodeText key) done t rest outer
  · rw [List.foldl_append, List.foldl_append, foldl_lineBreak hnewline hspace, hkey, foldl_keyMark]
    exact hvalue.mono fun _ h => h.member rest
  · rw [List.foldl_append, List.foldl_append, List.foldl_append,
      foldl_lineBreak hnewline hspace, hkey, foldl_keyMark]
    exact hrest

mutual

/-- Wherever the text of a value stops, the reader is left with that value, cut at the place. -/
theorem Value.stopsWith_render (layout : Layout) : ∀ (v : Value), v.IsWritten →
    ∀ (depth : Nat) (outer : List Frame),
      State.StopsWith (IsLeftOf v outer) (.value outer) (v.render layout depth)
  | .null, _, _, outer => .cons ⟨_, .start _, rfl⟩ rfl (stopsWith_word (bytes "ull") .null outer)
  | .bool true, _, _, outer =>
    .cons ⟨_, .start _, rfl⟩ rfl (stopsWith_word (bytes "rue") (.bool true) outer)
  | .bool false, _, _, outer =>
    .cons ⟨_, .start _, rfl⟩ rfl (stopsWith_word (bytes "alse") (.bool false) outer)
  | .number _, h, depth, outer => by
    obtain ⟨b, rest, start, form, rfl, hstart, hrest, -⟩ := h
    obtain ⟨hblank, -, hvalue⟩ := startValue?_of_start? hstart outer
    have hstep : State.step (.value outer) b = .number start [b] outer := by
      rw [State.step, hblank, hvalue]
      rfl
    rw [Value.render]
    refine .cons ⟨_, .start _, rfl⟩ rfl ?_
    rw [hstep]
    exact stopsWith_follow hrest (b :: rest) [b] outer
  | .string _, h, _, outer => by
    obtain ⟨s, rfl⟩ := h
    exact .cons ⟨_, .start _, rfl⟩ rfl (stopsWith_encodeText s outer)
  | .array .closed, _, _, outer =>
    .cons ⟨_, .start _, rfl⟩ rfl
      (.cons (isLeftOf_items (.start .closed) []) rfl (.nil _ _))
  | .array (.cons t rest), h, depth, outer => by
    have hvalue := t.stopsWith_render layout h.1 (depth + 1) (.array [] :: outer)
    have hended := t.ended_render layout h.1 (depth + 1) (.array [] :: outer)
    have hrest := rest.stopsWith_render layout h.2 depth [] outer hended
    have hcut : IsLeftOf (.array (.cons t rest)) outer
        (cutAll .endOfText (.array (.cut .endOfText)) outer) :=
      isLeftOf_items (.start (.cons t rest)) []
    have hstep : State.step (.value outer) openBracket = .firstItem outer := rfl
    rw [Value.render, Items.render, if_pos rfl, List.nil_append]
    · -- A line break, the first item, and then all that follows it.
      refine .cons ⟨_, .start _, rfl⟩ rfl ?_
      rw [hstep]
      refine .append (.append ?_ ?_) ?_
      · exact .lineBreak rfl rfl hcut rfl layout (depth + 1)
      · rw [foldl_lineBreak rfl rfl]
        exact stopsWith_firstItem h.1 layout (depth + 1) rest hvalue
      · rw [List.foldl_append, foldl_lineBreak rfl rfl, foldl_render_firstItem h.1]
        exact hrest
    · simp
  | .object .closed, _, _, outer =>
    .cons ⟨_, .start _, rfl⟩ rfl
      (.cons (isLeftOf_members (.start .closed) []) rfl (.nil _ _))
  | .object (.cons _ t rest), h, depth, outer => by
    obtain ⟨⟨key, rfl⟩, hwritten, hrestWritten⟩ := h
    have hvalue := t.stopsWith_render layout hwritten (depth + 1)
      (.object [] (encodeText key) :: outer)
    have hended := t.ended_render layout hwritten (depth + 1)
      (.object [] (encodeText key) :: outer)
    have hrest := rest.stopsWith_render layout hrestWritten depth [] outer hended
    have hstep : State.step (.value outer) openBrace = .firstKey outer := rfl
    rw [Value.render, Members.render, if_pos rfl, List.nil_append]
    · refine .cons ⟨_, .start _, rfl⟩ rfl ?_
      rw [hstep]
      exact stopsWith_member layout depth rfl rfl rfl rfl hvalue hrest
    · simp

/-- The same for further items, behind a value in the array that they stand in. -/
theorem Items.stopsWith_render (layout : Layout) : ∀ (items : Items), items.IsWritten →
    ∀ (depth : Nat) (done : List Value) {v : Value} (outer : List Frame) {s : State},
      s.Ended v (.array done :: outer) →
        State.StopsWith (IsLeftOf (.array (Items.prepend (v :: done) items)) outer) s
          (items.render layout depth false)
  | .closed, _, depth, done, v, outer, s, h => by
    have hcut : IsLeftOf (.array (Items.prepend (v :: done) .closed)) outer
        (cutAll .endOfText v (.array done :: outer)) := isLeftOf_items (.start .closed) (v :: done)
    rw [Items.render]
    refine .append (h.stopsWith_lineBreak hcut layout depth) ?_
    exact .cons hcut (h.foldl_lineBreak layout depth).finish_inside (.nil _ _)
  | .cons t rest, hitems, depth, done, v, outer, s, h => by
    have hstep : s.step comma = .value (.array (v :: done) :: outer) := h.step (by decide)
    have hvalue := t.stopsWith_render layout hitems.1 (depth + 1) (.array (v :: done) :: outer)
    have hended := t.ended_render layout hitems.1 (depth + 1) (.array (v :: done) :: outer)
    have hrest := rest.stopsWith_render layout hitems.2 depth (v :: done) outer hended
    have hcut : IsLeftOf (.array (Items.prepend (v :: done) (.cons t rest))) outer
        (cutAll .endOfText v (.array done :: outer)) :=
      isLeftOf_items (.start (.cons t rest)) (v :: done)
    rw [Items.render, if_neg (by simp), List.append_assoc, List.append_assoc, List.singleton_append]
    refine .cons hcut h.finish_inside ?_
    rw [hstep]
    refine .append ?_ (.append ?_ ?_)
    · exact .lineBreak rfl rfl (isLeftOf_items (.item rest (.start t)) (v :: done)) rfl layout
        (depth + 1)
    · rw [foldl_lineBreak rfl rfl]
      exact hvalue.mono fun _ h => h.item rest
    · rw [foldl_lineBreak rfl rfl]
      exact hrest

/-- The same for further members, behind a value in the object that they stand in. -/
theorem Members.stopsWith_render (layout : Layout) : ∀ (members : Members), members.IsWritten →
    ∀ (depth : Nat) (done : List (Bytes × Value)) {k : Bytes} {v : Value} (outer : List Frame)
      {s : State}, s.Ended v (.object done k :: outer) →
        State.StopsWith (IsLeftOf (.object (Members.prepend ((k, v) :: done) members)) outer) s
          (members.render layout depth false)
  | .closed, _, depth, done, k, v, outer, s, h => by
    have hcut : IsLeftOf (.object (Members.prepend ((k, v) :: done) .closed)) outer
        (cutAll .endOfText v (.object done k :: outer)) :=
      isLeftOf_members (.start .closed) ((k, v) :: done)
    rw [Members.render]
    refine .append (h.stopsWith_lineBreak hcut layout depth) ?_
    exact .cons hcut (h.foldl_lineBreak layout depth).finish_inside (.nil _ _)
  | .cons _ t rest, hmembers, depth, done, k, v, outer, s, h => by
    obtain ⟨⟨key, rfl⟩, hwritten, hrestWritten⟩ := hmembers
    have hstep : s.step comma = .key ((k, v) :: done) outer := h.step (by decide)
    have hvalue := t.stopsWith_render layout hwritten (depth + 1)
      (.object ((k, v) :: done) (encodeText key) :: outer)
    have hended := t.ended_render layout hwritten (depth + 1)
      (.object ((k, v) :: done) (encodeText key) :: outer)
    have hrest := rest.stopsWith_render layout hrestWritten depth ((k, v) :: done) outer hended
    have hcut : IsLeftOf
        (.object (Members.prepend ((k, v) :: done) (.cons (encodeText key) t rest))) outer
        (cutAll .endOfText v (.object done k :: outer)) :=
      isLeftOf_members (.start (.cons (encodeText key) t rest)) ((k, v) :: done)
    have hmember := stopsWith_member layout depth (s := .key ((k, v) :: done) outer)
      rfl rfl rfl rfl hvalue hrest
    rw [Members.render, if_neg (by simp)]
    simp only [List.append_assoc, List.cons_append] at hmember ⊢
    refine .cons hcut h.finish_inside ?_
    rw [hstep]
    exact hmember

end

/-- From a text that stops too early the value is read, cut at the place. -/
theorem exists_read_eq_of_short {v : Value} (h : v.IsWritten) (layout : Layout) {part due : Bytes}
    (htext : part ++ due = render layout v) (hdue : due ≠ []) :
    ∃ t, v.CutsTo t ∧ read part = ⟨t, none⟩ := by
  obtain ⟨-, ⟨t, ht, rfl⟩, hfinish⟩ := v.stopsWith_render layout h 0 [] part due htext hdue
  exact ⟨t, ht, hfinish⟩

end ReleaseRecovery.Json
