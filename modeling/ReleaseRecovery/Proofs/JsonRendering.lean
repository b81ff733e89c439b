import ReleaseRecovery.Json.Reader
import ReleaseRecovery.Proofs.JsonText

/-!
# Reading back a rendered JSON value

The reader goes through the text of a value byte by byte. A string leaves it inside that string
until the quotation mark that closes it, blanks leave it where it is, and every item leaves it
behind that item in the brackets that were open before.

## Main Definitions

* `Json.Value.IsWritten` — the strings and numbers of a value are written as the reader takes them
* `Json.State.Ended` — the reader is at the end of a value

## Main Statements

* `Json.Value.ended_render` — the text of a value takes the reader to the end of that value
* `Json.read_render` — a value is read back from its text
-/

namespace ReleaseRecovery.Json

open Ascii State

/-! ### Strings -/

/-- How far an escape has come after some more bytes of a string; `none` if one of them closes the
string or breaks it. -/
def Escape.follow (escape : Escape) : Bytes → Option Escape
  | [] => some escape
  | b :: rest =>
    match textStep escape b with
    | .goesOn escape => escape.follow rest
    | .closes | .breaks => none

theorem Escape.follow_append (escape : Escape) (s rest : Bytes) :
    escape.follow (s ++ rest) = (escape.follow s).bind fun e => e.follow rest := by
  induction s generalizing escape with
  | nil => rfl
  | cons b s ih =>
    rw [List.cons_append, follow, follow]
    cases textStep escape b with
    | goesOn escape => exact ih escape
    | closes => rfl
    | breaks => rfl

/-- Every byte is written as a whole. -/
theorem Escape.follow_escapeByte (b : UInt8) :
    Escape.plain.follow (escapeByte b) = some .plain := by
  unfold escapeByte
  split
  · rfl
  split
  · rfl
  split
  · rfl
  split
  · rfl
  split
  · rfl
  split
  · rfl
  split
  · rfl
  split
  · rename_i hcontrol
    have hlast : textStep (.digits [hexDigit (b.toNat / 16), zero, zero]) (hexDigit (b.toNat % 16))
        = .goesOn .plain := by
      rw [textStep, hexNumber?_hexByte hcontrol]
      rfl
    show (match textStep (.digits [hexDigit (b.toNat / 16), zero, zero])
      (hexDigit (b.toNat % 16)) with
        | .goesOn escape => escape.follow []
        | .closes | .breaks => none) = some .plain
    rw [hlast]
    rfl
  · rename_i hquote hbackslash _ _ _ _ _ hplain
    have hstep : textStep .plain b = .goesOn .plain := by
      rw [textStep, if_neg hquote, if_neg hbackslash, if_neg hplain]
    rw [follow, hstep]
    rfl

theorem Escape.follow_flatMap (s : Bytes) :
    Escape.plain.follow (s.flatMap escapeByte) = some .plain := by
  induction s with
  | nil => rfl
  | cons b s ih =>
    rw [List.flatMap_cons, follow_append, follow_escapeByte]
    exact ih

/-- A state that takes over the bytes of a string takes over as many as follow each other. -/
theorem foldl_follow {inside : Bytes → Escape → State}
    (hinside : ∀ raw escape b next, textStep escape b = .goesOn next →
      (inside raw escape).step b = inside (b :: raw) next)
    {escape escape' : Escape} {s : Bytes} (h : escape.follow s = some escape') (raw : Bytes) :
    s.foldl step (inside raw escape) = inside (s.reverse ++ raw) escape' := by
  induction s generalizing escape raw with
  | nil =>
    cases h
    rfl
  | cons b s ih =>
    rw [Escape.follow] at h
    cases hstep : textStep escape b with
    | goesOn next =>
      rw [hstep] at h
      rw [List.foldl_cons, hinside raw escape b next hstep, ih h, List.reverse_cons,
        List.append_assoc]
      rfl
    | closes =>
      rw [hstep] at h
      cases h
    | breaks =>
      rw [hstep] at h
      cases h

/-- A written string is read up to the quotation mark that closes it. -/
theorem foldl_encodeText (s : String) (outer : List Frame) :
    (encodeText s).foldl step (.text [] .plain outer) = .after (.string (encodeText s)) outer := by
  have hinside : ∀ raw escape b next, textStep escape b = .goesOn next →
      (State.text raw escape outer).step b = .text (b :: raw) next outer :=
    fun raw escape b next h => by rw [step, h]
  rw [encodeText, List.foldl_append,
    foldl_follow hinside (Escape.follow_flatMap _)]
  simp [step, textStep]

theorem foldl_encodeText_key (s : String) (members : List (Bytes × Value)) (outer : List Frame) :
    (encodeText s).foldl step (.keyText [] .plain members outer) =
      .colon (encodeText s) members outer := by
  have hinside : ∀ raw escape b next, textStep escape b = .goesOn next →
      (State.keyText raw escape members outer).step b = .keyText (b :: raw) next members outer :=
    fun raw escape b next h => by rw [step, h]
  rw [encodeText, List.foldl_append, foldl_follow hinside (Escape.follow_flatMap _)]
  simp [step, textStep]

/-! ### Numbers -/

/-- How far a literal has come after some more bytes; `none` if one of them does not belong to
it. -/
def NumberForm.follow (form : NumberForm) : Bytes → Option NumberForm
  | [] => some form
  | b :: rest =>
    match form.next b with
    | .goesOn form => form.follow rest
    | .ends | .broken => none

theorem NumberForm.follow_append (form : NumberForm) (s rest : Bytes) :
    form.follow (s ++ rest) = (form.follow s).bind fun f => f.follow rest := by
  induction s generalizing form with
  | nil => rfl
  | cons b s ih =>
    rw [List.cons_append, follow, follow]
    cases form.next b with
    | goesOn form => exact ih form
    | ends => rfl
    | broken => rfl

/-- Bytes that are the literal of a number as a whole. -/
def IsLiteral (literal : Bytes) : Prop :=
  ∃ b rest start form, literal = b :: rest ∧ NumberForm.start? b = some start ∧
    start.follow rest = some form ∧ form.isComplete = true

theorem foldl_number {form form' : NumberForm} {s : Bytes} (h : form.follow s = some form')
    (literal : Bytes) (outer : List Frame) :
    s.foldl step (.number form literal outer) = .number form' (s.reverse ++ literal) outer := by
  induction s generalizing form literal with
  | nil =>
    cases h
    rfl
  | cons b s ih =>
    rw [NumberForm.follow] at h
    rw [List.foldl_cons, step]
    cases hnext : form.next b with
    | goesOn next =>
      rw [hnext] at h
      dsimp only
      rw [ih h, List.reverse_cons, List.append_assoc]
      rfl
    | ends =>
      rw [hnext] at h
      cases h
    | broken =>
      rw [hnext] at h
      cases h

/-! ### The end of a value -/

/-- The reader is at the end of a value inside some open brackets. The end of a number shows only by
what follows it. -/
inductive State.Ended (v : Value) (outer : List Frame) : State → Prop
  | after : Ended v outer (.after v outer)
  | number (form : NumberForm) (literal : Bytes) (complete : form.isComplete = true)
      (h : v = .number literal.reverse) : Ended v outer (.number form literal outer)

/-- A byte that cannot go on with a number. -/
def endsNumber (b : UInt8) : Bool := !isDigit b && b != dot && !NumberForm.isMark b

theorem NumberForm.next_eq_ends {form : NumberForm} (complete : form.isComplete = true) {b : UInt8}
    (hb : endsNumber b = true) : form.next b = .ends := by
  simp only [endsNumber, Bool.and_eq_true, Bool.not_eq_true', bne_iff_ne] at hb
  obtain ⟨⟨hdigit, hdot⟩, hmark⟩ := hb
  cases form <;> simp_all [isComplete, next]

theorem State.Ended.step {v : Value} {outer : List Frame} {s : State} (h : s.Ended v outer)
    {b : UInt8} (hb : endsNumber b = true) : s.step b = stepAfter v outer b := by
  cases h with
  | after => rfl
  | number form literal complete hv =>
    rw [State.step, NumberForm.next_eq_ends complete hb, hv]

theorem State.Ended.finish {v : Value} {s : State} (h : s.Ended v []) : s.finish = ⟨v, none⟩ := by
  cases h with
  | after => rfl
  | number form literal complete hv =>
    rw [State.finish, settle, if_pos complete, hv]

/-! ### Blanks -/

theorem eq_of_mem_lineBreak {layout : Layout} {depth : Nat} {b : UInt8}
    (h : b ∈ layout.lineBreak depth) : b = newline ∨ b = space := by
  cases layout with
  | compact => cases h
  | indented =>
    rcases List.mem_cons.1 h with h | h
    · exact .inl h
    · exact .inr (List.eq_of_mem_replicate h)

/-- Blanks leave the reader in a state that each of them leaves alone. -/
theorem foldl_blanks {s : State} (h : s.step newline = s) (h' : s.step space = s) {blanks : Bytes}
    (hblanks : ∀ b ∈ blanks, b = newline ∨ b = space) : blanks.foldl step s = s := by
  induction blanks with
  | nil => rfl
  | cons b blanks ih =>
    rw [List.forall_mem_cons] at hblanks
    have hb : s.step b = s := by
      rcases hblanks.1 with rfl | rfl
      · exact h
      · exact h'
    rw [List.foldl_cons, hb]
    exact ih hblanks.2

theorem foldl_lineBreak {s : State} (h : s.step newline = s) (h' : s.step space = s)
    (layout : Layout) (depth : Nat) : (layout.lineBreak depth).foldl step s = s :=
  foldl_blanks h h' fun _ => eq_of_mem_lineBreak

/-- Blanks leave the reader at the end of a value. -/
theorem State.Ended.foldl_blanks {v : Value} {outer : List Frame} {s : State} (h : s.Ended v outer)
    {blanks : Bytes} (hblanks : ∀ b ∈ blanks, b = newline ∨ b = space) :
    (blanks.foldl State.step s).Ended v outer := by
  induction blanks generalizing s with
  | nil => exact h
  | cons b blanks ih =>
    rw [List.forall_mem_cons] at hblanks
    have hafter : s.step b = .after v outer := by
      rcases hblanks.1 with rfl | rfl <;> exact h.step (by decide)
    rw [List.foldl_cons, hafter]
    exact ih .after hblanks.2

theorem State.Ended.foldl_lineBreak {v : Value} {outer : List Frame} {s : State}
    (h : s.Ended v outer) (layout : Layout) (depth : Nat) :
    ((layout.lineBreak depth).foldl State.step s).Ended v outer :=
  h.foldl_blanks fun _ => eq_of_mem_lineBreak

/-! ### Values -/

mutual

/-- The strings and numbers of a value are written as the reader takes them, and it is not cut. -/
def Value.IsWritten : Value → Prop
  | .null | .bool _ => True
  | .number literal => IsLiteral literal
  | .string raw => ∃ s, raw = encodeText s
  | .array items => items.IsWritten
  | .object members => members.IsWritten
  | .openString _ _ | .openNumber _ | .broken _ => False

/-- The same for a list of values. -/
def Items.IsWritten : Items → Prop
  | .closed => True
  | .cut _ => False
  | .cons t rest => t.IsWritten ∧ rest.IsWritten

/-- The same for a list of members. -/
def Members.IsWritten : Members → Prop
  | .closed => True
  | .cut _ => False
  | .cons k t rest => (∃ s, k = encodeText s) ∧ t.IsWritten ∧ rest.IsWritten

end

/-- A byte that starts a number starts nothing else. -/
theorem startValue?_of_start? {b : UInt8} {form : NumberForm} (h : NumberForm.start? b = some form)
    (outer : List Frame) :
    isBlank b = false ∧ b ≠ closeBracket ∧
      startValue? outer b = some (.number form [b] outer) := by
  have hne : ∀ k, NumberForm.start? k = none → b ≠ k := by
    rintro k hk rfl
    rw [hk] at h
    cases h
  have hblank : isBlank b = false := by
    simp only [isBlank, Bool.or_eq_false_iff, beq_eq_false_iff_ne]
    exact ⟨⟨⟨hne _ (by decide), hne _ (by decide)⟩, hne _ (by decide)⟩, hne _ (by decide)⟩
  refine ⟨hblank, hne _ (by decide), ?_⟩
  rw [startValue?, if_neg (hne _ (by decide)), if_neg (hne _ (by decide)),
    if_neg (hne _ (by decide)), if_neg (hne _ (by decide)), if_neg (hne _ (by decide)),
    if_neg (hne _ (by decide)), h]
  rfl

/-- A value starts with a byte that is read as the start of an item, too. -/
theorem exists_render_eq_cons {v : Value} (h : v.IsWritten) (layout : Layout) (depth : Nat)
    (outer : List Frame) :
    ∃ b rest, v.render layout depth = b :: rest ∧
      State.step (.firstItem outer) b = State.step (.value (.array [] :: outer)) b := by
  cases v with
  | null => exact ⟨_, _, rfl, rfl⟩
  | bool value => cases value <;> exact ⟨_, _, rfl, rfl⟩
  | number literal =>
    obtain ⟨b, rest, start, form, rfl, hstart, -, -⟩ := h
    obtain ⟨hblank, hclose, hvalue⟩ := startValue?_of_start? hstart (.array [] :: outer)
    refine ⟨b, rest, rfl, ?_⟩
    rw [step, step, hblank, hvalue]
    simp [hclose]
  | string raw => exact ⟨_, _, rfl, rfl⟩
  | array items => cases items <;> exact ⟨_, _, rfl, rfl⟩
  | object members => cases members <;> exact ⟨_, _, rfl, rfl⟩
  | openString raw problem => cases h
  | openNumber problem => cases h
  | broken problem => cases h

/-- The first item of an array is read as a value. -/
theorem foldl_render_firstItem {v : Value} (h : v.IsWritten) (layout : Layout) (depth : Nat)
    (outer : List Frame) :
    (v.render layout depth).foldl step (.firstItem outer) =
      (v.render layout depth).foldl step (.value (.array [] :: outer)) := by
  obtain ⟨b, rest, hrender, hstep⟩ := exists_render_eq_cons h layout depth outer
  rw [hrender, List.foldl_cons, List.foldl_cons, hstep]

theorem foldl_keyMark (layout : Layout) (k : Bytes) (members : List (Bytes × Value))
    (outer : List Frame) :
    layout.keyMark.foldl step (.colon k members outer) = .value (.object members k :: outer) := by
  cases layout <;> rfl

mutual

/-- The text of a value takes the reader to the end of that value. -/
theorem Value.ended_render (layout : Layout) : ∀ (v : Value), v.IsWritten →
    ∀ (depth : Nat) (outer : List Frame),
      State.Ended v outer ((v.render layout depth).foldl State.step (.value outer))
  | .null, _, _, _ => .after
  | .bool true, _, _, _ => .after
  | .bool false, _, _, _ => .after
  | .number _, h, depth, outer => by
    obtain ⟨b, rest, start, form, rfl, hstart, hrest, complete⟩ := h
    obtain ⟨hblank, -, hvalue⟩ := startValue?_of_start? hstart outer
    have hstep : State.step (.value outer) b = .number start [b] outer := by
      rw [State.step, hblank, hvalue]
      rfl
    rw [Value.render, List.foldl_cons, hstep, foldl_number hrest]
    refine .number form _ complete ?_
    rw [List.reverse_append, List.reverse_reverse]
    rfl
  | .string _, h, depth, outer => by
    obtain ⟨s, rfl⟩ := h
    have hstep : State.step (.value outer) quote = .text [] .plain outer := rfl
    rw [Value.render, List.foldl_cons, hstep, foldl_encodeText]
    exact .after
  | .array .closed, _, _, _ => .after
  | .array (.cons t rest), h, depth, outer => by
    have hstep : State.step (.value outer) openBracket = .firstItem outer := rfl
    have ht := t.ended_render layout h.1 (depth + 1) (.array [] :: outer)
    have hrest := rest.after_render layout h.2 depth [] outer ht
    -- A line break, the first item, and then all that follows it.
    rw [Value.render, List.foldl_cons, hstep, Items.render, if_pos rfl, List.nil_append,
      List.foldl_append, List.foldl_append, foldl_lineBreak rfl rfl, foldl_render_firstItem h.1,
      hrest]
    · exact .after
    · simp
  | .object .closed, _, _, _ => .after
  | .object (.cons k t rest), h, depth, outer => by
    obtain ⟨⟨s, rfl⟩, hwritten, hrestWritten⟩ := h
    have hstep : State.step (.value outer) openBrace = .firstKey outer := rfl
    have hquote : State.step (.firstKey outer) quote = .keyText [] .plain [] outer := rfl
    have ht := t.ended_render layout hwritten (depth + 1) (.object [] (encodeText s) :: outer)
    have hrest := rest.after_render layout hrestWritten depth [] outer ht
    -- A line break, the first key, the mark behind it, its value, and then all that follows.
    rw [Value.render, List.foldl_cons, hstep, Members.render, if_pos rfl, List.nil_append,
      List.foldl_append, List.foldl_append, List.foldl_append, List.foldl_append,
      foldl_lineBreak rfl rfl, List.foldl_cons, hquote, foldl_encodeText_key, foldl_keyMark, hrest]
    · exact .after
    · simp

/-- The text of further items takes the reader behind the array that they stand in. -/
theorem Items.after_render (layout : Layout) : ∀ (items : Items), items.IsWritten →
    ∀ (depth : Nat) (done : List Value) {v : Value} (outer : List Frame) {s : State},
      s.Ended v (.array done :: outer) →
        (items.render layout depth false).foldl State.step s =
          .after (.array (Items.prepend (v :: done) items)) outer
  | .closed, _, depth, done, v, outer, s, h => by
    rw [Items.render, List.foldl_append, List.foldl_cons,
      (h.foldl_lineBreak layout depth).step (by decide)]
    rfl
  | .cons t rest, hitems, depth, done, v, outer, s, h => by
    have hstep : s.step comma = .value (.array (v :: done) :: outer) := h.step (by decide)
    have ht := t.ended_render layout hitems.1 (depth + 1) (.array (v :: done) :: outer)
    have hrest := rest.after_render layout hitems.2 depth (v :: done) outer ht
    rw [Items.render, if_neg (by simp), List.foldl_append, List.foldl_append, List.foldl_append,
      List.foldl_cons, hstep, List.foldl_nil, foldl_lineBreak rfl rfl, hrest]
    rfl

/-- The text of further members takes the reader behind the object that they stand in. -/
theorem Members.after_render (layout : Layout) : ∀ (members : Members), members.IsWritten →
    ∀ (depth : Nat) (done : List (Bytes × Value)) {k : Bytes} {v : Value} (outer : List Frame)
      {s : State}, s.Ended v (.object done k :: outer) →
        (members.render layout depth false).foldl State.step s =
          .after (.object (Members.prepend ((k, v) :: done) members)) outer
  | .closed, _, depth, done, k, v, outer, s, h => by
    rw [Members.render, List.foldl_append, List.foldl_cons,
      (h.foldl_lineBreak layout depth).step (by decide)]
    rfl
  | .cons _ t rest, hmembers, depth, done, k, v, outer, s, h => by
    obtain ⟨⟨key, rfl⟩, hwritten, hrestWritten⟩ := hmembers
    have hstep : s.step comma = .key ((k, v) :: done) outer := h.step (by decide)
    have hquote : State.step (.key ((k, v) :: done) outer) quote =
        .keyText [] .plain ((k, v) :: done) outer := rfl
    have ht := t.ended_render layout hwritten (depth + 1)
      (.object ((k, v) :: done) (encodeText key) :: outer)
    have hrest := rest.after_render layout hrestWritten depth ((k, v) :: done) outer ht
    rw [Members.render, if_neg (by simp), List.foldl_append, List.foldl_append, List.foldl_append,
      List.foldl_append, List.foldl_append, List.foldl_cons, List.foldl_cons, hstep, List.foldl_nil,
      foldl_lineBreak rfl rfl, hquote, foldl_encodeText_key, foldl_keyMark, hrest]
    rfl

end

/-- A value is read back from its text. -/
theorem read_render {v : Value} (h : v.IsWritten) (layout : Layout) :
    read (v.render layout 0) = ⟨v, none⟩ :=
  (v.ended_render layout h 0 []).finish

end ReleaseRecovery.Json
