import SqlCompose.Proofs.Fragments.Reformatting
import SqlCompose.Proofs.Fragments.Slices

/-! Reading a fragment. It is read if it splits into tokens and has as many placeholders as there
are variables. Its parts, with question marks for the variables, are its normal form. The lines of a
normal form are the lines that it has been made of, without the common indentation, so bringing it
into normal form again changes nothing, and it is read as the same fragment. -/

namespace SqlCompose

open LexMode Fragment

theorem IsBody.body_modeLines {first : SourceLine} {rest : List SourceLine}
    (lines : IsBody first rest) :
    body (modeLines code
        (first.text.trimStart :: rest.map (SourceLine.cut (commonIndent rest)))) =
      first.withText first.text.trimStart ::
        rest.map fun l => l.withText (l.cut (commonIndent rest)) := by
  have none : Text.isAllBlank [] = true := rfl
  have here : Realigned first first.text.trimStart := lines.realigned none
  have cuts : ∀ l ∈ rest, Realigned l (l.cut (commonIndent rest)) := fun _ mem => realigned_cut mem
  obtain ⟨begins, ends⟩ := ends_realigned lines.visible lines.last here cuts
  cases lines.neat with
  | cons kept trimmed neat =>
    have found := neat.modeLines_append cuts []
    rw [List.append_nil, modeLines, List.append_nil] at found
    rw [here.modeLines_cons startsLine_code kept trimmed, found]
    exact body_eq_self begins ends

section Normal

variable {limit : Nat} {sql : Text} {ts : List Token}

theorem normalText_normalText (h : tokenize limit sql = .ok ts) :
    normalText (normalText sql) = normalText sql := by
  rcases normalText_eq_nil_or h with none | ⟨first, rest, lines, whole⟩
  · rw [none]
    decide +kernel
  · have none : Text.isAllBlank [] = true := rfl
    have same := textOf_place_shifted first lines.bare none 0
    have cuts : (fun l : SourceLine =>
          l.withText (shifted (Text.spaces 0) (commonIndent rest) l)) =
        fun l => l.withText (l.cut (commonIndent rest)) :=
      funext fun l => congrArg l.withText (shifted_nil _ l)
    rw [cuts, List.nil_append] at same
    rw [normalText_eq (tokenize_normalText h), whole, lines.lines_normal, lines.body_modeLines, same]

theorem RawText.read_eq_ok_iff {body : RawText} :
    RawText.read limit sql = .ok body ↔ (∃ ts, tokenize limit sql = .ok ts) ∧
      body = RawText.ofNormal (normalText sql) (scan (normalText sql)).tokens := by
  have found : ∀ {ts : List Token}, tokenize limit sql = .ok ts → RawText.read limit sql =
      .ok (RawText.ofNormal (normalText sql) (scan (normalText sql)).tokens) := by
    intro ts split
    have again := tokenize_normalText split
    obtain ⟨-, rfl, -⟩ := tokenize_eq_ok_iff.mp split
    exact Except.bind_eq_ok_iff.mpr ⟨_, split, Except.bind_eq_ok_iff.mpr ⟨_, again, rfl⟩⟩
  constructor
  · intro h
    obtain ⟨ts, split, -⟩ := Except.bind_eq_ok_iff.mp h
    rw [found split] at h
    exact ⟨⟨ts, split⟩, (Except.ok.inj h).symm⟩
  · rintro ⟨⟨ts, split⟩, rfl⟩
    exact found split

theorem shapes_normalText (h : tokenize limit sql = .ok ts) :
    (scan (normalText sql)).tokens.map Token.shape = ts.map Token.shape :=
  ((lexes_normalText h).scanAt Place.start).2

theorem placeholderTokens_normalText (h : tokenize limit sql = .ok ts) :
    placeholderTokens (scan (normalText sql)).tokens = placeholderTokens ts := by
  rw [placeholderTokens_eq, (sameTokens_of_shapes (shapes_normalText h)).kinds,
    ← placeholderTokens_eq]

theorem RawText.read_text {body : RawText} (h : RawText.read limit sql = .ok body) :
    RawText.read limit body.text = .ok body := by
  obtain ⟨⟨ts, split⟩, rfl⟩ := RawText.read_eq_ok_iff.mp h
  refine RawText.read_eq_ok_iff.mpr ⟨⟨_, tokenize_normalText split⟩, ?_⟩
  have same := normalText_normalText split
  rw [RawText.ofNormal, same]
  rfl

end Normal

theorem RawSql.parse_eq_ok_iff {limit : Nat} {sql : Text} {binds : List BindVariable}
    {raw : RawSql} : RawSql.parse limit sql binds = .ok raw ↔
      RawText.read limit sql = .ok raw.body ∧ raw.binds = binds := by
  constructor
  · intro h
    refine ⟨RawSql.read_of_parse h, ?_⟩
    simp only [RawSql.parse] at h
    split at h
    · cases h
    · split at h
      · obtain rfl := Except.ok.inj h
        rfl
      · cases h
  · rintro ⟨read, rfl⟩
    obtain ⟨body, binds, isRead, isBound⟩ := raw
    simp only [RawSql.parse]
    split
    · next error => cases error.symm.trans read
    · next body' found =>
      obtain rfl := Except.ok.inj (found.symm.trans read)
      exact dif_pos isBound

def RawPart.plain : RawPart → Text
  | text s => s
  | literal s => s
  | bind _ => ['?']

def RawPart.literal? : RawPart → Option Text
  | literal s => some s
  | _ => none

theorem RawPart.codeText_cells (part : RawPart) : codeText .question part.cells = part.plain := by
  cases part with
  | text s => exact codeText_chars s
  | literal s => exact codeText_kept s
  | bind i => rfl

theorem RawText.codeText_parts (body : RawText) :
    codeText .question body.cells = body.parts.flatMap RawPart.plain := by
  simp only [RawText.cells, codeText, List.flatMap_assoc]
  exact congrArg (body.parts.flatMap ·) (funext RawPart.codeText_cells)

theorem RawText.literals_cut (offset index : Nat) (rest : Text) (ts : List Token) :
    (RawText.cut offset index rest ts).filterMap RawPart.literal? = longTexts ts := by
  induction ts generalizing offset index rest with
  | nil =>
    rw [cut]
    split <;> rfl
  | cons t ts ih =>
    have gap : ∀ s : Text, (if s = [] then [] else [RawPart.text s]).filterMap
        RawPart.literal? = [] := by
      intro s
      split <;> rfl
    rw [longTexts_cons]
    simp only [cut]
    split
    · next placeholder =>
      have short : t.isLongLiteral = false := by simp [Token.isLongLiteral, placeholder]
      rw [List.filterMap_append, gap, List.nil_append, List.filterMap_cons_none rfl, ih, short]
      rfl
    · split
      · have word : RawPart.literal? (.literal t.text) = some t.text := rfl
        rw [List.filterMap_append, gap, List.nil_append, List.filterMap_cons_some word, ih]
      · exact ih _ _ _

/-- What a fragment is made of: a row of parts that spell its text, with a variable for each
question mark, in their order, and the long literals among the tokens `ts`. -/
structure RawSql.Splits (raw : RawSql) (ts : List Token) : Prop where
  text : raw.body.parts.flatMap RawPart.plain = raw.body.text
  binds : raw.body.parts.filterMap RawPart.bindIndex? = List.range raw.binds.length
  literals : raw.body.parts.filterMap RawPart.literal? = longTexts ts

/-- A fragment is read if and only if it splits into tokens and has a placeholder for each variable.
Then its parts spell its text, hold its variables in their order and its long literals, and its text
is read as the same fragment. -/
theorem RawSql.parse_spec (limit : Nat) (sql : Text) (binds : List BindVariable) :
    ((∃ raw, RawSql.parse limit sql binds = .ok raw) ↔
      ∃ ts, tokenize limit sql = .ok ts ∧ placeholderTokens ts = binds.length) ∧
    ∀ raw, RawSql.parse limit sql binds = .ok raw → raw.binds = binds ∧
      (∀ ts, tokenize limit sql = .ok ts → raw.Splits ts) ∧
      RawSql.parse limit raw.body.text binds = .ok raw := by
  refine ⟨⟨?_, ?_⟩, ?_⟩
  · rintro ⟨raw, h⟩
    obtain ⟨read, rfl⟩ := RawSql.parse_eq_ok_iff.mp h
    obtain ⟨⟨ts, split⟩, text⟩ := RawText.read_eq_ok_iff.mp read
    refine ⟨ts, split, ?_⟩
    rw [← raw.isBound, text, ← placeholderTokens_normalText split]
    rfl
  · rintro ⟨ts, split, count⟩
    have read := RawText.read_eq_ok_iff.mpr ⟨⟨ts, split⟩, rfl⟩
    have isBound : (RawText.ofNormal (normalText sql) (scan (normalText sql)).tokens).placeholders =
        binds.length := (placeholderTokens_normalText split).trans count
    exact ⟨⟨_, binds, ⟨limit, sql, read⟩, isBound⟩, RawSql.parse_eq_ok_iff.mpr ⟨read, rfl⟩⟩
  · intro raw h
    obtain ⟨read, rfl⟩ := RawSql.parse_eq_ok_iff.mp h
    refine ⟨rfl, fun ts split => ⟨?_, ?_, ?_⟩,
      RawSql.parse_eq_ok_iff.mpr ⟨RawText.read_text read, rfl⟩⟩
    · obtain ⟨text, ok, body⟩ := RawText.exists_scan_of_read read
      rw [← RawText.codeText_parts, body]
      exact ((cutsTidily_scan ok).here 0).1
    · rw [RawText.bindIndices_read read, raw.isBound, List.range_eq_range']
    · have text := (RawText.read_eq_ok_iff.mp read).2
      rw [text, ← longTexts_of_shapes (shapes_normalText split)]
      exact RawText.literals_cut 0 0 _ _

/-- The fragment `sampleFragment` with a variable. -/
theorem RawSql.parse_spec_sample :
    placeholderTokens (scan sampleFragment).tokens = 1 ∧
    RawSql.parse 9 sampleFragment [.unvalued ⟨"W", by decide⟩ .int] = .ok writtenSample ∧
    writtenSample.body.text = "-- first ?\nSELECT 'a\n    ''b'\n  , ? /* x\n y */".toList ∧
    writtenSample.Splits (scan sampleFragment).tokens ∧
    longTexts (scan sampleFragment).tokens = ["'a\n    ''b'".toList] ∧
    RawSql.parse 9 writtenSample.body.text [.unvalued ⟨"W", by decide⟩ .int] =
      .ok writtenSample := by
  have parsed : RawSql.parse 9 sampleFragment [.unvalued ⟨"W", by decide⟩ .int] =
      .ok writtenSample := by decide +kernel
  have known : tokenize 9 sampleFragment = .ok (scan sampleFragment).tokens :=
    tokenize_eq_ok_iff.mpr ⟨by decide +kernel, rfl, by decide +kernel⟩
  obtain ⟨-, split, again⟩ := (RawSql.parse_spec 9 sampleFragment _).2 _ parsed
  exact ⟨by decide +kernel, parsed, by decide +kernel, split _ known, by decide +kernel, again⟩

end SqlCompose
