import SqlCompose.Proofs.Pages.Extends
import SqlCompose.Proofs.Pages.Fragments

/-! Fragments at an indentation of spaces. What a fragment adds to a text is its row at another
indentation, perhaps behind a line end that was owed and a lead. So the text that is added has the
tokens of the fragment. A literal over several lines is written as it is, and stays so. -/

namespace SqlCompose

open Builder Fragment

def Cell.unnumbered : Cell → Cell
  | marker _ => marker 0
  | cell => cell

theorem Cell.text_unnumbered (cell : Cell) :
    cell.unnumbered.text .question = cell.text .question := by
  cases cell <;> rfl

theorem Cell.unnumbered_eq_char_iff {cell : Cell} {c : Char} :
    cell.unnumbered = .char c ↔ cell = .char c := by
  cases cell <;> simp [unnumbered]

theorem relaid_cons_iff {cell : Cell} {xs : List Cell} {t : Text} : Relaid (cell :: xs) t ↔
    ∃ (n : Nat) (s : Text), (cell ≠ .char '\n' → n = 0) ∧ Relaid xs s ∧
      t = cell.text .question ++ (Text.spaces n ++ s) := by
  constructor
  · intro h
    cases h with
    | cell other rest => exact ⟨0, _, fun _ => rfl, rest, rfl⟩
    | lineEnd n rest => exact ⟨n, _, fun other => absurd rfl other, rest, rfl⟩
  · rintro ⟨n, s, inLine, rest, rfl⟩
    by_cases lineEnd : cell = .char '\n'
    · subst lineEnd
      exact .lineEnd n rest
    · obtain rfl := inLine lineEnd
      exact .cell lineEnd rest

theorem relaid_unnumbered_iff {xs : List Cell} {t : Text} :
    Relaid (xs.map Cell.unnumbered) t ↔ Relaid xs t := by
  induction xs generalizing t with
  | nil => rfl
  | cons cell xs ih =>
    simp only [List.map_cons, relaid_cons_iff, ih, Cell.text_unnumbered, ne_eq,
      Cell.unnumbered_eq_char_iff]

theorem inLine_of_unnumbered {xs ys : List Cell}
    (same : xs.map Cell.unnumbered = ys.map Cell.unnumbered)
    (inLine : ∀ cell ∈ ys.head?, cell ≠ .char '\n') : ∀ cell ∈ xs.head?, cell ≠ .char '\n' := by
  rintro cell head rfl
  have heads := congrArg List.head? same
  rw [List.head?_map, List.head?_map, Option.mem_def.mp head] at heads
  obtain ⟨first, found, number⟩ := Option.map_eq_some_iff.mp heads.symm
  exact inLine first found (Cell.unnumbered_eq_char_iff.mp number)

/-- The row with further spaces behind its line ends, and other numbers of placeholders. -/
inductive Moved : List Cell → List Cell → Prop
  | nil : Moved [] []
  | cell {cell copy : Cell} {xs ys : List Cell} (other : cell ≠ .char '\n')
    (same : copy.unnumbered = cell.unnumbered) (rest : Moved xs ys) :
    Moved (cell :: xs) (copy :: ys)
  | lineEnd {xs ys : List Cell} (n : Nat) (last : xs = [] → n = 0) (rest : Moved xs ys) :
    Moved (.char '\n' :: xs) (.char '\n' :: ((Text.spaces n).map Cell.char ++ ys))

namespace Moved

variable {xs ys : List Cell} {t : Text}

theorem relaid (h : Moved xs ys) (laid : Relaid ys t) : Relaid xs t := by
  induction h generalizing t with
  | nil => exact laid
  | @cell cell copy xs ys other same _ ih =>
    have text : copy.text .question = cell.text .question := by
      rw [← copy.text_unnumbered, same, cell.text_unnumbered]
    have other' : copy ≠ .char '\n' := by
      rwa [ne_eq, ← Cell.unnumbered_eq_char_iff, same, Cell.unnumbered_eq_char_iff]
    cases laid with
    | cell _ rest => exact text ▸ .cell other (ih rest)
    | lineEnd => exact absurd rfl other'
  | lineEnd n _ _ ih =>
    cases laid.without_spaces with
    | cell other => exact absurd rfl other
    | lineEnd m rest => exact .lineEnd m (ih rest)

theorem eq_nil_iff (h : Moved xs ys) : ys = [] ↔ xs = [] := by
  cases h <;> simp

theorem getLast? (h : Moved xs ys) :
    ys.getLast?.map Cell.unnumbered = xs.getLast?.map Cell.unnumbered := by
  induction h with
  | nil => rfl
  | @cell cell copy xs ys _ same _ ih =>
    rw [List.getLast?_cons, List.getLast?_cons, Option.map_some, Option.map_some,
      ← Option.getD_map Cell.unnumbered, ih, same, Option.getD_map]
  | @lineEnd xs ys n last rest ih =>
    cases xs with
    | nil =>
      obtain rfl := last rfl
      obtain rfl := rest.eq_nil_iff.mpr rfl
      rfl
    | cons x xs =>
      obtain ⟨y, ys, rfl⟩ := List.exists_cons_of_ne_nil (mt rest.eq_nil_iff.mp (by simp))
      rw [List.getLast?_cons_cons, ← ih]
      simp [List.getLast?_cons, List.getLast?_append]

end Moved

def Lead.IsSpaces (lead : Lead) : Prop :=
  ∀ isFirst, ∃ n, lead.text isFirst = Text.spaces n

namespace Builder

def Spaced (b : Builder) : Prop :=
  ∀ lead ∈ b.indents.map IndentEntry.lead, lead.IsSpaces

/-- All indentations in force are spaces behind their first lines. -/
def LaterSpaced (b : Builder) : Prop :=
  ∀ lead ∈ b.indents.map IndentEntry.lead, ∃ n, lead.text false = Text.spaces n

/-- All lines that begin from now on start with spaces. -/
structure Indented (b : Builder) : Prop where
  later : b.LaterSpaced
  lead : ∃ n, b.lead = Text.spaces n

variable {b c d : Builder} {cell : Cell} {xs ys : List Cell}

theorem Spaced.indented (h : b.Spaced) : b.Indented :=
  ⟨fun lead mem => h lead mem false,
    exists_lead_spaces fun e mem => h e.lead (List.mem_map_of_mem mem) (!e.started)⟩

theorem Spaced.pushIndent (h : b.Spaced) {lead : Lead} (spaces : lead.IsSpaces) :
    (b.pushIndent lead).Spaced := by
  intro l mem
  rcases List.mem_cons.mp mem with rfl | outer
  · exact spaces
  · exact h l outer

theorem wrapLead_isSpaces (extra : Nat) : (wrapLead extra).IsSpaces
  | true => ⟨0, rfl⟩
  | false => ⟨extra + 1, rfl⟩

theorem LaterSpaced.extends (h : b.LaterSpaced) (more : b.Extends c) : c.LaterSpaced := by
  rw [LaterSpaced, more.leads]
  exact h

theorem LaterSpaced.indented (h : b.LaterSpaced) (more : b.Extends c)
    (begun : c.indents = b.indents.map IndentEntry.begun) : c.Indented := by
  refine ⟨h.extends more, exists_lead_spaces fun e mem => ?_⟩
  rw [begun] at mem
  obtain ⟨d, known, rfl⟩ := List.mem_map.mp mem
  exact h d.lead (List.mem_map_of_mem known)

theorem Indented.extends (h : b.Indented) (more : b.Extends c) : c.Indented := by
  rcases more.indents with same | begun
  · have unchanged : c.lead = b.lead := by
      rw [Builder.lead, same]
      rfl
    exact ⟨h.later.extends more, unchanged ▸ h.lead⟩
  · exact h.later.indented more begun

theorem Indented.isAllBlank_front (h : b.Indented) : b.front.isAllBlank = true := by
  obtain ⟨n, lead⟩ := h.lead
  have spaces := isAllBlank_spaces n
  have lineEnd : isBlank '\n' = true := by decide
  rw [front, lead]
  split
  · rw [Text.isAllBlank, List.all_cons, lineEnd, Bool.true_and]
    exact spaces
  · split
    · exact spaces
    · rfl

def frontOf (b : Builder) : List Cell → Text
  | [] => []
  | cell :: _ => if cell = .char '\n' then [] else b.front

theorem Indented.isAllBlank_frontOf (h : b.Indented) (xs : List Cell) :
    (b.frontOf xs).isAllBlank = true := by
  cases xs with
  | nil => rfl
  | cons cell xs =>
    rw [frontOf]
    split
    · rfl
    · exact h.isAllBlank_front

/-- `d` is `b` with a row behind it that has been moved. -/
def Copies (b d : Builder) (xs : List Cell) : Prop :=
  ∃ ys, d.cells.toList = b.cells.toList ++ ((b.frontOf xs).map Cell.char ++ ys) ∧ Moved xs ys

theorem copies_nil (b : Builder) : b.Copies b [] :=
  ⟨[], by simp [frontOf], .nil⟩

theorem frontOf_putCell (b : Builder) (cell : Cell) (wordTail : Bool) (xs : List Cell) :
    (b.putCell cell wordTail).frontOf xs = [] := by
  have settled : (b.putCell cell wordTail).pendingBreak = false := b.startLine_settleBreak.1
  cases xs <;> simp [frontOf, front, settled, atLineStart_putCell]

theorem Copies.putCell {copy : Cell} {wordTail : Bool} (other : cell ≠ .char '\n')
    (same : copy.unnumbered = cell.unnumbered)
    (rest : (b.putCell copy wordTail).Copies d xs) : b.Copies d (cell :: xs) := by
  obtain ⟨ys, split, moved⟩ := rest
  refine ⟨copy :: ys, ?_, .cell other same moved⟩
  rw [split, cells_putCell, frontOf_putCell, frontOf, if_neg other]
  simp

theorem Copies.endLine (indented : b.Indented) (rest : b.endLine.Copies d xs) :
    b.Copies d (.char '\n' :: xs) := by
  obtain ⟨ys, split, moved⟩ := rest
  have spaces : ∃ n, b.endLine.frontOf xs = Text.spaces n ∧ (xs = [] → n = 0) := by
    cases xs with
    | nil => exact ⟨0, rfl, fun _ => rfl⟩
    | cons cell xs =>
      rw [frontOf]
      split
      · exact ⟨0, rfl, fun _ => rfl⟩
      · obtain ⟨n, lead⟩ := indented.lead
        exact ⟨n, lead, fun none => by cases none⟩
  obtain ⟨n, front, last⟩ := spaces
  refine ⟨.char '\n' :: ((Text.spaces n).map Cell.char ++ ys), ?_, .lineEnd n last moved⟩
  rw [split, front, Builder.endLine]
  simp [frontOf]

theorem Copies.putCopy {offset : Nat} (indented : cell = .char '\n' → b.Indented)
    (rest : (putCopy offset b cell).Copies d xs) : b.Copies d (cell :: xs) := by
  cases cell with
  | char x =>
    rw [Builder.putCopy, putChar] at rest
    split at rest
    · next lineEnd =>
      subst lineEnd
      exact rest.endLine (indented rfl)
    · next visible => exact rest.putCell (by simpa using visible) rfl
  | kept x => exact rest.putCell (by simp) rfl
  | marker p => exact Copies.putCell (by simp) (by rfl) rest

theorem Indented.copies (h : b.Indented) (offset : Nat) (xs : List Cell) :
    b.Copies (xs.foldl (Builder.putCopy offset) b) xs := by
  induction xs generalizing b with
  | nil => exact b.copies_nil
  | cons cell xs ih =>
    have next := h.extends ((Extends.refl b).putCopy offset cell)
    exact (ih next).putCopy fun _ => h

theorem LaterSpaced.indented_putCopy (h : b.LaterSpaced) (start : b.atLineStart = true)
    (offset : Nat) (other : cell ≠ .char '\n') : (Builder.putCopy offset b cell).Indented := by
  have begun : (Builder.putCopy offset b cell).indents = b.indents.map IndentEntry.begun := by
    obtain ⟨copy, wordTail, put⟩ := exists_putCopy_eq_putCell offset b.style other
    rw [put b rfl]
    simp only [Builder.putCell, Builder.settleBreak, start, Bool.not_true, Bool.and_false,
      Bool.false_eq_true, if_false, Builder.startLine, if_true]
    rfl
  exact h.indented ((Extends.refl b).putCopy offset cell) begun

theorem LaterSpaced.copies (h : b.LaterSpaced) (start : b.atLineStart = true) (offset : Nat)
    (inLine : ∀ cell ∈ xs.head?, cell ≠ .char '\n') :
    b.Copies (xs.foldl (Builder.putCopy offset) b) xs := by
  cases xs with
  | nil => exact b.copies_nil
  | cons cell xs =>
    have other := inLine cell rfl
    have next := h.indented_putCopy start offset other
    exact (next.copies offset xs).putCopy fun lineEnd => absurd lineEnd other

def Lays (b d : Builder) (xs : List Cell) : Prop :=
  ∃ (added : List Cell) (t : Text), d.cells.toList = b.cells.toList ++ added ∧
    codeText .question added = b.frontOf xs ++ t ∧ Relaid xs t

theorem Copies.lays (h : b.Copies d xs) : b.Lays d xs := by
  obtain ⟨ys, split, moved⟩ := h
  refine ⟨_, codeText .question ys, split, ?_, moved.relaid (relaid_codeText ys)⟩
  rw [codeText_append, codeText_chars]

theorem Lays.lexes {o : List TokenShape} (h : b.Lays d xs) (tidy : Tidy .code xs)
    (lexes : Lexes (codeText .question xs) o) :
    ∃ (added : List Cell) (t : Text), d.cells.toList = b.cells.toList ++ added ∧
      codeText .question added = b.frontOf xs ++ t ∧ Lexes t o := by
  obtain ⟨added, t, split, text, laid⟩ := h
  exact ⟨added, t, split, text, lexes.respaced (laid.respaced tidy).1⟩

theorem exists_copies_of_writeAll {binds : List BindVariable} {parts : List RawPart}
    (bound : ∀ i, .bind i ∈ parts → i < binds.length)
    (g : RawPart.writeAll binds b parts = (d, .ok ())) :
    ∃ (cells : List Cell) (count : Nat) (l : Ledger),
      cells.map Cell.unnumbered = (parts.flatMap RawPart.cells).map Cell.unnumbered ∧
      d = (cells.foldl (Builder.putCopy 0) b).withBinding count l := by
  induction parts generalizing b with
  | nil =>
    obtain rfl := (Prod.mk.inj g).1
    exact ⟨[], _, _, rfl, rfl⟩
  | cons part parts ih =>
    have later : ∀ i, .bind i ∈ parts → i < binds.length := fun i mem =>
      bound i (List.mem_cons_of_mem part mem)
    rw [List.flatMap_cons, List.map_append]
    cases part with
    | text s =>
      obtain ⟨cells, count, l, same, rfl⟩ := ih later g
      refine ⟨s.map Cell.char ++ cells, count, l, by rw [List.map_append, same]; rfl, ?_⟩
      rw [List.foldl_append, ← append_eq_copies]
    | literal s =>
      obtain ⟨cells, count, l, same, rfl⟩ := ih later g
      refine ⟨s.map Cell.kept ++ cells, count, l, by rw [List.map_append, same]; rfl, ?_⟩
      rw [List.foldl_append, ← appendKept_eq_copies]
    | bind i =>
      have known := List.getElem?_eq_getElem (bound i (by simp))
      simp only [RawPart.writeAll, known] at g
      split at g
      · cases g
      · next c appended =>
        obtain ⟨cells, count, l, same, rfl⟩ := ih later g
        obtain ⟨k, -, rfl⟩ := appendBind_eq_ok_iff_record.mp appended
        refine ⟨.marker (b.bindCount + 1) :: cells, count, l, by rw [List.map_cons, same]; rfl, ?_⟩
        rw [withBinding_copies]
        rfl

theorem Lays.of_unnumbered (h : b.Lays d xs)
    (same : xs.map Cell.unnumbered = ys.map Cell.unnumbered) : b.Lays d ys := by
  obtain ⟨added, t, split, text, laid⟩ := h
  have front : b.frontOf xs = b.frontOf ys := by
    cases xs with
    | nil => rw [List.map_eq_nil_iff.mp same.symm]
    | cons x xs =>
      cases ys with
      | nil => cases same
      | cons y ys =>
        have first := (List.cons.inj same).1
        have both : x = .char '\n' ↔ y = .char '\n' := by
          rw [← Cell.unnumbered_eq_char_iff, first, Cell.unnumbered_eq_char_iff]
        simp only [frontOf, both]
  rw [← relaid_unnumbered_iff, same, relaid_unnumbered_iff] at laid
  exact ⟨added, t, split, front ▸ text, laid⟩

theorem kept_infix_writeAll {binds : List BindVariable} {parts : List RawPart} {w : Text}
    (mem : .literal w ∈ parts) (g : RawPart.writeAll binds b parts = (d, .ok ())) :
    w.map Cell.kept <:+: d.cells.toList := by
  induction parts generalizing b with
  | nil => cases mem
  | cons part parts ih =>
    rcases List.mem_cons.mp mem with rfl | later
    · have literal := kept_infix_copies 0 b (List.infix_rfl (l := w.map Cell.kept))
      rw [← appendKept_eq_copies] at literal
      have behind : (b.appendKept w).Extends d := RawPart.writeAll_extends g
      exact literal.trans behind.text.isInfix
    · cases part with
      | text s => exact ih later g
      | literal s => exact ih later g
      | bind i =>
        simp only [RawPart.writeAll] at g
        split at g
        · exact ih later g
        · split at g
          · cases g
          · exact ih later g

end Builder

theorem RawText.literal_mem_cut {t : Token} {ts : List Token} (mem : t ∈ ts)
    (long : t.isLongLiteral = true) (offset index : Nat) (rest : Text) :
    .literal t.text ∈ RawText.cut offset index rest ts := by
  induction ts generalizing offset index rest with
  | nil => cases mem
  | cons u ts ih =>
    rw [RawText.cut]
    rcases List.mem_cons.mp mem with rfl | later
    · have isString : t.kind = .string := by
        simpa using ((Bool.and_eq_true _ _).mp long).1
      simp [isString, long]
    · split
      · exact List.mem_append_right _ (List.mem_cons_of_mem _ (ih later _ _ _))
      · split
        · exact List.mem_append_right _ (List.mem_cons_of_mem _ (ih later _ _ _))
        · exact ih later _ _ _

theorem RawText.tokens_read {limit : Nat} {sql : Text} {body : RawText}
    (h : RawText.read limit sql = .ok body) :
    ∃ ts, tokenize limit sql = .ok ts ∧
      Lexes (codeText .question body.cells) (ts.map Token.shape) ∧
      (∀ cell ∈ body.cells.head?, cell ≠ .char '\n') ∧
      ∀ t ∈ ts, t.isLongLiteral = true → .literal t.text ∈ body.parts := by
  obtain ⟨ts, split, h⟩ := Except.bind_eq_ok_iff.mp h
  obtain ⟨us, again, h⟩ := Except.bind_eq_ok_iff.mp h
  obtain ⟨ok, rfl, -⟩ := tokenize_eq_ok_iff.mp again
  obtain rfl := Except.ok.inj h
  have lexes : Lexes (textOf (normalLines (longLiterals ts) sql)) (ts.map Token.shape) :=
    lexes_normal split
  have visible : ∀ c ∈ (textOf (normalLines (longLiterals ts) sql)).head?, isBlank c = false :=
    isBlank_head_normal split
  have shapes := (lexes.scanAt Place.start).2
  generalize textOf (normalLines (longLiterals ts) sql) = text at ok lexes visible shapes ⊢
  have row : codeText .question (RawText.ofNormal text (scan text).tokens).cells = text :=
    ((cutsTidily_scan ok).here 0).1
  refine ⟨ts, split, row.symm ▸ lexes, ?_, fun t mem long => ?_⟩
  · rintro cell head rfl
    obtain ⟨cells, whole⟩ := List.head?_eq_some_iff.mp head
    rw [← row, whole] at visible
    exact absurd (visible '\n' rfl) (by decide)
  · -- the same literal stands in the normal form
    have shape : t.shape ∈ (scan text).tokens.map Token.shape := by
      rw [scan, shapes]
      exact List.mem_map_of_mem mem
    obtain ⟨u, found, same⟩ := List.mem_map.mp shape
    obtain ⟨isString, lineEnd⟩ := (Bool.and_eq_true _ _).mp long
    have isString := beq_iff_eq.mp isString
    obtain ⟨kind, word⟩ := Prod.mk.inj same
    rw [isString] at kind word
    rw [kind, if_neg (by decide), if_neg (by decide)] at word
    have longToo : u.isLongLiteral = true := by
      rw [Token.isLongLiteral, kind, word, lineEnd]
      rfl
    rw [← word]
    exact RawText.literal_mem_cut found longToo 0 0 text

theorem RawSql.read_of_parse {limit : Nat} {sql : Text} {binds : List BindVariable} {raw : RawSql}
    (h : RawSql.parse limit sql binds = .ok raw) : RawText.read limit sql = .ok raw.body := by
  simp only [RawSql.parse] at h
  split at h
  · cases h
  · next body read =>
    split at h
    · obtain rfl := Except.ok.inj h
      exact read
    · cases h

theorem RawSql.exists_copies_of_write {scope : Scope} {raw : RawSql} {b b' : Builder}
    (h : raw.write scope b = .ok b') :
    ∃ (row : List Cell) (c : Builder),
      row.map Cell.unnumbered = raw.body.cells.map Cell.unnumbered ∧
      RawPart.writeAll raw.binds (b.pushIndent (wrapLead 0)) raw.body.parts = (c, .ok ()) ∧
      c.cells = (row.foldl (putCopy 0) (b.pushIndent (wrapLead 0))).cells ∧ b'.cells = c.cells := by
  obtain ⟨c, parts, rfl⟩ := exists_writeAll_of_write h
  obtain ⟨row, count, l, same, rfl⟩ := exists_copies_of_writeAll raw.lt_length_of_bind parts
  refine ⟨row, _, same, parts, rfl, ?_⟩
  rw [breakBeforeNext]
  split <;> [split <;> rfl; rfl]

/-- The tokens that are no comments, as kinds and texts. -/
def significant (ts : List Token) : List (TokenKind × Text) :=
  (ts.filter fun t => t.kind ≠ .comment).map fun t => (t.kind, t.text)

theorem significant_eq (ts : List Token) :
    significant ts = (ts.map Token.shape).filter fun s => s.1 ≠ .comment := by
  induction ts with
  | nil => rfl
  | cons t ts ih =>
    rw [significant, List.map_cons, List.filter_cons, List.filter_cons, ← ih]
    by_cases comment : t.kind = .comment
    · simp [comment, Token.shape, TokenKind.shape, significant]
    · simp [comment, Token.shape, TokenKind.shape, significant]

/-- At an indentation of spaces, in a line or at its start, a fragment adds a text that has the
tokens of the fragment, comments not counted. A literal over several lines stands in it as it is,
and in everything that its builder is embedded into, at any indentation. -/
theorem RawSql.tokenize_written {limit : Nat} {sql : Text} {binds : List BindVariable}
    {raw : RawSql} {scope : Scope} {b b' : Builder}
    (parsed : RawSql.parse limit sql binds = .ok raw) (question : b.style = .question)
    (spaced : b.Spaced) (written : raw.write scope b = .ok b') :
    ∃ (ts us : List Token) (added : List Cell), tokenize limit sql = .ok ts ∧
      b'.cells.toList = b.cells.toList ++ added ∧
      tokenize limit (codeText b.style added) = .ok us ∧ significant us = significant ts ∧
      ∀ outer : Builder, b'.Inside outer →
        ∀ t ∈ ts, t.isLongLiteral = true → t.text <:+: outer.finish.sql := by
  have read := RawSql.read_of_parse parsed
  obtain ⟨ts, split, lexes, -, literals⟩ := RawText.tokens_read read
  obtain ⟨row, c, same, parts, copied, cells⟩ := RawSql.exists_copies_of_write written
  have indented := (spaced.pushIndent (wrapLead_isSpaces 0)).indented
  have lays := Lays.of_unnumbered (indented.copies 0 row).lays same
  obtain ⟨added, t, behind, text, found⟩ := lays.lexes (RawText.tidy_read read).1 lexes
  obtain ⟨us, shapes, again⟩ :=
    ((Lexes.append_blanks_iff (indented.isAllBlank_frontOf _)).mpr found).tokenize
  have few : us.length ≤ limit := by
    rw [(sameTokens_of_shapes shapes).length]
    exact (tokenize_eq_ok_iff.mp split).2.2
  refine ⟨ts, us, added, split, ?_, ?_, ?_, fun outer inside t mem long => ?_⟩
  · rw [cells, copied]
    exact behind
  · rw [question, text]
    exact again limit few
  · rw [significant_eq, shapes, ← significant_eq]
  · have run := kept_infix_writeAll (literals t mem long) parts
    rw [← cells] at run
    exact kept_infix_sql (inside.kept_infix run)

def writtenSample : RawSql :=
  let text : Text := "-- first ?\nSELECT 'a\n    ''b'\n  , ? /* x\n y */"
  { body := .ofNormal text (scan text).tokens
    binds := [.unvalued ⟨"W", by decide⟩ .int]
    isRead := ⟨9, sampleFragment, by decide +kernel⟩
    isBound := by decide +kernel }

def writtenOuter : Builder :=
  ((((empty .question).pushIndent (.simple "  ")).append "x =").pushIndent
    (.firstLine [] " ")).breakBeforeNext

theorem sql_writtenSample :
    (writtenSample.write (.outermost .defaults) writtenOuter).map (·.finish.sql) =
      .ok "  x =\n    -- first ?\n    SELECT 'a\n    ''b'\n      , ? /* x\n     y */" := by
  decide +kernel

theorem RawSql.tokenize_written_sample :
    ∃ (b' : Builder) (ts us : List Token) (added : List Cell), b'.finish.sql =
        "  x =\n    -- first ?\n    SELECT 'a\n    ''b'\n      , ? /* x\n     y */".toList ∧
      writtenSample.write (.outermost .defaults) writtenOuter = .ok b' ∧
      tokenize 9 sampleFragment = .ok ts ∧
      b'.cells.toList = writtenOuter.cells.toList ++ added ∧
      tokenize 9 (codeText writtenOuter.style added) = .ok us ∧ significant us = significant ts ∧
      ∀ outer : Builder, b'.Inside outer →
        ∀ t ∈ ts, t.isLongLiteral = true → t.text <:+: outer.finish.sql := by
  have rendered := sql_writtenSample
  have parsed : RawSql.parse 9 sampleFragment [.unvalued ⟨"W", by decide⟩ .int] =
      .ok writtenSample := by decide +kernel
  have spaced : writtenOuter.Spaced := by
    intro lead mem
    have leads : writtenOuter.indents.map IndentEntry.lead = [.firstLine [] " ", .simple "  "] := by
      decide +kernel
    rw [leads] at mem
    rcases List.mem_cons.mp mem with rfl | mem
    · exact wrapLead_isSpaces 0
    · obtain rfl := List.mem_singleton.mp mem
      exact fun _ => ⟨2, rfl⟩
  cases known : writtenSample.write (.outermost .defaults) writtenOuter with
  | error e =>
    rw [known] at rendered
    cases rendered
  | ok b' =>
    rw [known] at rendered
    obtain ⟨ts, us, added, facts⟩ := RawSql.tokenize_written parsed (by decide +kernel) spaced known
    exact ⟨b', ts, us, added, Except.ok.inj rendered, rfl, facts⟩

end SqlCompose
