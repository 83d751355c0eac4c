import SqlCompose.Proofs.Fragments.Kept
import SqlCompose.Proofs.Pages.Indented

/-! A fragment as a row of cells, and what the row looks like on a page. A text with kept ranges is
written as one row. If the ranges are its long literals, the row has the cells of the parts that the
fragment is cut into, with question marks for its placeholders. -/

namespace SqlCompose

open LexMode Builder

def Cell.unmarked : Cell → Cell
  | marker _ => char '?'
  | cell => cell

namespace Cell

variable {cell : Cell} {style : PlaceholderStyle}

theorem text_unmarked : cell.unmarked.text style = cell.text .question := by
  cases cell <;> rfl

theorem unmarked_eq_lineEnd_iff : cell.unmarked = .char '\n' ↔ cell = .char '\n' := by
  cases cell <;> simp [unmarked]

theorem unmarked_unnumbered : cell.unnumbered.unmarked = cell.unmarked := by
  cases cell <;> rfl

end Cell

theorem map_unmarked_chars (s : Text) : (s.map Cell.char).map Cell.unmarked = s.map Cell.char := by
  rw [List.map_map]
  rfl

theorem map_unmarked_kept (s : Text) : (s.map Cell.kept).map Cell.unmarked = s.map Cell.kept := by
  rw [List.map_map]
  rfl

theorem map_unmarked_of_unnumbered {xs ys : List Cell}
    (same : xs.map Cell.unnumbered = ys.map Cell.unnumbered) :
    xs.map Cell.unmarked = ys.map Cell.unmarked := by
  have forget : Cell.unmarked ∘ Cell.unnumbered = Cell.unmarked :=
    funext fun _ => Cell.unmarked_unnumbered
  have marked := congrArg (List.map Cell.unmarked) same
  rwa [List.map_map, List.map_map, forget] at marked

theorem codeText_unmarked (cells : List Cell) :
    codeText .question (cells.map Cell.unmarked) = codeText .question cells := by
  simp only [codeText, List.flatMap_map, Cell.text_unmarked]

theorem tidy_unmarked_iff {m : LexMode} {cells : List Cell} :
    Tidy m (cells.map Cell.unmarked) ↔ Tidy m cells := by
  induction cells generalizing m with
  | nil => rfl
  | cons cell cells ih =>
    simp only [List.map_cons, Tidy, Cell.text_unmarked, Cell.unmarked_eq_lineEnd_iff, ih]

def keptRow (offset : Nat) (rest : Text) : List ByteRange → List Cell
  | [] => rest.map .char
  | r :: ranges =>
    let before := rest.takeBytes (r.start - offset)
    let inside := (rest.dropBytes (r.start - offset)).takeBytes (r.stop - r.start)
    before.map .char ++ (inside.map .kept ++
      keptRow r.stop (rest.dropBytes (r.stop - offset)) ranges)

theorem Builder.appendAround_eq_copies (b : Builder) (offset : Nat) (rest : Text)
    (ranges : List ByteRange) :
    b.appendAround offset rest ranges = (keptRow offset rest ranges).foldl (putCopy 0) b := by
  induction ranges generalizing b offset rest with
  | nil => exact append_eq_copies b rest
  | cons r ranges ih =>
    rw [appendAround, keptRow, List.foldl_append, List.foldl_append, ← append_eq_copies,
      ← appendKept_eq_copies]
    exact ih _ _ _

theorem keptRow_cons (front w rest : Text) {offset start : Nat} (ranges : List ByteRange)
    (here : start = offset + front.byteSize) :
    keptRow offset (front ++ (w ++ rest)) (⟨start, start + w.byteSize⟩ :: ranges) =
      front.map .char ++ (w.map .kept ++ keptRow (start + w.byteSize) rest ranges) := by
  have gap : start - offset = front.byteSize := by omega
  have size : start + w.byteSize - start = w.byteSize := Nat.add_sub_cancel_left _ _
  have behind : start + w.byteSize - offset = Text.byteSize (front ++ w) := by
    rw [Text.byteSize_append]
    omega
  have after : Text.dropBytes (Text.byteSize (front ++ w)) (front ++ (w ++ rest)) = rest := by
    rw [← List.append_assoc, Text.dropBytes_byteSize]
  simp only [keptRow, gap, size, behind, after, Text.takeBytes_byteSize, Text.dropBytes_byteSize]

/-- Kept line ends stand in strings, if the machine reads the row from a mode on. -/
def Held (m : LexMode) : List Cell → Prop
  | [] => True
  | cell :: cells =>
    (cell = .kept '\n' → m = .string) ∧ Held (m.run (cell.text .question)) cells

section Held

variable {m : LexMode} {xs ys : List Cell} {s : Text}

theorem held_append (h : Held m xs) (g : Held (m.run (codeText .question xs)) ys) :
    Held m (xs ++ ys) := by
  induction xs generalizing m with
  | nil => exact g
  | cons cell xs ih =>
    refine ⟨h.1, ih h.2 ?_⟩
    rwa [← run_append]

theorem held_chars (s : Text) : Held m (s.map Cell.char) := by
  induction s generalizing m with
  | nil => trivial
  | cons c s ih => exact ⟨fun lineEnd => by simp at lineEnd, ih⟩

theorem held_kept (inString : ∀ u v, s = u ++ '\n' :: v → m.run u = .string) :
    Held m (s.map Cell.kept) := by
  induction s generalizing m with
  | nil => trivial
  | cons c s ih =>
    refine ⟨fun lineEnd => ?_, ih fun u v split => ?_⟩
    · obtain rfl := Cell.kept.inj lineEnd
      exact inString [] s rfl
    · exact inString (c :: u) v (by rw [split]; rfl)

end Held

def Token.cells (t : Token) : List Cell :=
  t.text.map (if t.isLongLiteral then .kept else .char)

theorem Token.cells_of_long {t : Token} (long : t.isLongLiteral = true) :
    t.cells = t.text.map .kept := by
  rw [Token.cells, if_pos long]

theorem Token.cells_of_not_long {t : Token} (short : t.isLongLiteral = false) :
    t.cells = t.text.map .char := by
  rw [Token.cells, if_neg (by simp [short])]

theorem Token.codeText_cells (t : Token) : codeText .question t.cells = t.text := by
  cases long : t.isLongLiteral with
  | true => rw [t.cells_of_long long, codeText_kept]
  | false => rw [t.cells_of_not_long long, codeText_chars]

/-- Behind any text in front of it, a text at a place is written as one row, whether its long
literals are kept ranges or parts that it is cut into. -/
def KeepsRow (p : Place) (s : Text) (ts : List Token) : Prop :=
  ∃ row : List Cell, (∀ m : LexMode, m.Resumes s → Held m row) ∧
    ∀ (front : Text) (offset : Nat), p.offset = offset + front.byteSize →
      keptRow offset (front ++ s) (longLiterals ts) = front.map .char ++ row ∧
      ∀ index,
        ((RawText.cut offset index (front ++ s) ts).flatMap RawPart.cells).map Cell.unmarked =
          front.map .char ++ row

namespace KeepsRow

variable {p : Place} {c : Char} {s : Text} {k : TokenKind} {n : Nat} {ts : List Token}

theorem nil : KeepsRow p [] [] := by
  refine ⟨[], fun _ _ => trivial, fun front offset _ => ?_⟩
  rw [List.append_nil, List.append_nil]
  refine ⟨rfl, fun index => ?_⟩
  rw [RawText.cut]
  split
  · next empty =>
    rw [empty]
    rfl
  · simp [RawPart.cells, Cell.unmarked]

theorem blank (blank : isBlank c = true) (h : KeepsRow (p.next c) s ts) :
    KeepsRow p (c :: s) ts := by
  obtain ⟨row, held, written⟩ := h
  refine ⟨.char c :: row, fun m resumes => ⟨by simp, ?_⟩, fun front offset start => ?_⟩
  · have inCode : m.run (Cell.text .question (.char c)) = code := by
      have same : m.step c = code.step c := resumes.step c rfl
      exact same.trans (opening_of_isBlank blank)
    rw [inCode]
    exact held code (resumes_code s)
  · have next : (p.next c).offset = offset + Text.byteSize (front ++ [c]) := by
      rw [offset_next, start, Text.byteSize_append]
      simp [Nat.add_assoc]
    have both := written (front ++ [c]) offset next
    simpa using both

theorem held_token (visible : isBlank c = false) (read : Lexeme.Reads c s k n) {m : LexMode}
    (resumes : m.Resumes (c :: s)) : Held m (Token.cells ⟨k, c :: s.take n, p⟩) := by
  cases long : Token.isLongLiteral ⟨k, c :: s.take n, p⟩ with
  | true =>
    rw [Token.cells_of_long long]
    refine held_kept fun u v split => ?_
    cases u with
    | nil =>
      obtain ⟨rfl, -⟩ := List.cons.inj split
      exact absurd visible (by decide)
    | cons d u =>
      obtain ⟨rfl, rest⟩ := List.cons.inj split
      obtain ⟨-, inString, -⟩ := run_inside_token visible read rest (by simp) (.inr rfl)
      have isString : (k == .string) = true := ((Bool.and_eq_true _ _).mp long).1
      rw [resumes.run_cons]
      exact beq_iff_eq.mp (inString.symm.trans isString)
  | false =>
    rw [Token.cells_of_not_long long]
    exact held_chars _

theorem token (visible : isBlank c = false) (read : Lexeme.Reads c s k n)
    (h : KeepsRow (p.after (c :: s.take n)) (s.drop n) ts) :
    KeepsRow p (c :: s) (⟨k, c :: s.take n, p⟩ :: ts) := by
  obtain ⟨row, held, written⟩ := h
  have whole : c :: s = (c :: s.take n) ++ s.drop n := by simp
  refine ⟨Token.cells ⟨k, c :: s.take n, p⟩ ++ row, fun m more => ?_, fun front offset start => ?_⟩
  · refine held_append (held_token visible read more) (held _ ?_)
    rw [Token.codeText_cells, more.run_cons]
    exact resumes_of_reads read
  · have parts := fun index =>
      @CutsTidily.cells_cut_cons p k front (c :: s.take n) (s.drop n) ts offset index start
    have next : (p.after (c :: s.take n)).offset =
        offset + Text.byteSize (front ++ (c :: s.take n)) := by
      rw [Place.offset_after, start, Text.byteSize_append, Nat.add_assoc]
    have inText := written (front ++ (c :: s.take n)) offset next
    have behind := written [] (p.after (c :: s.take n)).offset rfl
    rw [List.append_assoc, ← whole, List.map_append, List.append_assoc] at inText
    rw [List.nil_append, List.map_nil, List.nil_append] at behind
    rw [whole, longLiterals_cons]
    cases long : Token.isLongLiteral ⟨k, c :: s.take n, p⟩ with
    | true =>
      have noMark : k ≠ .placeholder := by
        rintro rfl
        simp [Token.isLongLiteral] at long
      rw [Token.cells_of_long long]
      refine ⟨?_, fun index => ?_⟩
      · have ranged := keptRow_cons front (c :: s.take n) (s.drop n) (longLiterals ts) start
        rw [Place.offset_after] at behind
        rw [behind.1] at ranged
        exact ranged
      · rw [parts, if_neg noMark, if_pos long, List.map_append, List.map_append, behind.2,
          map_unmarked_chars, map_unmarked_kept]
    | false =>
      rw [Token.cells_of_not_long long]
      refine ⟨?_, fun index => ?_⟩
      · rw [← whole]
        exact inText.1
      · rw [parts, long]
        split
        · next mark =>
          have single : c :: s.take n = ['?'] := by
            rw [mark] at read
            obtain ⟨rfl, rfl⟩ := Lexeme.eq_of_reads_placeholder read
            rfl
          rw [List.map_append, List.map_cons, behind.2, map_unmarked_chars, single]
          rfl
        · rw [if_neg (by decide), ← whole]
          exact inText.2 index

end KeepsRow

theorem keepsRow_scan {text : Text} (ok : (scan text).fault = none) :
    KeepsRow Place.start text (scan text).tokens :=
  scanAt_induction (motive := KeepsRow) (fun _ => .nil)
    (fun _ _ _ _ blank behind => behind.blank blank)
    (fun _ _ _ _ _ _ visible read behind => behind.token visible read) ok

theorem keptRow_scan {text : Text} (ok : (scan text).fault = none) :
    (RawText.ofNormal text (scan text).tokens).cells.map Cell.unmarked =
        keptRow 0 text (longLiterals (scan text).tokens) ∧
      codeText .question (keptRow 0 text (longLiterals (scan text).tokens)) = text ∧
      Tidy code (keptRow 0 text (longLiterals (scan text).tokens)) ∧
      Held code (keptRow 0 text (longLiterals (scan text).tokens)) := by
  obtain ⟨row, held, written⟩ := keepsRow_scan ok
  obtain ⟨kept, parts⟩ := written [] 0 rfl
  have cells : (RawText.ofNormal text (scan text).tokens).cells.map Cell.unmarked =
      keptRow 0 text (longLiterals (scan text).tokens) := (parts 0).trans kept.symm
  obtain ⟨same, tidy⟩ := (cutsTidily_scan ok).here 0
  refine ⟨cells, ?_, ?_, ?_⟩
  · rw [← cells, codeText_unmarked]
    exact same
  · rw [← cells, tidy_unmarked_iff]
    exact tidy code (resumes_code text)
  · have whole : keptRow 0 text (longLiterals (scan text).tokens) = row := kept
    rw [whole]
    exact held code (resumes_code text)

def normalText (sql : Text) : Text :=
  (Fragment.normalizeKeeping (longLiterals (scan sql).tokens) sql).1

def normalRow (sql : Text) : List Cell :=
  keptRow 0 (normalText sql) (longLiterals (scan (normalText sql)).tokens)

section Normal

variable {limit : Nat} {sql : Text} {ts : List Token}

theorem lexes_normalText (h : tokenize limit sql = .ok ts) :
    Lexes (normalText sql) (ts.map Token.shape) := by
  have lexes := lexes_normal h
  obtain ⟨-, rfl, -⟩ := tokenize_eq_ok_iff.mp h
  exact lexes

theorem tokenize_normalText (h : tokenize limit sql = .ok ts) :
    tokenize limit (normalText sql) = .ok (scan (normalText sql)).tokens := by
  obtain ⟨us, shapes, found⟩ := (lexes_normalText h).tokenize
  have few : us.length ≤ limit := by
    rw [(sameTokens_of_shapes shapes).length]
    exact (tokenize_eq_ok_iff.mp h).2.2
  have again := found limit few
  rwa [(tokenize_eq_ok_iff.mp again).2.1]

theorem fault_normalText (h : tokenize limit sql = .ok ts) : (scan (normalText sql)).fault = none :=
  (tokenize_eq_ok_iff.mp (tokenize_normalText h)).1

theorem codeText_normalRow (h : tokenize limit sql = .ok ts) :
    codeText .question (normalRow sql) = normalText sql :=
  (keptRow_scan (fault_normalText h)).2.1

theorem normalRow_inLine (h : tokenize limit sql = .ok ts) :
    ∀ cell ∈ (normalRow sql).head?, cell ≠ .char '\n' := by
  have visible := isBlank_head_normal h
  have text := codeText_normalRow h
  obtain ⟨-, rfl, -⟩ := tokenize_eq_ok_iff.mp h
  rintro cell head rfl
  obtain ⟨cells, row⟩ := List.head?_eq_some_iff.mp head
  rw [row] at text
  exact absurd (visible '\n' (by rw [← normalText, ← text]; rfl)) (by decide)

theorem keptRow_normal (h : tokenize limit sql = .ok ts) :
    keptRow 0 (Fragment.normalizeKeeping (longLiterals ts) sql).1
      (Fragment.normalizeKeeping (longLiterals ts) sql).2 = normalRow sql := by
  have again := tokenize_normalText h
  obtain ⟨-, rfl, -⟩ := tokenize_eq_ok_iff.mp h
  rw [kept_normal h again]
  rfl

theorem cells_read {body : RawText} (h : RawText.read limit sql = .ok body) :
    body.cells.map Cell.unmarked = normalRow sql ∧
      ∃ ts, tokenize limit sql = .ok ts ∧ ts.length = body.tokenCount := by
  obtain ⟨ts, split, h⟩ := Except.bind_eq_ok_iff.mp h
  obtain ⟨us, again, h⟩ := Except.bind_eq_ok_iff.mp h
  obtain rfl := Except.ok.inj h
  have shapes := ((lexes_normal split).scanAt Place.start).2
  have ok := fault_normalText split
  obtain ⟨-, rfl, -⟩ := tokenize_eq_ok_iff.mp again
  have count := (sameTokens_of_shapes shapes).length
  refine ⟨?_, ts, split, count.symm⟩
  obtain ⟨-, rfl, -⟩ := tokenize_eq_ok_iff.mp split
  exact (keptRow_scan ok).1

end Normal

/-- The text of a row if every line that holds a cell begins with `lead`. Whether a line has just
begun, the flag says. -/
def laid (style : PlaceholderStyle) (lead : Text) : Bool → List Cell → Text
  | _, [] => []
  | atStart, cell :: cells =>
    if cell = .char '\n' then '\n' :: laid style lead true cells
    else (if atStart then lead else []) ++ (cell.text style ++ laid style lead false cells)

theorem laid_unmarked (style : PlaceholderStyle) (lead : Text) (atStart : Bool)
    (cells : List Cell) :
    laid style lead atStart (cells.map Cell.unmarked) = laid .question lead atStart cells := by
  induction cells generalizing atStart with
  | nil => rfl
  | cons cell cells ih =>
    simp only [List.map_cons, laid, Cell.unmarked_eq_lineEnd_iff, Cell.text_unmarked, ih]

theorem laid_normalRow {limit : Nat} {sql : Text} {ts : List Token}
    (h : tokenize limit sql = .ok ts) (style : PlaceholderStyle) (lead : Text) (atStart : Bool) :
    laid style lead atStart (normalRow sql) = laid .question lead atStart (normalRow sql) := by
  have cells := (keptRow_scan (fault_normalText h)).1
  rw [normalRow, ← cells, laid_unmarked, laid_unmarked]

theorem relaid_laid (n : Nat) (cells : List Cell) :
    Relaid cells (laid .question (Text.spaces n) false cells) ∧
      ∃ k t, laid .question (Text.spaces n) true cells = Text.spaces k ++ t ∧ Relaid cells t := by
  induction cells with
  | nil => exact ⟨.nil, 0, [], rfl, .nil⟩
  | cons cell cells ih =>
    obtain ⟨inLine, k, t, split, started⟩ := ih
    by_cases lineEnd : cell = .char '\n'
    · subst lineEnd
      have whole : Relaid (.char '\n' :: cells) ('\n' :: laid .question (Text.spaces n) true cells)
        := by
        rw [split]
        exact .lineEnd k started
      simp only [laid, if_true]
      exact ⟨whole, 0, _, rfl, whole⟩
    · simp only [laid, if_neg lineEnd, if_true]
      exact ⟨.cell lineEnd inLine, n, _, rfl, .cell lineEnd inLine⟩

namespace Builder

variable {b : Builder} {cell : Cell} {cells : List Cell} {style : PlaceholderStyle}

def text (b : Builder) : Text :=
  codeText b.style b.cells.toList

theorem text_endLine (b : Builder) : b.endLine.text = b.text ++ ['\n'] := by
  simp [text, endLine, codeText, Cell.text]

theorem text_putCell (b : Builder) (cell : Cell) (wordTail : Bool) :
    (b.putCell cell wordTail).text = b.text ++ (b.front ++ cell.text b.style) := by
  have same : (b.putCell cell wordTail).style = b.style :=
    ((Extends.refl b).putCell cell wordTail).style
  have chars : ∀ s : Text, codeText b.style (s.map Cell.char) = s := by
    intro s
    simp [codeText, List.flatMap_map, Cell.text]
  have single : codeText b.style [cell] = cell.text b.style := by simp [codeText]
  rw [text, same, cells_putCell, codeText_append, codeText_append, chars, single]
  rfl

theorem exists_putCopy_zero (b : Builder) (other : cell ≠ .char '\n') :
    ∃ wordTail, putCopy 0 b cell = b.putCell cell wordTail := by
  cases cell with
  | char c =>
    have visible : c ≠ '\n' := by simpa using other
    exact ⟨_, by rw [putCopy, putChar, if_neg visible]⟩
  | kept c => exact ⟨_, rfl⟩
  | marker p => exact ⟨_, rfl⟩

theorem text_copies (settled : b.pendingBreak = false)
    (begun : b.indents.map IndentEntry.begun = b.indents) (cells : List Cell) :
    (cells.foldl (putCopy 0) b).text = b.text ++ laid b.style b.lead b.atLineStart cells := by
  induction cells generalizing b with
  | nil => simp [laid]
  | cons cell cells ih =>
    rw [List.foldl_cons, laid]
    by_cases lineEnd : cell = .char '\n'
    · subst lineEnd
      have behind := ih (b := b.endLine) rfl begun
      rw [text_endLine, List.append_assoc] at behind
      exact behind
    · obtain ⟨wordTail, step⟩ := b.exists_putCopy_zero lineEnd
      have more := (Extends.refl b).putCell cell wordTail
      have indents : (b.putCell cell wordTail).indents = b.indents :=
        more.indents.elim id fun first => first.trans begun
      have lead : (b.putCell cell wordTail).lead = b.lead := by
        rw [Builder.lead, indents]
        rfl
      have front : b.front = if b.atLineStart then b.lead else [] := by
        simp [Builder.front, settled]
      have behind := ih (b := b.putCell cell wordTail) b.startLine_settleBreak.1
        (by rw [indents, begun])
      rw [text_putCell, atLineStart_putCell, more.style, lead, front] at behind
      rw [step, behind, if_neg lineEnd]
      simp only [List.append_assoc]

def laterLead (b : Builder) : Text :=
  b.indents.reverse.flatMap fun e => e.lead.text false

theorem text_copies_cons (settled : b.pendingBreak = false) (start : b.atLineStart = true)
    (inLine : cell ≠ .char '\n') (cells : List Cell) :
    ((cell :: cells).foldl (putCopy 0) b).text =
      b.text ++ (b.lead ++ laid b.style b.laterLead false (cell :: cells)) := by
  obtain ⟨wordTail, step⟩ := b.exists_putCopy_zero inLine
  have more := (Extends.refl b).putCell cell wordTail
  have indents : (b.putCell cell wordTail).indents = b.indents.map IndentEntry.begun := by
    rw [putCell_lineStart wordTail settled start]
    rfl
  have twice : IndentEntry.begun ∘ IndentEntry.begun = IndentEntry.begun := rfl
  have lead : (b.putCell cell wordTail).lead = b.laterLead := by
    rw [Builder.lead, indents, ← List.map_reverse, List.flatMap_map]
    rfl
  have front : b.front = b.lead := by simp [Builder.front, settled, start]
  have behind := text_copies (b := b.putCell cell wordTail) b.startLine_settleBreak.1
    (by rw [indents, List.map_map, twice]) cells
  rw [text_putCell, atLineStart_putCell, more.style, lead, front] at behind
  rw [List.foldl_cons, step, behind, laid, if_neg inLine]
  simp only [Bool.false_eq_true, if_false, List.nil_append, List.append_assoc]

end Builder

end SqlCompose
