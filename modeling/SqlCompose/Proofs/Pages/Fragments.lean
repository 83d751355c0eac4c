import SqlCompose.Proofs.Lexing.Normal
import SqlCompose.Proofs.Pages.Writes
import SqlCompose.Proofs.Uses

/-! Raw fragments on a page. The parts of a fragment are written as one row, and the text of the row
is the fragment. Spaces get between its characters only behind line ends that are no part of
a long literal, so they respace the fragment and leave its tokens. -/

namespace SqlCompose

open LexMode

/-- No line of the row starts in quotes, if the machine reads it from a mode on. Line ends of long
literals do not count. -/
def Tidy (m : LexMode) : List Cell → Prop
  | [] => True
  | cell :: cells =>
    (cell = .char '\n' → m.isBreakable = true) ∧ Tidy (m.run (cell.text .question)) cells

section Tidy

variable {m : LexMode} {xs ys cells : List Cell} {s t : Text}

theorem tidy_append (h : Tidy m xs) (g : Tidy (m.run (codeText .question xs)) ys) :
    Tidy m (xs ++ ys) := by
  induction xs generalizing m with
  | nil => exact g
  | cons cell xs ih =>
    refine ⟨h.1, ih h.2 ?_⟩
    rwa [← run_append]

theorem codeText_chars (s : Text) : codeText .question (s.map Cell.char) = s := by
  induction s with
  | nil => rfl
  | cons c s ih => simpa [codeText, Cell.text] using ih

theorem codeText_kept (s : Text) : codeText .question (s.map Cell.kept) = s := by
  induction s with
  | nil => rfl
  | cons c s ih => simpa [codeText, Cell.text] using ih

theorem tidy_kept (s : Text) : Tidy m (s.map Cell.kept) := by
  induction s generalizing m with
  | nil => trivial
  | cons c s ih => exact ⟨fun lineEnd => by simp at lineEnd, ih⟩

theorem tidy_chars (breakable : ∀ u v, s = u ++ '\n' :: v → (m.run u).isBreakable = true) :
    Tidy m (s.map Cell.char) := by
  induction s generalizing m with
  | nil => trivial
  | cons c s ih =>
    refine ⟨fun lineEnd => ?_, ih fun u v split => ?_⟩
    · obtain rfl := Cell.char.inj lineEnd
      exact breakable [] s rfl
    · exact breakable (c :: u) v (by rw [split]; rfl)

theorem Relaid.respaced (h : Relaid cells t) (tidy : Tidy m cells) :
    Respaced m (codeText .question cells) t ∧ m.run t = m.run (codeText .question cells) := by
  induction h generalizing m with
  | nil => exact ⟨.nil m, rfl⟩
  | @cell cell cells t other _ ih =>
    obtain ⟨respaced, same⟩ := ih tidy.2
    have text : codeText .question (cell :: cells) =
        cell.text .question ++ codeText .question cells := rfl
    rw [text, run_append, run_append]
    exact ⟨respaced.append_left, same⟩
  | @lineEnd cells t n _ ih =>
    obtain ⟨respaced, same⟩ := ih tidy.2
    have breakable := tidy.1 rfl
    have behind : m.run (Cell.text .question (.char '\n')) = m.behindBreak :=
      step_lineEnd (b := []) rfl breakable
    rw [behind] at respaced same
    have blanks := isAllBlank_spaces n
    have text : codeText .question (.char '\n' :: cells) =
        ['\n'] ++ codeText .question cells := rfl
    have step : m.step '\n' = m.behindBreak := behind
    have broken : Respaced m ([] ++ '\n' :: ([] ++ _)) _ :=
      .lineEnd breakable rfl rfl blanks respaced
    refine ⟨broken, ?_⟩
    rw [text, run_append, run_cons, run_append, step, run_behindBreak blanks, same, run_cons,
      run_nil, step]

theorem Tidy.rowContinues (tidy : Tidy code cells)
    (marks : Marks (codeText .question cells) (rowMarks cells)) :
    RowContinues cells .soft ∨
      code.run (codeText .question cells) = .lineComment ∧ RowContinues cells .line := by
  obtain ⟨o, lexes, count⟩ := marks
  have marks : ∀ t, Relaid cells t → Marks t (rowMarks cells) ∧
      code.run t = code.run (codeText .question cells) := by
    intro t laid
    obtain ⟨respaced, same⟩ := laid.respaced tidy
    exact ⟨⟨o, lexes.respaced respaced, count⟩, same⟩
  by_cases comment : code.run (codeText .question cells) = .lineComment
  · exact .inr ⟨comment, fun t laid => (marks t laid).1.continues_line⟩
  · refine .inl fun t laid => ?_
    obtain ⟨marked, same⟩ := marks t laid
    exact marked.continues_soft (same ▸ comment)

theorem exists_getLast?_of_lineComment
    (comment : code.run (codeText .question cells) = .lineComment) :
    ∃ last, cells.getLast? = some last ∧ last ≠ .char '\n' := by
  cases known : cells.getLast? with
  | none =>
    rw [List.getLast?_eq_none_iff.mp known] at comment
    cases comment
  | some last =>
    refine ⟨last, rfl, fun lineEnd => ?_⟩
    obtain ⟨xs, rfl⟩ := List.getLast?_eq_some_iff.mp known
    rw [lineEnd, codeText_append, run_append] at comment
    have never : ∀ m : LexMode, m.run ['\n'] ≠ .lineComment := by
      intro m
      cases m <;> decide
    exact never _ comment

end Tidy

def RawPart.cells : RawPart → List Cell
  | text s => s.map Cell.char
  | literal s => s.map Cell.kept
  | bind i => [.marker i]

theorem RawPart.markerPositions_cells (parts : List RawPart) :
    markerPositions (parts.flatMap RawPart.cells) = parts.filterMap RawPart.bindIndex? := by
  induction parts with
  | nil => rfl
  | cons part parts ih =>
    rw [List.flatMap_cons, markerPositions_append, ih]
    cases part with
    | text s =>
      rw [cells, markerPositions_chars, List.nil_append, List.filterMap_cons_none rfl]
    | literal s =>
      have none : markerPositions (s.map Cell.kept) = [] := by
        simp [markerPositions, Cell.position?]
      rw [cells, none, List.nil_append, List.filterMap_cons_none rfl]
    | bind i => rfl

/-- The parts of a text, cut from `offset` on, are `front` and then a tidy row with the text. -/
def CutsTidily (p : Place) (s : Text) (ts : List Token) : Prop :=
  ∀ (front : Text) (offset index : Nat), p.offset = offset + front.byteSize →
    ∃ cells, (RawText.cut offset index (front ++ s) ts).flatMap RawPart.cells =
        front.map Cell.char ++ cells ∧
      codeText .question cells = s ∧ ∀ m : LexMode, m.Resumes s → Tidy m cells

namespace CutsTidily

variable {p : Place} {c : Char} {s : Text} {k : TokenKind} {n : Nat} {ts : List Token}

theorem nil : CutsTidily p [] [] := by
  intro front offset index _
  refine ⟨[], ?_, rfl, fun _ _ => trivial⟩
  rw [List.append_nil, RawText.cut]
  split
  · next empty =>
    rw [empty]
    rfl
  · simp [RawPart.cells]

theorem here (h : CutsTidily p s ts) (index : Nat) :
    codeText .question ((RawText.cut p.offset index s ts).flatMap RawPart.cells) = s ∧
      ∀ m : LexMode, m.Resumes s →
        Tidy m ((RawText.cut p.offset index s ts).flatMap RawPart.cells) := by
  obtain ⟨cells, cut, text, tidy⟩ := h [] p.offset index rfl
  rw [List.nil_append, List.map_nil, List.nil_append] at cut
  rw [cut]
  exact ⟨text, tidy⟩

theorem blank (blank : isBlank c = true) (h : CutsTidily (p.next c) s ts) :
    CutsTidily p (c :: s) ts := by
  intro front offset index start
  have next : (p.next c).offset = offset + Text.byteSize (front ++ [c]) := by
    rw [offset_next, start, Text.byteSize_append]
    simp [Nat.add_assoc]
  obtain ⟨cells, cut, text, tidy⟩ := h (front ++ [c]) offset index next
  refine ⟨.char c :: cells, ?_, ?_, fun m resumes => ⟨fun _ => ?_, ?_⟩⟩
  · simpa using cut
  · rw [← text]
    rfl
  · exact isBreakable_of_isOutside resumes.outside
  · have inCode : m.run (Cell.text .question (.char c)) = code := by
      have same : m.step c = code.step c := resumes.step c rfl
      exact same.trans (opening_of_isBlank blank)
    rw [inCode]
    exact tidy code (resumes_code s)

theorem tidy_token (visible : isBlank c = false) (read : Lexeme.Reads c s k n)
    (short : Token.isLongLiteral ⟨k, c :: s.take n, p⟩ = false) {m : LexMode}
    (resumes : m.Resumes (c :: s)) : Tidy m ((c :: s.take n).map Cell.char) := by
  refine tidy_chars fun u v split => ?_
  cases u with
  | nil =>
    obtain ⟨rfl, -⟩ := List.cons.inj split
    exact absurd visible (by decide)
  | cons d u =>
    obtain ⟨rfl, rest⟩ := List.cons.inj split
    obtain ⟨lineEnd, inString, noQuoted⟩ :=
      run_inside_token visible read rest (by simp) (.inr rfl)
    have contained : (c :: s.take n).contains '\n' = true := by simpa using lineEnd
    have noString : (k == .string) = false := by
      simpa only [Token.isLongLiteral, contained, Bool.and_true] using short
    rw [resumes.run_cons]
    rw [noString] at inString
    revert inString noQuoted
    cases code.run (c :: u) <;> decide

theorem cells_cut_cons {front : Text} (w rest : Text) (ts : List Token) {offset : Nat}
    (index : Nat) (start : p.offset = offset + front.byteSize) :
    (RawText.cut offset index (front ++ (w ++ rest)) (⟨k, w, p⟩ :: ts)).flatMap RawPart.cells =
      if k = .placeholder then
        front.map Cell.char ++ .marker index ::
          (RawText.cut (p.after w).offset (index + 1) rest ts).flatMap RawPart.cells
      else if Token.isLongLiteral ⟨k, w, p⟩ then
        front.map Cell.char ++
          (w.map Cell.kept ++ (RawText.cut (p.after w).offset index rest ts).flatMap RawPart.cells)
      else (RawText.cut offset index (front ++ (w ++ rest)) ts).flatMap RawPart.cells := by
  have gap : Text.takeBytes (p.offset - offset) (front ++ (w ++ rest)) = front := by
    rw [start, Nat.add_sub_cancel_left, Text.takeBytes_byteSize]
  have behind : Text.dropBytes (p.offset + w.byteSize - offset) (front ++ (w ++ rest)) = rest := by
    have size : p.offset + w.byteSize - offset = Text.byteSize (front ++ w) := by
      rw [Text.byteSize_append]
      omega
    rw [size, ← List.append_assoc, Text.dropBytes_byteSize]
  have before : (if front = [] then [] else [RawPart.text front]).flatMap RawPart.cells =
      front.map Cell.char := by
    split
    · next empty =>
      rw [empty]
      rfl
    · simp [RawPart.cells]
  rw [RawText.cut, Token.start, Token.stop, Place.offset_after]
  simp only [gap, behind]
  split
  · rw [List.flatMap_append, before, List.flatMap_cons]
    rfl
  · split
    · rw [List.flatMap_append, before, List.flatMap_cons]
      rfl
    · rfl

theorem token (visible : isBlank c = false) (read : Lexeme.Reads c s k n)
    (h : CutsTidily (p.after (c :: s.take n)) (s.drop n) ts) :
    CutsTidily p (c :: s) (⟨k, c :: s.take n, p⟩ :: ts) := by
  intro front offset index start
  have whole : c :: s = (c :: s.take n) ++ s.drop n := by simp
  have step : ∀ m : LexMode, m.Resumes (c :: s) →
      (m.run (c :: s.take n)).Resumes (s.drop n) := by
    intro m more
    rw [more.run_cons]
    exact resumes_of_reads read
  have parts := @cells_cut_cons p k front (c :: s.take n) (s.drop n) ts offset index start
  rw [← whole] at parts
  rw [parts]
  split
  · next mark =>
    obtain ⟨text, tidy⟩ := h.here (index + 1)
    have single : c :: s.take n = ['?'] := by
      rw [mark] at read
      obtain ⟨rfl, rfl⟩ := Lexeme.eq_of_reads_placeholder read
      rfl
    refine ⟨_, rfl, ?_, fun m more => ⟨by simp, ?_⟩⟩
    · have marker : codeText .question [.marker index] = c :: s.take n := single.symm
      rw [← List.singleton_append, codeText_append, marker, text]
      exact whole.symm
    · have next := step m more
      rw [single] at next
      exact tidy _ next
  · split
    · obtain ⟨text, tidy⟩ := h.here index
      refine ⟨_, rfl, ?_, fun m more => ?_⟩
      · rw [codeText_append, codeText_kept, text]
        exact whole.symm
      · refine tidy_append (tidy_kept _) ?_
        rw [codeText_kept]
        exact tidy _ (step m more)
    · next short =>
      have next : (p.after (c :: s.take n)).offset =
          offset + Text.byteSize (front ++ (c :: s.take n)) := by
        rw [Place.offset_after, start, Text.byteSize_append, Nat.add_assoc]
      obtain ⟨cells, cut, text, tidy⟩ := h (front ++ (c :: s.take n)) offset index next
      refine ⟨(c :: s.take n).map Cell.char ++ cells, ?_, ?_, fun m more => ?_⟩
      · rw [← List.append_assoc, ← List.map_append, ← cut, List.append_assoc, ← whole]
      · rw [codeText_append, codeText_chars, text]
        exact whole.symm
      · refine tidy_append (tidy_token visible read (by simpa using short) more) ?_
        rw [codeText_chars]
        exact tidy _ (step m more)

end CutsTidily

theorem cutsTidily_scan {text : Text} (ok : (scan text).fault = none) :
    CutsTidily Place.start text (scan text).tokens :=
  scanAt_induction (motive := CutsTidily) (fun _ => .nil)
    (fun _ _ _ _ blank behind => behind.blank blank)
    (fun _ _ _ _ _ _ visible read behind => behind.token visible read) ok

theorem isLineComment_of_run {p : Place} {c : Char} {s : Text} {k : TokenKind} {n : Nat}
    (read : Lexeme.Reads c s k n) (inside : code.run (c :: s.take n) = .lineComment) :
    Token.isLineComment ⟨k, c :: s.take n, p⟩ = true := by
  cases read with
  | lineComment s => rfl
  | blockComment closed =>
    have back := run_lengthToCode ((commentLength_eq _).1.symm.trans closed)
    exact absurd (back.symm.trans inside) (by decide)
  | string closed =>
    have back := run_quotedLength isQuote_single closed
    exact absurd (back.symm.trans inside) (by decide)
  | quotedName closed =>
    have back := run_quotedLength isQuote_double closed
    exact absurd (back.symm.trans inside) (by decide)
  | plain _ found => exact absurd inside (run_plain_ne_lineComment found)

theorem getLast?_scan {text : Text} (ok : (scan text).fault = none)
    (inside : code.run text = .lineComment) :
    (scan text).tokens.getLast?.any Token.isLineComment = true := by
  have all := scanAt_induction
    (motive := fun _ s ts => (s = [] → ts = []) ∧
      (code.run s = .lineComment → ts.getLast?.any Token.isLineComment = true))
    (fun _ => ⟨fun _ => rfl, fun inside => absurd inside (by decide)⟩)
    (fun p c s ts blank behind => ⟨by simp, fun inside => by
      rw [run_cons, step, opening_of_isBlank blank] at inside
      exact behind.2 inside⟩)
    (fun p c s k n ts visible read behind => ⟨by simp, fun inside => by
      have whole : c :: s = (c :: s.take n) ++ s.drop n := by simp
      rw [whole, run_append] at inside
      cases more : s.drop n with
      | nil =>
        rw [more] at inside behind
        rw [behind.1 rfl]
        exact isLineComment_of_run read inside
      | cons d rest =>
        have resumes := resumes_of_reads read
        rw [more] at resumes inside behind
        rw [resumes.run_cons] at inside
        have last := behind.2 inside
        obtain ⟨t, found, isComment⟩ := (Option.any_eq_true _ _).mp last
        rw [List.getLast?_cons, found]
        exact isComment⟩) ok
  exact all.2 inside

theorem placeholderTokens_eq_markCount (ts : List Token) :
    placeholderTokens ts = markCount (ts.map Token.shape) := by
  rw [placeholderTokens, markCount, List.filter_map, List.length_map]
  rfl

def RawText.cells (body : RawText) : List Cell :=
  body.parts.flatMap RawPart.cells

theorem RawText.exists_scan_of_read {limit : Nat} {sql : Text} {body : RawText}
    (h : RawText.read limit sql = .ok body) :
    ∃ text, (scan text).fault = none ∧ body = RawText.ofNormal text (scan text).tokens := by
  obtain ⟨tokens, -, h⟩ := Except.bind_eq_ok_iff.mp h
  obtain ⟨normalTokens, again, h⟩ := Except.bind_eq_ok_iff.mp h
  obtain ⟨ok, rfl, -⟩ := tokenize_eq_ok_iff.mp again
  exact ⟨_, ok, (Except.ok.inj h).symm⟩

theorem RawText.tidy_read {limit : Nat} {sql : Text} {body : RawText}
    (h : RawText.read limit sql = .ok body) :
    Tidy code body.cells ∧ Marks (codeText .question body.cells) (rowMarks body.cells) ∧
      (code.run (codeText .question body.cells) = .lineComment →
        body.endsInLineComment = true) := by
  have marked := RawText.bindIndices_read h
  obtain ⟨text, ok, rfl⟩ := RawText.exists_scan_of_read h
  obtain ⟨written, tidy⟩ := (cutsTidily_scan ok).here 0
  have count : rowMarks (RawText.ofNormal text (scan text).tokens).cells =
      markCount ((scan text).tokens.map Token.shape) := by
    rw [rowMarks, RawText.cells, RawPart.markerPositions_cells, marked, List.length_range',
      ← placeholderTokens_eq_markCount]
    rfl
  have same : codeText .question (RawText.ofNormal text (scan text).tokens).cells = text := written
  rw [same, count]
  exact ⟨tidy code (resumes_code text), ⟨_, lexes_of_scanAt ok, rfl⟩, getLast?_scan ok⟩

namespace RawSql

theorem lt_length_of_bind (raw : RawSql) :
    ∀ i, .bind i ∈ raw.body.parts → i < raw.binds.length := by
  intro i mem
  obtain ⟨limit, sql, isRead⟩ := raw.isRead
  have index : i ∈ raw.body.parts.filterMap RawPart.bindIndex? :=
    List.mem_filterMap.mpr ⟨_, mem, rfl⟩
  rw [RawText.bindIndices_read isRead, raw.isBound, List.mem_range'_1] at index
  omega

theorem exists_writeAll_of_write {scope : Scope} {raw : RawSql} {b b' : Builder}
    (h : raw.write scope b = .ok b') :
    ∃ c : Builder,
      RawPart.writeAll raw.binds (b.pushIndent (Builder.wrapLead 0)) raw.body.parts =
        (c, .ok ()) ∧
      b' = if raw.body.endsInLineComment then c.popIndent.breakBeforeNext else c.popIndent := by
  simp only [RawSql.write] at h
  split at h
  · cases h
  · obtain ⟨c, done, last⟩ := Except.bind_eq_ok_iff.mp h
    simp only [Builder.wrapped, Attempt.toExcept_eq_ok_iff, Prod.mk.injEq] at done
    obtain ⟨rfl, result⟩ := done
    exact ⟨_, Prod.ext rfl result, (Except.ok.inj last).symm⟩

end RawSql

namespace Builder

variable {b b' : Builder} {f : Follow}

theorem Takes.writeAll {binds : List BindVariable} {parts : List RawPart}
    (h : b.Takes (parts.flatMap RawPart.cells) f)
    (bound : ∀ i, .bind i ∈ parts → i < binds.length)
    (g : RawPart.writeAll binds b parts = (b', .ok ())) :
    b'.Ended f ∧ b'.atLineStart = startsLine b.atLineStart (parts.flatMap RawPart.cells) := by
  induction parts generalizing b with
  | nil =>
    obtain rfl := (Prod.mk.inj g).1
    exact ⟨h.ended, rfl⟩
  | cons part parts ih =>
    have later : ∀ i, .bind i ∈ parts → i < binds.length := fun i mem =>
      bound i (List.mem_cons_of_mem part mem)
    rw [List.flatMap_cons] at h
    rw [List.flatMap_cons, startsLine_append]
    cases part with
    | text s =>
      have next := h.copies 0
      rw [RawPart.cells, ← append_eq_copies] at next
      rw [RawPart.cells, ← atLineStart_copies 0, ← append_eq_copies]
      exact ih next later g
    | literal s =>
      have next := h.copies 0
      rw [RawPart.cells, ← appendKept_eq_copies] at next
      rw [RawPart.cells, ← atLineStart_copies 0, ← appendKept_eq_copies]
      exact ih next later g
    | bind i =>
      have known := List.getElem?_eq_getElem (bound i (by simp))
      simp only [RawPart.writeAll, known] at g
      split at g
      · cases g
      · next c appended =>
        have next := h.appendBind appended
        have inLine : c.atLineStart = false := by
          obtain ⟨position, count, l, rfl⟩ := exists_putMarker_of_appendBind appended
          have marked : (b.putMarker position).atLineStart = false := atLineStart_putCell b _ _
          exact marked
        have whole := ih (.inr next) later g
        rw [inLine] at whole
        exact whole

theorem wrapLead_harmless (extra : Nat) : (wrapLead extra).Harmless :=
  ⟨⟨extra + 1, rfl⟩, by simp [wrapLead, Lead.text], .nil⟩

theorem Open.writeRaw {scope : Scope} {raw : RawSql} (h : b.Open)
    (g : raw.write scope b = .ok b') : b'.Closed := by
  obtain ⟨limit, sql, isRead⟩ := raw.isRead
  have bound := raw.lt_length_of_bind
  obtain ⟨c, written, rfl⟩ := RawSql.exists_writeAll_of_write g
  have pushed := h.pushIndent (wrapLead_harmless 0)
  obtain ⟨tidy, marks, endsInComment⟩ := RawText.tidy_read isRead
  rcases tidy.rowContinues marks with soft | ⟨comment, line⟩
  · have ended := (Takes.writeAll (.inl ⟨pushed, soft⟩) bound written).1
    split
    · exact ended.popIndent.breakBeforeNext
    · exact ended.popIndent.closed
  · obtain ⟨ended, inLine⟩ := Takes.writeAll (.inl ⟨pushed, line⟩) bound written
    obtain ⟨last, ends, visible⟩ := exists_getLast?_of_lineComment comment
    have cells : (raw.body.parts.flatMap RawPart.cells).getLast? = some last := ends
    rw [startsLine_of_getLast? cells, decide_eq_false visible] at inLine
    rw [if_pos (endsInComment comment)]
    exact ended.popIndent.owing inLine

end Builder

end SqlCompose
