import SqlCompose.Proofs.Fragments.Rows
import SqlCompose.Proofs.Lexing.Literals
import SqlCompose.Proofs.Scripts

/-! Word characters at the ends of texts. A builder knows whether its text ends in one: every cell
says so of itself, whatever was written before it, so only a name without characters could spoil
it. A name is thus kept apart from the word in front of it. -/

namespace SqlCompose

def Cell.isWord (style : PlaceholderStyle) : Cell → Bool
  | char c => isWordChar c
  | kept c => isWordChar c
  | marker _ => style == .dollar

theorem isWordChar_of_isDigit {c : Char} (digit : Numeral.isDigit c = true) :
    isWordChar c = true := by
  have ascii : c.isDigit = true := by simpa [Numeral.isDigit, Char.isDigit, Char.le_def] using digit
  have small : c.toNat < 0x80 := by
    have least := (Bool.and_eq_true _ _).mp digit
    have bound : c ≤ '9' := of_decide_eq_true least.2
    exact Nat.lt_of_le_of_lt (UInt32.le_iff_toNat_le.mp bound) (by decide)
  rw [isWordChar, isLetterOrNumber, if_pos small, Char.isAlphanum, ascii, Bool.or_true,
    Bool.true_or]

theorem Cell.exists_getLast?_text (style : PlaceholderStyle) (cell : Cell) :
    ∃ c, (cell.text style).getLast? = some c ∧ isWordChar c = cell.isWord style := by
  cases cell with
  | char c => exact ⟨c, rfl, rfl⟩
  | kept c => exact ⟨c, rfl, rfl⟩
  | marker position =>
    cases style with
    | question => exact ⟨'?', rfl, rfl⟩
    | dollar =>
      have some : Numeral.ofNat position ≠ [] := Nat.toDigits_ne_nil
      obtain ⟨c, last⟩ := Option.isSome_iff_exists.mp (List.getLast?_isSome.mpr some)
      refine ⟨c, ?_, isWordChar_of_isDigit (isDigit_ofNat (List.mem_of_getLast? last))⟩
      rw [Cell.text, PlaceholderStyle.marker, List.getLast?_cons, last]
      rfl

namespace Builder

variable {b c d : Builder} {cell : Cell}

/-- The builder knows whether its text ends in a word character, and a line begins only at the
start and behind a line end. -/
structure Tailed (b : Builder) : Prop where
  tail : b.wordTail = b.text.getLast?.any isWordChar
  start : b.atLineStart = true → ∀ c ∈ b.text.getLast?, c = '\n'

theorem tailed_empty (style : PlaceholderStyle) : (empty style).Tailed :=
  ⟨rfl, fun _ _ none => nomatch none⟩

theorem tailed_endLine (b : Builder) : b.endLine.Tailed := by
  have last : b.endLine.text.getLast? = some '\n' := by rw [text_endLine, List.getLast?_concat]
  refine ⟨?_, fun _ c ends => ?_⟩
  · rw [last]
    rfl
  · exact (Option.some.inj (last.symm.trans ends)).symm

theorem tailed_putCell (b : Builder) (cell : Cell) :
    (b.putCell cell (cell.isWord b.style)).Tailed := by
  obtain ⟨c, last, word⟩ := cell.exists_getLast?_text b.style
  have ends : (b.putCell cell (cell.isWord b.style)).text.getLast? = some c := by
    rw [text_putCell, List.getLast?_append, List.getLast?_append, last]
    rfl
  refine ⟨?_, fun start => ?_⟩
  · rw [ends]
    exact word.symm
  · rw [atLineStart_putCell] at start
    cases start

theorem tailed_putCopy (offset : Nat) (b : Builder) (cell : Cell) :
    (putCopy offset b cell).Tailed := by
  cases cell with
  | char c =>
    rw [putCopy, putChar]
    split
    · exact tailed_endLine b
    · exact tailed_putCell b (.char c)
  | kept c => exact tailed_putCell b (.kept c)
  | marker p => exact tailed_putCell b (.marker (p + offset))

theorem tailed_append {t : Text} (b : Builder) (some : t ≠ []) : (b.append t).Tailed := by
  obtain ⟨s, c, rfl⟩ := (List.eq_nil_or_concat t).resolve_left some
  rw [List.concat_eq_append, ← append_append]
  exact tailed_putCopy 0 (b.append s) (.char c)

theorem tailed_appendName {t : Text} (b : Builder) (some : t ≠ []) : (b.appendName t).Tailed := by
  rw [appendName_eq]
  exact tailed_append _ some

theorem Tailed.breakBeforeNext (h : b.Tailed) : b.breakBeforeNext.Tailed := by
  rw [Builder.breakBeforeNext]
  split
  · exact h
  · exact ⟨h.tail, h.start⟩

theorem isInvariant_tailed : IsInvariant (· ≠ []) Tailed where
  copy _ offset cell := tailed_putCopy offset _ cell
  name _ some := tailed_appendName _ some
  owe h := h.breakBeforeNext
  push h _ := ⟨h.tail, h.start⟩
  pop h := ⟨h.tail, h.start⟩
  bind h _ _ := ⟨h.tail, h.start⟩

theorem exists_text_append (b : Builder) {c : Char} (inLine : c ≠ '\n') (s : Text) :
    ∃ rest, (b.append (c :: s)).text = b.text ++ (b.front ++ c :: rest) := by
  have first : b.append (c :: s) = (b.putCell (.char c) (isWordChar c)).append s := by
    rw [append, List.foldl_cons, putChar, if_neg inLine]
    rfl
  have more := (Extends.refl (b.putCell (.char c) (isWordChar c))).append s
  obtain ⟨rest, cells⟩ := more.text
  refine ⟨codeText b.style rest, ?_⟩
  have style : (b.putCell (.char c) (isWordChar c)).style = b.style :=
    ((Extends.refl b).putCell _ _).style
  have whole : (b.append (c :: s)).text =
      (b.putCell (.char c) (isWordChar c)).text ++ codeText b.style rest := by
    rw [first, text, text, more.style, ← cells, codeText_append, style]
  rw [whole, text_putCell]
  simp [Cell.text]

theorem Tailed.beforeName (h : b.Tailed) :
    (b.beforeName.text = b.text ∨ b.beforeName.text = b.text ++ [' '] ∨
      b.beforeName.text = b.text ++ ['\n']) ∧
    (b.beforeName.front = [] ∨
      b.beforeName.front = b.lead ∧ ∀ c ∈ b.beforeName.text.getLast?, c = '\n') ∧
    ∀ c ∈ b.beforeName.text.getLast?, isWordChar c = false := by
  have lineEnd : ∀ {t : Text}, (∀ c ∈ t.getLast?, c = '\n') →
      ∀ c ∈ t.getLast?, isWordChar c = false := by
    intro t ends c last
    rw [ends c last]
    decide
  rw [Builder.beforeName]
  split
  · have ends : ∀ c ∈ b.endLine.text.getLast?, c = '\n' := (tailed_endLine b).start rfl
    exact ⟨.inr (.inr b.text_endLine), .inr ⟨rfl, ends⟩, lineEnd ends⟩
  · split
    · next word =>
      have inLine : b.atLineStart = false := by simpa using ((Bool.and_eq_true _ _).mp word).2
      have spaced : text { b with pendingBreak := false, cells := b.cells.push (.char ' ') } =
          b.text ++ [' '] := by
        simp [text, codeText, Cell.text]
      rw [spaced]
      refine ⟨.inr (.inl rfl), .inl ?_, ?_⟩
      · simp [front, inLine]
      · simp
        decide
    · next apart =>
      cases start : b.atLineStart with
      | true =>
        refine ⟨.inl rfl, .inr ⟨?_, h.start start⟩, lineEnd (h.start start)⟩
        simp [front, lead]
      | false =>
        have word : b.wordTail = false := by simpa [start] using apart
        refine ⟨.inl rfl, .inl ?_, fun c last => ?_⟩
        · simp [front]
        · have last : b.text.getLast? = some c := last
          have tail := h.tail
          rw [word, last] at tail
          exact tail.symm

/-- A builder that a script leads to knows whether its text ends in a word character, if the script
writes no empty name. So a name that begins with a word character is kept apart from the words
before it: it stands behind the text, a space or a line end, with nothing but the lead of its line
between them, and what it stands behind ends in no word character. -/
theorem wordTail_of_script {style : PlaceholderStyle} {ops : List BuilderOp} {b : Builder}
    (ran : BuilderOp.runAll (empty style) ops = (b, .ok ()))
    (named : ∀ s ∈ BuilderOp.namesOf ops, s ≠ []) :
    (b.wordTail = true ↔ ∃ c ∈ b.finish.sql.getLast?, isWordChar c = true) ∧
    ∀ (c : Char) (s : Text), isWordChar c = true → ∃ front lead rest,
      (b.appendName (c :: s)).finish.sql = front ++ (lead ++ c :: rest) ∧
      (front = b.finish.sql ∨ front = b.finish.sql ++ [' '] ∨ front = b.finish.sql ++ ['\n']) ∧
      (lead = [] ∨ lead = b.lead ∧ ∀ d ∈ front.getLast?, d = '\n') ∧
      ∀ d ∈ front.getLast?, isWordChar d = false := by
  have tailed := isInvariant_tailed.runAll (tailed_empty style) ops named ran
  refine ⟨?_, fun c s word => ?_⟩
  · rw [tailed.tail, Option.any_eq_true]
    rfl
  · have inLine : c ≠ '\n' := by
      rintro rfl
      exact absurd word (by decide)
    obtain ⟨fronts, leads, apart⟩ := tailed.beforeName
    obtain ⟨rest, whole⟩ := b.beforeName.exists_text_append inLine s
    rw [← appendName_eq] at whole
    exact ⟨b.beforeName.text, b.beforeName.front, rest, whole, fronts, leads, apart⟩

def apartSample : Attempt :=
  BuilderOp.runAll (empty .dollar) [.pushIndent (.simple ['x']), .append "a = ",
    .appendBind (.unvalued ⟨"KEY", by decide⟩ .int), .breakBeforeNext,
    .embed none [.appendName ['b']]]

theorem wordTail_of_script_sample :
    apartSample.2 = .ok () ∧ apartSample.1.finish.sql = "xa = $1\nxb".toList ∧
    apartSample.1.wordTail = true ∧
    ∃ front lead rest,
      (apartSample.1.appendName ['c']).finish.sql = front ++ (lead ++ 'c' :: rest) ∧
      (front = apartSample.1.finish.sql ∨ front = apartSample.1.finish.sql ++ [' '] ∨
        front = apartSample.1.finish.sql ++ ['\n']) ∧
      (lead = [] ∨ lead = apartSample.1.lead ∧ ∀ d ∈ front.getLast?, d = '\n') ∧
      ∀ d ∈ front.getLast?, isWordChar d = false := by
  have ran : apartSample = (apartSample.1, .ok ()) := Prod.ext rfl rfl
  have sql : apartSample.1.finish.sql = "xa = $1\nxb".toList := by decide +kernel
  have spec := wordTail_of_script ran (by decide)
  exact ⟨rfl, sql, spec.1.mpr ⟨'b', by rw [sql]; rfl, by decide⟩, spec.2 'c' [] (by decide)⟩

end Builder

end SqlCompose
