import SqlCompose.Proofs.Pages.Steps

/-! What builder operations do to open and closed builders. A word closes an open builder, a
separator opens a closed one again, and a closed builder can be embedded wherever a word can be
written. -/

namespace SqlCompose.Builder

variable {b b' other : Builder} {s : Text} {c : Char} {f : Follow}

theorem append_eq_copies (b : Builder) (s : Text) :
    b.append s = (s.map Cell.char).foldl (putCopy 0) b := by
  rw [append, List.foldl_map]
  rfl

theorem appendKept_eq_copies (b : Builder) (s : Text) :
    b.appendKept s = (s.map Cell.kept).foldl (putCopy 0) b := by
  rw [appendKept, List.foldl_map]
  rfl

theorem Open.append (h : b.Open) (inLine : '\n' ∉ s) (continues : Continues s 0 f) :
    (b.append s).Ended f := by
  rw [append_eq_copies]
  exact h.copies 0 (.chars inLine continues)

theorem Open.append_word (h : b.Open) (word : IsWord s) : (b.append s).Closed :=
  (h.append word.inLine word.continues).closed

theorem Open.append_separator (h : b.Open) (inLine : '\n' ∉ s)
    (separator : isSeparator s = true) : (b.append s).Open :=
  (h.append inLine (continues_separator separator)).isOpen

theorem Closed.append (h : b.Closed) (soft : isSoft c = true) (inLine : '\n' ∉ c :: s)
    (continues : Continues (c :: s) 0 f) : (b.append (c :: s)).Ended f := by
  have visible : c ≠ '\n' := fun same => inLine (by simp [same])
  have row := RowContinues.chars inLine continues
  have first := h.putCell (isWordChar c) soft visible row
  have start : b.append (c :: s) = (b.putCell (.char c) (isWordChar c)).append s := by
    simp [Builder.append, putChar, visible]
  rw [start, append_eq_copies]
  exact first.copies 0

theorem Closed.append_separator (h : b.Closed) (soft : isSoft c = true) (inLine : '\n' ∉ c :: s)
    (separator : isSeparator (c :: s) = true) : (b.append (c :: s)).Open :=
  (h.append soft inLine (continues_separator separator)).isOpen

theorem Closed.append_closing (h : b.Closed) : (b.append [')']).Open :=
  h.append_separator (by decide) (by decide) (by decide +kernel)

theorem Open.push_space (h : b.Open) (inLine : b.atLineStart = false) :
    Open { b with cells := b.cells.push (.char ' ') } := by
  have space : Cell.char ' ' ≠ .char '\n' := by decide
  have blank : RowContinues ([' '].map Cell.char) .anything :=
    .chars (by decide) (continues_blanks (by decide))
  have last := getLast?_push_all b.cells space
  refine ⟨⟨h.style, h.leads, h.begun, inLine.trans last.symm⟩, h.settled, ?_⟩
  rw [Array.toList_push]
  exact h.row.anything_append blank

def owes (b : Builder) : Bool :=
  b.pendingBreak && !b.atLineStart

/-- The builder as a name finds it: behind the line end that is owed, or a space behind a word. -/
def beforeName (b : Builder) : Builder :=
  if b.owes then b.endLine
  else if b.wordTail && !b.atLineStart then
    { b with pendingBreak := false, cells := b.cells.push (.char ' ') }
  else { b with pendingBreak := false }

theorem settleBreak_of_owes (owed : b.owes = true) : b.settleBreak = b.endLine :=
  if_pos owed

theorem settleBreak_of_free (free : b.owes = false) :
    b.settleBreak = { b with pendingBreak := false } :=
  if_neg (Bool.eq_false_iff.mp free)

theorem appendName_eq (b : Builder) (s : Text) : b.appendName s = b.beforeName.append s := by
  cases owed : b.owes with
  | true =>
    rw [appendName, settleBreak_of_owes owed, beforeName, if_pos owed]
    rfl
  | false =>
    rw [appendName, settleBreak_of_free owed, beforeName, if_neg (Bool.eq_false_iff.mp owed)]

theorem Open.appendName (h : b.Open) (word : IsWord s) : (b.appendName s).Closed := by
  simp only [Builder.appendName, settleBreak_of_settled h.settled]
  split
  · next gap =>
    have inLine : b.atLineStart = false := by simpa using ((Bool.and_eq_true _ _).mp gap).2
    exact (h.push_space inLine).append_word word
  · exact h.append_word word

theorem startLine_settleBreak (b : Builder) : b.settleBreak.startLine.pendingBreak = false ∧
    b.settleBreak.startLine.atLineStart = false ∧ b.settleBreak.startLine.style = b.style := by
  unfold startLine settleBreak
  split <;> split <;> simp_all [Builder.endLine]

theorem settled_putCopy (offset : Nat) (b : Builder) (cell : Cell) :
    (putCopy offset b cell).pendingBreak = false := by
  cases cell with
  | char c =>
    rw [putCopy, putChar]
    split
    · rfl
    · exact b.startLine_settleBreak.1
  | kept c => exact b.startLine_settleBreak.1
  | marker p => exact b.startLine_settleBreak.1

theorem exists_putMarker_of_appendBind {v : BindVariable} (h : b.appendBind v = (b', .ok ())) :
    ∃ (position count : Nat) (l : Ledger),
      b' = { b.putMarker position with bindCount := count, ledger := l } := by
  obtain ⟨c, added, rfl⟩ := appendBind_eq_ok_iff.mp h
  obtain ⟨l, -, rfl⟩ := addBind_eq_ok_iff.mp added
  obtain ⟨settled, inLine, style⟩ := b.startLine_settleBreak
  refine ⟨b.settleBreak.startLine.bindCount + 1, b.settleBreak.startLine.bindCount + 1, l, ?_⟩
  have written : ∀ n, b.putMarker n =
      { b.settleBreak.startLine with
        cells := b.settleBreak.startLine.cells.push (.marker n)
        wordTail := b.style == .dollar } := fun _ => rfl
  rw [written]
  generalize b.settleBreak.startLine = line at settled inLine style ⊢
  obtain ⟨cells, indents, atLineStart, pendingBreak, wordTail, count, ledger, style'⟩ := line
  simp only at settled inLine style
  subst settled inLine style
  rfl

theorem Open.with_ledger (h : b.Open) (count : Nat) (l : Ledger) :
    Open { b with bindCount := count, ledger := l } :=
  ⟨⟨h.style, h.leads, h.begun, h.lineStart⟩, h.settled, h.row⟩

theorem Due.with_ledger {cells : List Cell} (h : b.Due cells f) (count : Nat) (l : Ledger) :
    Due { b with bindCount := count, ledger := l } cells f :=
  ⟨⟨h.style, h.leads, h.begun, h.lineStart⟩, h.settled, h.written, h.started, h.row⟩

theorem Ended.with_ledger (h : b.Ended f) (count : Nat) (l : Ledger) :
    Ended { b with bindCount := count, ledger := l } f :=
  h.imp (·.with_ledger count l) (·.with_ledger count l)

theorem Closed.with_ledger (h : b.Closed) (count : Nat) (l : Ledger) :
    Closed { b with bindCount := count, ledger := l } := by
  cases h with
  | opened isOpen => exact .opened (isOpen.with_ledger count l)
  | ended done => exact .ended (done.with_ledger count l)
  | owing pending inLine done => exact .owing pending inLine (done.with_ledger count l)

theorem Takes.appendBind {v : BindVariable} {cells : List Cell} {p : Nat}
    (h : b.Takes (.marker p :: cells) f) (g : b.appendBind v = (b', .ok ())) :
    b'.Due cells f := by
  obtain ⟨position, count, l, rfl⟩ := exists_putMarker_of_appendBind g
  have renumbered : b.Takes (.marker position :: cells) f := h.renumber
  have next := renumbered.putCell (b.style == .dollar) (by simp)
  exact next.with_ledger count l

theorem Open.appendBind_closed {v : BindVariable} (h : b.Open)
    (g : b.appendBind v = (b', .ok ())) : b'.Closed := by
  have row : RowContinues [.marker 0] .soft := by
    intro s laid
    cases laid with
    | cell _ rest =>
      cases rest
      exact continues_marker.of_anything
  have takes : b.Takes [.marker 0] .soft := .inl ⟨h, row⟩
  exact .ended (takes.appendBind g)

theorem Open.pushIndent {lead : Lead} (h : b.Open) (harmless : lead.Harmless) :
    (b.pushIndent lead).Open := by
  refine ⟨⟨h.style, ?_, fun inLine => ?_, h.lineStart⟩, h.settled, h.row⟩
  · intro e mem
    rcases List.mem_cons.mp mem with rfl | outer
    · exact harmless
    · exact h.leads e outer
  · intro e mem
    rcases List.mem_cons.mp mem with rfl | outer
    · have same : b.atLineStart = false := inLine
      simp [same]
    · exact h.begun inLine e outer

theorem Open.popIndent (h : b.Open) : b.popIndent.Open :=
  ⟨⟨h.style, fun e mem => h.leads e (List.mem_of_mem_tail mem),
    fun inLine e mem => h.begun inLine e (List.mem_of_mem_tail mem), h.lineStart⟩,
    h.settled, h.row⟩

theorem Due.popIndent {cells : List Cell} (h : b.Due cells f) : b.popIndent.Due cells f :=
  ⟨⟨h.style, fun e mem => h.leads e (List.mem_of_mem_tail mem),
    fun inLine e mem => h.begun inLine e (List.mem_of_mem_tail mem), h.lineStart⟩,
    h.settled, h.written, fun e mem => h.started e (List.mem_of_mem_tail mem), h.row⟩

theorem Ended.popIndent (h : b.Ended f) : b.popIndent.Ended f :=
  h.imp Open.popIndent Due.popIndent

theorem Closed.popIndent (h : b.Closed) : b.popIndent.Closed := by
  cases h with
  | opened isOpen => exact .opened isOpen.popIndent
  | ended done => exact .ended done.popIndent
  | owing pending inLine done => exact .owing pending inLine done.popIndent

theorem Due.owing (h : b.Due [] f) (line : f = .soft ∨ f = .line) (inLine : b.atLineStart = false) :
    b.breakBeforeNext.Closed := by
  have row : RowContinues (b.cells.toList ++ []) .line := by
    rcases line with rfl | rfl
    · exact h.row.line_of_soft
    · exact h.row
  rw [breakBeforeNext, if_neg (by simp [inLine])]
  exact .owing rfl inLine
    ⟨⟨h.style, h.leads, h.begun, h.lineStart⟩, rfl, h.written, h.started, row⟩

theorem Open.due (h : b.Open) (inLine : b.atLineStart = false) : b.Due [] f := by
  refine ⟨h.toPage, h.settled, fun empty => ?_, h.begun inLine, ?_⟩
  · have start := h.lineStart
    rw [empty, inLine] at start
    cases start
  · rw [List.append_nil]
    exact h.row.of_anything

theorem Ended.breakBeforeNext (h : b.Ended .soft) : b.breakBeforeNext.Closed := by
  cases start : b.atLineStart with
  | false => exact (h.elim (·.due start) id).owing (.inl rfl) start
  | true =>
    rw [Builder.breakBeforeNext, if_pos start]
    exact h.closed

theorem Ended.owing (h : b.Ended .line) (inLine : b.atLineStart = false) :
    b.breakBeforeNext.Closed :=
  (h.elim (·.due inLine) id).owing (.inr rfl) inLine

theorem withCopy_of_settled (settled : other.pendingBreak = false) : b.withCopy other =
    { other.cells.toList.foldl (putCopy b.bindCount) b with
      bindCount := (other.cells.toList.foldl (putCopy b.bindCount) b).bindCount +
        other.bindCount } := by
  simp [withCopy, settled]

theorem Due.row_nil (h : b.Due [] f) : RowContinues b.cells.toList f := by
  have row := h.row
  rwa [List.append_nil] at row

theorem Open.withCopy (h : b.Open) (inner : other.Closed) : (b.withCopy other).Closed := by
  cases inner with
  | opened isOpen =>
    rw [withCopy_of_settled isOpen.settled]
    have copied := (h.copies b.bindCount isOpen.row).isOpen
    exact .opened (copied.with_ledger _ _)
  | ended done =>
    rw [withCopy_of_settled done.settled]
    have copied := h.copies b.bindCount done.row_nil
    exact (copied.with_ledger _ _).closed
  | owing pending inLine done =>
    -- the last cell of the other builder stands in a line, so its copy does as well
    have start := done.lineStart
    have last : ∃ cell, other.cells.toList.getLast? = some cell ∧ cell ≠ .char '\n' := by
      rw [show other.atLineStart = false from inLine] at start
      cases known : other.cells.toList.getLast? with
      | none => simp [known] at start
      | some cell =>
        rw [known] at start
        exact ⟨cell, rfl, by simpa using start⟩
    obtain ⟨cell, ends, visible⟩ := last
    have copied := h.copies b.bindCount done.row_nil
    have copiedInLine : (other.cells.toList.foldl (putCopy b.bindCount) b).atLineStart = false := by
      rw [atLineStart_copies, startsLine_of_getLast? ends]
      simpa using visible
    rw [Builder.withCopy, if_pos pending]
    exact (copied.with_ledger _ _).owing copiedInLine

theorem Open.embed (h : b.Open) (inner : other.Closed) (e : b.embed other = (b', .ok ())) :
    b'.Closed := by
  rw [embed_eq] at e
  obtain ⟨rfl, -⟩ := Prod.mk.inj e
  exact (h.withCopy inner).with_ledger _ _

end SqlCompose.Builder
