import SqlCompose.Code.Script
import SqlCompose.Statement
import SqlCompose.Proofs.Pages.Writes

/-! Embedding as a way of writing. Texts, line ends, placeholders and breaks can be written on a
new builder that is embedded afterwards, or on the outer builder itself: both fail, or both lead
to the same builder. Every operation commutes with embedding, so a script does. Only a break
that is asked for before anything is written would be lost with the new builder, which has no
line to end. -/

namespace SqlCompose

def Cell.moved (n : Nat) : Cell → Cell
  | .marker position => .marker (position + n)
  | cell => cell

theorem Cell.moved_zero : Cell.moved 0 = id := by
  funext cell
  cases cell <;> rfl

namespace Builder

variable {b c d s : Builder} {cell : Cell} {cells : List Cell}

def withBinding (b : Builder) (count : Nat) (l : Ledger) : Builder :=
  { b with bindCount := count, ledger := l }

section Frame

variable (b) (count : Nat) (l : Ledger)

theorem withBinding_endLine : (b.withBinding count l).endLine = b.endLine.withBinding count l := rfl

theorem withBinding_breakBeforeNext :
    (b.withBinding count l).breakBeforeNext = b.breakBeforeNext.withBinding count l := by
  cases start : b.atLineStart <;> simp [breakBeforeNext, withBinding, start]

theorem withBinding_settleBreak :
    (b.withBinding count l).settleBreak = b.settleBreak.withBinding count l := by
  cases pending : b.pendingBreak <;> cases start : b.atLineStart <;>
    simp [settleBreak, withBinding, endLine, pending, start]

theorem withBinding_startLine :
    (b.withBinding count l).startLine = b.startLine.withBinding count l := by
  cases start : b.atLineStart <;> simp [startLine, withBinding, lead, start]

theorem withBinding_putCell (cell : Cell) (wordTail : Bool) :
    (b.withBinding count l).putCell cell wordTail =
      (b.putCell cell wordTail).withBinding count l := by
  simp only [putCell, withBinding_settleBreak, withBinding_startLine]
  rfl

theorem withBinding_putCopy (offset : Nat) (cell : Cell) :
    putCopy offset (b.withBinding count l) cell =
      (putCopy offset b cell).withBinding count l := by
  cases cell with
  | char c =>
    simp only [putCopy, putChar]
    split
    · exact withBinding_endLine b count l
    · exact withBinding_putCell b count l _ _
  | kept c => exact withBinding_putCell b count l _ _
  | marker p => exact withBinding_putCell b count l _ _

theorem withBinding_copies (offset : Nat) (cells : List Cell) :
    cells.foldl (putCopy offset) (b.withBinding count l) =
      (cells.foldl (putCopy offset) b).withBinding count l := by
  induction cells generalizing b with
  | nil => rfl
  | cons cell cells ih => rw [List.foldl_cons, withBinding_putCopy, ih, List.foldl_cons]

end Frame

theorem copies_moved (offset : Nat) (cells : List Cell) (b : Builder) :
    cells.foldl (putCopy offset) b = (cells.map (Cell.moved offset)).foldl (putCopy 0) b := by
  have moved : ∀ b cell, putCopy offset b cell = putCopy 0 b (cell.moved offset) := by
    intro b cell
    cases cell <;> rfl
  rw [List.foldl_map, funext fun b => funext (moved b)]

/-- What embedding writes, placeholders not counted. -/
def copyText (b other : Builder) : Builder :=
  let c := other.cells.toList.foldl (putCopy b.bindCount) b
  if other.pendingBreak then c.breakBeforeNext else c

theorem binding_copyText (b s : Builder) : (b.copyText s).bindCount = b.bindCount ∧
    (b.copyText s).ledger = b.ledger := by
  have copied := binding_putCopies b.bindCount s.cells.toList b
  simp only [binding, Binding.mk.injEq] at copied
  simp only [copyText]
  split
  · simp only [breakBeforeNext]
    split <;> exact ⟨copied.1, copied.2.1⟩
  · exact ⟨copied.1, copied.2.1⟩

theorem withCopy_eq (b s : Builder) :
    b.withCopy s = (b.copyText s).withBinding (b.bindCount + s.bindCount) b.ledger := by
  obtain ⟨count, ledger⟩ := binding_copyText b s
  rw [← count, ← ledger]
  simp only [withCopy, copyText]
  split
  · simp only [breakBeforeNext]
    split <;> rfl
  · rfl

theorem embed_eq_ok_iff : b.embed s = (d, .ok ()) ↔
    ∃ l, b.ledger.recordAll (s.ledger.map (LedgerEntry.shift b.bindCount)) = (l, .ok ()) ∧
      d = (b.copyText s).withBinding (b.bindCount + s.bindCount) l := by
  rw [embed_eq, withCopy_eq]
  have outer : ((b.copyText s).withBinding (b.bindCount + s.bindCount) b.ledger).ledger =
      b.ledger := rfl
  rw [outer]
  generalize b.ledger.recordAll (s.ledger.map (LedgerEntry.shift b.bindCount)) = merged
  obtain ⟨l, result⟩ := merged
  simp only [Prod.mk.injEq]
  constructor
  · rintro ⟨rfl, done⟩
    exact ⟨l, ⟨rfl, done⟩, rfl⟩
  · rintro ⟨_, ⟨rfl, done⟩, rfl⟩
    exact ⟨rfl, done⟩

/-- No indentation is in force, a line begins exactly at the start and behind line ends, a break
is owed only in a line, and no variable has two entries. -/
structure Alone (s : Builder) : Prop where
  indents : s.indents = []
  lineStart : s.atLineStart = s.cells.toList.getLast?.all (· = .char '\n')
  owing : s.pendingBreak = true → s.atLineStart = false
  distinct : s.ledger.names.Nodup

theorem alone_empty (style : PlaceholderStyle) : (empty style).Alone :=
  ⟨rfl, rfl, (absurd · (by simp [empty])), List.nodup_nil⟩

theorem Alone.withBinding (h : s.Alone) (count : Nat) {l : Ledger} (distinct : l.names.Nodup) :
    (s.withBinding count l).Alone :=
  ⟨h.indents, h.lineStart, h.owing, distinct⟩

theorem Alone.cells_putCell (h : s.Alone) (cell : Cell) (wordTail : Bool) :
    (s.putCell cell wordTail).cells.toList =
      s.cells.toList ++ (if s.pendingBreak then [.char '\n', cell] else [cell]) := by
  have none : s.lead = [] := by simp [lead, h.indents]
  rw [Builder.cells_putCell, front, none]
  cases pending : s.pendingBreak with
  | false => simp
  | true => simp [h.owing pending]

theorem Alone.putCell (h : s.Alone) (wordTail : Bool) (other : cell ≠ .char '\n') :
    (s.putCell cell wordTail).Alone ∧ (s.putCell cell wordTail).pendingBreak = false := by
  have inLine := atLineStart_putCell s cell wordTail
  have settled := s.startLine_settleBreak.1
  have ledger : (s.putCell cell wordTail).ledger = s.ledger :=
    congrArg Binding.ledger (binding_putCell s cell wordTail)
  have indents : (s.putCell cell wordTail).indents = [] := by
    simp only [Builder.putCell, startLine, settleBreak]
    split <;> split <;> simp [h.indents, endLine]
  refine ⟨⟨indents, ?_, fun _ => inLine, ledger ▸ h.distinct⟩, settled⟩
  rw [inLine, h.cells_putCell]
  split <;> simp [other]

theorem Alone.endLine (h : s.Alone) : s.endLine.Alone :=
  ⟨h.indents, by simp [Builder.endLine], (absurd · (by simp [Builder.endLine])), h.distinct⟩

theorem Alone.breakBeforeNext (h : s.Alone) : s.breakBeforeNext.Alone := by
  rw [Builder.breakBeforeNext]
  split
  · exact h
  · next inLine => exact ⟨h.indents, h.lineStart, fun _ => Bool.eq_false_iff.mpr inLine, h.distinct⟩

theorem Alone.putCopy (h : s.Alone) (offset : Nat) (cell : Cell) :
    (putCopy offset s cell).Alone := by
  cases cell with
  | char c =>
    rw [Builder.putCopy, putChar]
    split
    · exact h.endLine
    · next visible => exact (h.putCell _ (by simpa using visible)).1
  | kept c => exact (h.putCell _ (by simp)).1
  | marker p => exact (h.putCell _ (by simp)).1

theorem Alone.copies (h : s.Alone) (offset : Nat) (cells : List Cell) :
    (cells.foldl (Builder.putCopy offset) s).Alone := by
  induction cells generalizing s with
  | nil => exact h
  | cons cell cells ih => exact ih (h.putCopy offset cell)

theorem endLine_breakBeforeNext (c : Builder) : c.breakBeforeNext.endLine = c.endLine := by
  rw [breakBeforeNext]
  split <;> rfl

theorem breakBeforeNext_twice (c : Builder) :
    c.breakBeforeNext.breakBeforeNext = c.breakBeforeNext := by
  simp only [breakBeforeNext]
  split <;> simp_all

theorem putCell_breakBeforeNext (wordTail : Bool) (inLine : c.atLineStart = false) :
    c.breakBeforeNext.putCell cell wordTail = c.endLine.putCell cell wordTail := by
  have owed : c.breakBeforeNext = { c with pendingBreak := true } := by
    simp [breakBeforeNext, inLine]
  have settled : c.breakBeforeNext.settleBreak = c.endLine := by
    rw [owed, settleBreak]
    simp only [inLine]
    rfl
  have ended : c.endLine.settleBreak = c.endLine := settleBreak_of_settled rfl
  rw [putCell, settled, putCell, ended]

theorem exists_putCopy_eq_putCell (offset : Nat) (style : PlaceholderStyle)
    (other : cell ≠ .char '\n') :
    ∃ copy wordTail, ∀ c : Builder, c.style = style →
      putCopy offset c cell = c.putCell copy wordTail := by
  cases cell with
  | char x =>
    have visible : x ≠ '\n' := by simpa using other
    exact ⟨.char x, isWordChar x, fun c _ => by rw [putCopy, putChar, if_neg visible]⟩
  | kept x => exact ⟨.kept x, isWordChar x, fun c _ => rfl⟩
  | marker p =>
    exact ⟨.marker (p + offset), style == .dollar, fun c same => by rw [putCopy, putMarker, same]⟩

theorem Alone.atLineStart_copies (h : s.Alone) (written : s.cells.toList ≠ []) :
    (s.cells.toList.foldl (Builder.putCopy b.bindCount) b).atLineStart = s.atLineStart := by
  obtain ⟨last, ends⟩ := Option.isSome_iff_exists.mp (List.getLast?_isSome.mpr written)
  rw [Builder.atLineStart_copies, startsLine_of_getLast? ends, h.lineStart, ends]
  rfl

theorem Alone.written_of_inLine (h : s.Alone) (inLine : s.atLineStart = false) :
    s.cells.toList ≠ [] := by
  intro none
  have start := h.lineStart
  rw [inLine, none] at start
  cases start

theorem Alone.copyText_putCell (h : s.Alone) (wordTail : Bool) (other : cell ≠ .char '\n') :
    b.copyText (s.putCell cell wordTail) = Builder.putCopy b.bindCount (b.copyText s) cell := by
  have settled := (h.putCell wordTail other).2
  simp only [copyText, settled, Bool.false_eq_true, if_false, h.cells_putCell, List.foldl_append]
  cases pending : s.pendingBreak with
  | false => rfl
  | true =>
    have inLine := h.owing pending
    have copied := h.atLineStart_copies (b := b) (h.written_of_inLine inLine)
    generalize s.cells.toList.foldl (Builder.putCopy b.bindCount) b = c at copied ⊢
    obtain ⟨copy, tail, put⟩ := exists_putCopy_eq_putCell b.bindCount c.style other
    have owing : c.breakBeforeNext.style = c.style := by
      rw [Builder.breakBeforeNext]
      split <;> rfl
    simp only [if_true, List.foldl_cons, List.foldl_nil]
    rw [put c.breakBeforeNext owing, putCell_breakBeforeNext tail (copied.trans inLine)]
    exact put c.endLine rfl

theorem copyText_endLine (b s : Builder) : b.copyText s.endLine = (b.copyText s).endLine := by
  have copied : b.copyText s.endLine =
      (s.cells.toList.foldl (putCopy b.bindCount) b).endLine := by
    simp [copyText, endLine, putCopy, putChar]
  rw [copied, copyText]
  split
  · rw [endLine_breakBeforeNext]
  · rfl

theorem Alone.copyText_putCopy (h : s.Alone) (offset : Nat) (cell : Cell) :
    b.copyText (Builder.putCopy offset s cell) =
      Builder.putCopy (b.bindCount + offset) (b.copyText s) cell := by
  cases cell with
  | char c =>
    by_cases lineEnd : c = '\n'
    · simp only [Builder.putCopy, putChar, if_pos lineEnd]
      exact copyText_endLine b s
    · have other : Cell.char c ≠ .char '\n' := by simpa using lineEnd
      have written : Builder.putCopy offset s (.char c) = s.putCell (.char c) (isWordChar c) := by
        rw [Builder.putCopy, putChar, if_neg lineEnd]
      rw [written, h.copyText_putCell _ other]
      rfl
  | kept c => exact h.copyText_putCell _ (by simp)
  | marker p =>
    have position : p + offset + b.bindCount = p + (b.bindCount + offset) := by omega
    rw [Builder.putCopy, putMarker, h.copyText_putCell _ (by simp), Builder.putCopy, position]
    rfl

theorem Alone.copyText_copies (h : s.Alone) (offset : Nat) (cells : List Cell) :
    b.copyText (cells.foldl (Builder.putCopy offset) s) =
      cells.foldl (Builder.putCopy (b.bindCount + offset)) (b.copyText s) := by
  induction cells generalizing s with
  | nil => rfl
  | cons cell cells ih =>
    rw [List.foldl_cons, ih (h.putCopy offset cell), h.copyText_putCopy, List.foldl_cons]

theorem copies_of_text (offset : Nat) (text : ∀ cell ∈ cells, cell.position? = none) :
    cells.foldl (Builder.putCopy offset) b = cells.foldl (Builder.putCopy 0) b := by
  induction cells generalizing b with
  | nil => rfl
  | cons cell cells ih =>
    have same : Builder.putCopy offset b cell = Builder.putCopy 0 b cell := by
      cases known : cell with
      | marker p => cases known ▸ text cell (by simp)
      | _ => rfl
    rw [List.foldl_cons, same, ih fun x mem => text x (List.mem_cons_of_mem cell mem),
      List.foldl_cons]

theorem Alone.copyText_breakBeforeNext (h : s.Alone) (written : s.cells.toList ≠ []) :
    b.copyText s.breakBeforeNext = (b.copyText s).breakBeforeNext := by
  have copied := h.atLineStart_copies (b := b) written
  cases start : s.atLineStart with
  | true =>
    have settled : s.pendingBreak = false := by
      by_contra pending
      rw [h.owing (by simpa using pending)] at start
      cases start
    have same : s.breakBeforeNext = s := by rw [Builder.breakBeforeNext, if_pos start]
    rw [same, copyText, settled]
    simp only [Bool.false_eq_true, if_false]
    rw [Builder.breakBeforeNext, if_pos (copied.trans start)]
  | false =>
    have owed : b.copyText s.breakBeforeNext =
        (s.cells.toList.foldl (Builder.putCopy b.bindCount) b).breakBeforeNext := by
      have asked : s.breakBeforeNext = { s with pendingBreak := true } := by
        rw [Builder.breakBeforeNext, if_neg (by simp [start])]
      rw [asked]
      rfl
    rw [owed, copyText]
    split
    · rw [breakBeforeNext_twice]
    · rfl

theorem embed_text {f : Builder → Builder} (text : b.copyText (f s) = f (b.copyText s))
    (binding : (f s).binding = s.binding)
    (frame : ∀ (c : Builder) count l, f (c.withBinding count l) = (f c).withBinding count l) :
    b.embed (f s) = (d, .ok ()) ↔ ∃ c, b.embed s = (c, .ok ()) ∧ f c = d := by
  have count : (f s).bindCount = s.bindCount := congrArg Binding.count binding
  have ledger : (f s).ledger = s.ledger := congrArg Binding.ledger binding
  simp only [embed_eq_ok_iff, text, count, ledger]
  constructor
  · rintro ⟨l, merged, rfl⟩
    exact ⟨_, ⟨l, merged, rfl⟩, frame _ _ _⟩
  · rintro ⟨_, ⟨l, merged, rfl⟩, rfl⟩
    exact ⟨l, merged, frame _ _ _⟩

theorem embed_append (h : s.Alone) (t : Text) : b.embed (s.append t) = (d, .ok ()) ↔
    ∃ c, b.embed s = (c, .ok ()) ∧ c.append t = d := by
  refine embed_text (f := (·.append t)) ?_ (binding_append s t) fun c count l => ?_
  · simp only [append_eq_copies]
    rw [h.copyText_copies, copies_of_text _ (by simp [Cell.position?])]
  · simp only [append_eq_copies, withBinding_copies]

theorem embed_appendKept (h : s.Alone) (t : Text) : b.embed (s.appendKept t) = (d, .ok ()) ↔
    ∃ c, b.embed s = (c, .ok ()) ∧ c.appendKept t = d := by
  refine embed_text (f := (·.appendKept t)) ?_ (binding_appendKept s t) fun c count l => ?_
  · simp only [appendKept_eq_copies]
    rw [h.copyText_copies, copies_of_text _ (by simp [Cell.position?])]
  · simp only [appendKept_eq_copies, withBinding_copies]

theorem embed_endLine : b.embed s.endLine = (d, .ok ()) ↔
    ∃ c, b.embed s = (c, .ok ()) ∧ c.endLine = d :=
  embed_text (copyText_endLine b s) (binding_endLine s) withBinding_endLine

theorem embed_breakBeforeNext (h : s.Alone) (written : s.cells.toList ≠ []) :
    b.embed s.breakBeforeNext = (d, .ok ()) ↔
      ∃ c, b.embed s = (c, .ok ()) ∧ c.breakBeforeNext = d :=
  embed_text (h.copyText_breakBeforeNext written) (binding_breakBeforeNext s)
    withBinding_breakBeforeNext

theorem appendBind_eq_ok_iff_record {v : BindVariable} : b.appendBind v = (d, .ok ()) ↔
    ∃ l, b.ledger.record v [b.bindCount + 1] = .ok l ∧
      d = (b.putMarker (b.bindCount + 1)).withBinding (b.bindCount + 1) l := by
  have begun := (binding_startLine b.settleBreak).trans (binding_settleBreak b)
  simp only [Builder.binding, Binding.mk.injEq] at begun
  obtain ⟨count, ledger, -⟩ := begun
  obtain ⟨settled, inLine, style⟩ := b.startLine_settleBreak
  have marked : ∀ l, ((b.settleBreak.startLine.withBinding (b.bindCount + 1) l).putMarker
      (b.bindCount + 1)) = (b.putMarker (b.bindCount + 1)).withBinding (b.bindCount + 1) l := by
    intro l
    rw [putMarker, withBinding_putCell, putCell_inLine _ settled inLine]
    simp only [putMarker, putCell, Builder.withBinding, style]
  rw [appendBind_eq_ok_iff]
  simp only [addBind_eq_ok_iff, count, ledger]
  constructor
  · rintro ⟨_, ⟨l, recorded, rfl⟩, rfl⟩
    exact ⟨l, recorded, marked l⟩
  · rintro ⟨l, recorded, rfl⟩
    exact ⟨_, ⟨l, recorded, rfl⟩, (marked l).symm⟩

theorem embed_appendBind {v : BindVariable} (h : s.Alone) :
    (∃ s', s.appendBind v = (s', .ok ()) ∧ b.embed s' = (d, .ok ())) ↔
      ∃ c, b.embed s = (c, .ok ()) ∧ c.appendBind v = (d, .ok ()) := by
  have position : s.bindCount + 1 + b.bindCount = b.bindCount + s.bindCount + 1 := by omega
  have ledgers : ∀ l : Ledger,
      (∃ k, s.ledger.record v [s.bindCount + 1] = .ok k ∧
        b.ledger.recordAll (k.map (LedgerEntry.shift b.bindCount)) = (l, .ok ())) ↔
      ∃ m, b.ledger.recordAll (s.ledger.map (LedgerEntry.shift b.bindCount)) = (m, .ok ()) ∧
        m.record v [b.bindCount + s.bindCount + 1] = .ok l := by
    intro l
    rw [← position]
    exact Ledger.recordAll_shift_record_iff h.distinct
  -- both sides write the marker behind the copied text
  have text : ∀ m l k : Ledger,
      (b.copyText ((s.putMarker (s.bindCount + 1)).withBinding (s.bindCount + 1) k)).withBinding
          (b.bindCount + (s.bindCount + 1)) l =
        (((b.copyText s).withBinding (b.bindCount + s.bindCount) m).putMarker
          (b.bindCount + s.bindCount + 1)).withBinding (b.bindCount + s.bindCount + 1) l := by
    intro m l k
    have copied : b.copyText (s.putMarker (s.bindCount + 1)) =
        (b.copyText s).putMarker (b.bindCount + s.bindCount + 1) := by
      rw [putMarker, h.copyText_putCell _ (by simp), putCopy, position]
    have same : b.copyText ((s.putMarker (s.bindCount + 1)).withBinding (s.bindCount + 1) k) =
        b.copyText (s.putMarker (s.bindCount + 1)) := rfl
    rw [same, copied, putMarker, putMarker, withBinding_putCell]
    rfl
  simp only [appendBind_eq_ok_iff_record, embed_eq_ok_iff]
  constructor
  · rintro ⟨_, ⟨k, noted, rfl⟩, l, merged, rfl⟩
    obtain ⟨m, inner, last⟩ := (ledgers l).mp ⟨k, noted, merged⟩
    exact ⟨_, ⟨m, inner, rfl⟩, l, last, text m l k⟩
  · rintro ⟨_, ⟨m, inner, rfl⟩, l, last, rfl⟩
    obtain ⟨k, noted, merged⟩ := (ledgers l).mpr ⟨m, inner, last⟩
    exact ⟨_, ⟨k, noted, rfl⟩, l, merged, (text m l k).symm⟩

theorem Alone.appendBind {v : BindVariable} (h : s.Alone) (e : s.appendBind v = (d, .ok ())) :
    d.Alone := by
  obtain ⟨l, noted, rfl⟩ := appendBind_eq_ok_iff_record.mp e
  have other : Cell.marker (s.bindCount + 1) ≠ .char '\n' := by simp
  have marked := (h.putCell (s.style == .dollar) other).1
  exact marked.withBinding _ (Ledger.nodup_names_record h.distinct noted)

theorem cells_putCell_ne_nil (b : Builder) (cell : Cell) (wordTail : Bool) :
    (b.putCell cell wordTail).cells.toList ≠ [] := by
  simp [putCell]

theorem cells_putCopy_ne_nil (offset : Nat) (b : Builder) (cell : Cell) :
    (putCopy offset b cell).cells.toList ≠ [] := by
  cases cell with
  | char c =>
    rw [putCopy, putChar]
    split
    · simp [endLine]
    · exact cells_putCell_ne_nil b _ _
  | kept c => exact cells_putCell_ne_nil b _ _
  | marker p => exact cells_putCell_ne_nil b _ _

theorem cells_copies_ne_nil (offset : Nat) (written : b.cells.toList ≠ [] ∨ cells ≠ []) :
    (cells.foldl (putCopy offset) b).cells.toList ≠ [] := by
  induction cells generalizing b with
  | nil => simpa using written
  | cons cell cells ih => exact ih (.inl (cells_putCopy_ne_nil offset b cell))

end Builder

theorem Numeral.ofInt_ne_nil (n : Int) : ofInt n ≠ [] := by
  simp only [ofInt, ofNat]
  split
  · simp
  · exact Nat.toDigits_ne_nil

theorem Attempt.toOption_eq_some_iff {a : Attempt} {b : Builder} :
    a.toExcept.toOption = some b ↔ a = (b, .ok ()) := by
  rw [← toExcept_eq_ok_iff]
  cases a.toExcept <;> simp [Except.toOption]

namespace BuilderOp

open Builder

def writes : BuilderOp → Bool
  | append s => !s.isEmpty
  | appendKept s => !s.isEmpty
  | appendInt _ => true
  | endLine => true
  | appendBind _ => true
  | _ => false

/-- Texts, line ends and placeholders, and breaks behind something `written`. -/
def isPlain (written : Bool) : BuilderOp → Bool
  | append _ => true
  | appendKept _ => true
  | appendInt _ => true
  | endLine => true
  | appendBind _ => true
  | breakBeforeNext => written
  | _ => false

def isInsertion (written : Bool) : List BuilderOp → Bool
  | [] => true
  | op :: ops => op.isPlain written && isInsertion (written || op.writes) ops

variable {b d s s' : Builder} {op : BuilderOp} {written : Bool}

theorem embed_run (h : s.Alone) (plain : op.isPlain written = true)
    (begun : written = true → s.cells.toList ≠ []) :
    (∃ s', run s op = (s', .ok ()) ∧ b.embed s' = (d, .ok ())) ↔
      ∃ c, b.embed s = (c, .ok ()) ∧ run c op = (d, .ok ()) := by
  cases op with
  | append t => simpa [run] using embed_append h t
  | appendKept t => simpa [run] using embed_appendKept h t
  | appendInt n => simpa [run, Builder.appendInt] using embed_append h (Numeral.ofInt n)
  | endLine => simpa [run] using embed_endLine
  | breakBeforeNext => simpa [run] using embed_breakBeforeNext h (begun plain)
  | appendBind v => simpa [run] using embed_appendBind h
  | _ => cases plain

theorem alone_run (h : s.Alone) (plain : op.isPlain written = true)
    (begun : written = true → s.cells.toList ≠ []) (done : run s op = (s', .ok ())) :
    s'.Alone ∧ ((written || op.writes) = true → s'.cells.toList ≠ []) := by
  have text : ∀ cells : List Cell, (written || !cells.isEmpty) = true →
      (cells.foldl (putCopy 0) s).cells.toList ≠ [] := by
    intro cells some
    rw [Bool.or_eq_true, Bool.not_eq_true', List.isEmpty_eq_false_iff] at some
    exact cells_copies_ne_nil 0 (some.imp_left begun)
  cases op with
  | append t =>
    obtain rfl := (Prod.mk.inj done).1
    rw [append_eq_copies]
    exact ⟨h.copies 0 _, fun some => text _ (by simpa [writes] using some)⟩
  | appendKept t =>
    obtain rfl := (Prod.mk.inj done).1
    rw [appendKept_eq_copies]
    exact ⟨h.copies 0 _, fun some => text _ (by simpa [writes] using some)⟩
  | appendInt n =>
    obtain rfl := (Prod.mk.inj done).1
    rw [Builder.appendInt, append_eq_copies]
    exact ⟨h.copies 0 _, fun _ => text _ (by simp [Numeral.ofInt_ne_nil])⟩
  | endLine =>
    obtain rfl := (Prod.mk.inj done).1
    exact ⟨h.endLine, fun _ => by simp [Builder.endLine]⟩
  | breakBeforeNext =>
    obtain rfl := (Prod.mk.inj done).1
    have same : s.breakBeforeNext.cells = s.cells := by
      rw [Builder.breakBeforeNext]
      split <;> rfl
    refine ⟨h.breakBeforeNext, fun some => ?_⟩
    rw [same]
    exact begun (by simpa [writes] using some)
  | appendBind v =>
    obtain ⟨l, -, rfl⟩ := appendBind_eq_ok_iff_record.mp done
    exact ⟨h.appendBind done, fun _ => cells_putCell_ne_nil s _ (s.style == .dollar)⟩
  | _ => cases plain

theorem runAll_cons {ops : List BuilderOp} : runAll b (op :: ops) = (d, .ok ()) ↔
    ∃ c, run b op = (c, .ok ()) ∧ runAll c ops = (d, .ok ()) := by
  simp only [runAll]
  split
  · next failed => simp [failed]
  · next done => simp [done]

theorem embed_runAll {ops : List BuilderOp} (h : s.Alone)
    (insertion : isInsertion written ops = true) (begun : written = true → s.cells.toList ≠ []) :
    (∃ s', runAll s ops = (s', .ok ()) ∧ b.embed s' = (d, .ok ())) ↔
      ∃ c, b.embed s = (c, .ok ()) ∧ runAll c ops = (d, .ok ()) := by
  induction ops generalizing s written with
  | nil => simp [runAll]
  | cons op ops ih =>
    obtain ⟨plain, later⟩ := (Bool.and_eq_true _ _).mp insertion
    constructor
    · rintro ⟨s', all, embedded⟩
      obtain ⟨s₁, first, rest⟩ := runAll_cons.mp all
      obtain ⟨alone, behind⟩ := alone_run h plain begun first
      obtain ⟨c₁, embedded, rest⟩ := (ih alone later behind).mp ⟨s', rest, embedded⟩
      obtain ⟨c, embedded, first⟩ := (embed_run h plain begun).mp ⟨s₁, first, embedded⟩
      exact ⟨c, embedded, runAll_cons.mpr ⟨c₁, first, rest⟩⟩
    · rintro ⟨c, embedded, all⟩
      obtain ⟨c₁, first, rest⟩ := runAll_cons.mp all
      obtain ⟨s₁, first, embedded⟩ := (embed_run h plain begun).mpr ⟨c, embedded, first⟩
      obtain ⟨alone, behind⟩ := alone_run h plain begun first
      obtain ⟨s', rest, embedded⟩ := (ih alone later behind).mpr ⟨c₁, embedded, rest⟩
      exact ⟨s', runAll_cons.mpr ⟨s₁, first, rest⟩, embedded⟩

theorem run_embed {style : Option PlaceholderStyle} {ops : List BuilderOp} :
    run b (.embed style ops) = (d, .ok ()) ↔
      ∃ s, runAll (Builder.empty (style.getD b.style)) ops = (s, .ok ()) ∧
        b.embed s = (d, .ok ()) := by
  simp only [run]
  split
  · next failed => simp [failed]
  · next done => simp [done]

theorem embed_empty (b : Builder) : b.embed (Builder.empty b.style) = (b, .ok ()) := rfl

/-- Texts, line ends, placeholders and breaks that are written on a new builder and embedded do
what they do if they are written on the builder itself: both fail, or both lead to the same
builder, so that its text, its variables and whatever is written later are the same. A break may
be asked for only behind something written. -/
theorem embed_insertion (b : Builder) {ops : List BuilderOp}
    (insertion : isInsertion false ops = true) :
    (run b (.embed none ops)).toExcept.toOption = (runAll b ops).toExcept.toOption := by
  apply Option.ext
  intro d
  have both := embed_runAll (b := b) (d := d) (alone_empty b.style) insertion (by simp)
  rw [Attempt.toOption_eq_some_iff, Attempt.toOption_eq_some_iff, run_embed, Option.getD_none, both]
  simp [embed_empty]

def insertionSample : List BuilderOp :=
  let v := BindVariable.unvalued ⟨"V", by decide⟩ .int
  [.append "x = ", .appendBind v, .append " -- first\n", .appendKept "'a\nb'", .breakBeforeNext,
    .appendInt (-7), .endLine, .appendBind v]

def insertionOuter : Builder :=
  let v := BindVariable.unvalued ⟨"V", by decide⟩ .number
  match runAll (Builder.empty .dollar)
      [.pushIndent (.simple "  "), .appendBind v, .append " -- note", .breakBeforeNext] with
  | (b, _) => b

theorem embed_insertion_sample : isInsertion false insertionSample = true ∧
    (run insertionOuter (.embed none insertionSample)).toExcept.toOption =
      (runAll insertionOuter insertionSample).toExcept.toOption ∧
    (runAll insertionOuter insertionSample).toExcept.toOption.map (fun b => b.finish.sql) =
      some "  $1 -- note\n  x = $2 -- first\n  'a\nb'\n  -7\n  $3".toList :=
  ⟨by decide, embed_insertion insertionOuter (by decide), by decide +kernel⟩

/-- On a new builder, a break that is asked for first is lost. -/
example : let b := (Builder.empty .question).append ['x']
    (runAll b [.breakBeforeNext, .append ['y']]).1.finish.sql = "x\ny".toList ∧
      (run b (.embed none [.breakBeforeNext, .append ['y']])).1.finish.sql = "xy".toList := by
  decide +kernel

end BuilderOp

end SqlCompose
