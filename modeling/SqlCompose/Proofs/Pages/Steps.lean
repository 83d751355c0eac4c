import SqlCompose.Proofs.Lexing.Rows
import SqlCompose.Proofs.Lexing.Words

/-! Builders whose text splits into tokens, whatever indentation it gets later. An open builder
takes anything, a closed one takes what no token runs into, and while a row is copied into a
builder the rest of the row is due. Each way of writing a cell leads from one of these states to
the next. -/

namespace SqlCompose

/-- What can be written at the start of lines: spaces on all lines but the first one, and nothing
that a token runs into on the first one. -/
structure Lead.Harmless (lead : Lead) : Prop where
  later : ∃ n, lead.text false = Text.spaces n
  inLine : '\n' ∉ lead.text true
  first : Continues (lead.text true) 0 .anything

namespace Builder

/-- Placeholders are question marks, the indentations are harmless and have all begun unless
a line begins, and a line begins exactly at the start and behind line ends. -/
structure Page (b : Builder) : Prop where
  style : b.style = .question
  leads : ∀ e ∈ b.indents, e.lead.Harmless
  begun : b.atLineStart = false → ∀ e ∈ b.indents, e.started = true
  lineStart : b.atLineStart = b.cells.toList.getLast?.all (· = .char '\n')

structure Open (b : Builder) : Prop extends Page b where
  settled : b.pendingBreak = false
  row : RowContinues b.cells.toList .anything

/-- A row has been written in part, and these cells of it are due. -/
structure Due (b : Builder) (cells : List Cell) (f : Follow) : Prop extends Page b where
  settled : b.pendingBreak = false
  written : b.cells.toList ≠ []
  started : ∀ e ∈ b.indents, e.started = true
  row : RowContinues (b.cells.toList ++ cells) f

/-- What no token runs into can be written. -/
inductive Closed (b : Builder) : Prop
  | opened (isOpen : b.Open)
  | ended (done : b.Due [] .soft)
  | owing (pending : b.pendingBreak = true) (inLine : b.atLineStart = false)
    (done : Due { b with pendingBreak := false } [] .line)

variable {b : Builder} {cell : Cell} {cells : List Cell} {f : Follow}

theorem open_empty : (empty .question).Open :=
  ⟨⟨rfl, fun _ none => absurd none List.not_mem_nil, (absurd · (by decide)), rfl⟩, rfl, .nil⟩

theorem exists_lead_spaces
    (spaces : ∀ e ∈ b.indents, ∃ n, e.lead.text (!e.started) = Text.spaces n) :
    ∃ n, b.lead = Text.spaces n := by
  have all : ∀ es : List IndentEntry, (∀ e ∈ es, e ∈ b.indents) →
      ∃ n, es.flatMap (fun e => e.lead.text (!e.started)) = Text.spaces n := by
    intro es inside
    induction es with
    | nil => exact ⟨0, rfl⟩
    | cons e es ih =>
      obtain ⟨m, first⟩ := spaces e (inside e (by simp))
      obtain ⟨n, rest⟩ := ih fun d mem => inside d (List.mem_cons_of_mem e mem)
      refine ⟨m + n, ?_⟩
      rw [List.flatMap_cons, rest, first]
      exact List.replicate_append_replicate
  exact all _ fun e mem => List.mem_reverse.mp mem

theorem lead_of_started (leads : ∀ e ∈ b.indents, e.lead.Harmless)
    (started : ∀ e ∈ b.indents, e.started = true) : ∃ n, b.lead = Text.spaces n := by
  refine exists_lead_spaces fun e mem => ?_
  rw [started e mem]
  exact (leads e mem).later

theorem lead_harmless (leads : ∀ e ∈ b.indents, e.lead.Harmless) :
    '\n' ∉ b.lead ∧ Continues b.lead 0 .anything := by
  have all : ∀ es : List IndentEntry, (∀ e ∈ es, e ∈ b.indents) →
      '\n' ∉ es.flatMap (fun e => e.lead.text (!e.started)) ∧
        Continues (es.flatMap fun e => e.lead.text (!e.started)) 0 .anything := by
    intro es inside
    induction es with
    | nil => exact ⟨by simp, .nil⟩
    | cons e es ih =>
      have harmless := leads e (inside e (by simp))
      obtain ⟨inLine, continues⟩ := ih fun d mem => inside d (List.mem_cons_of_mem e mem)
      rw [List.flatMap_cons]
      have first : '\n' ∉ e.lead.text (!e.started) ∧
          Continues (e.lead.text (!e.started)) 0 .anything := by
        cases e.started with
        | false => exact ⟨harmless.inLine, harmless.first⟩
        | true =>
          obtain ⟨n, spaces⟩ := harmless.later
          rw [Bool.not_true, spaces]
          refine ⟨fun mem => ?_, continues_blanks (isAllBlank_spaces n)⟩
          exact absurd (List.eq_of_mem_replicate mem) (by decide)
      exact ⟨by simp [first.1, inLine], first.2.anything_append continues⟩
  exact all _ fun e mem => List.mem_reverse.mp mem

theorem settleBreak_of_settled (settled : b.pendingBreak = false) : b.settleBreak = b := by
  simp only [settleBreak, settled, Bool.false_and, Bool.false_eq_true, if_false]
  rw [← settled]

theorem putCell_inLine (wordTail : Bool) (settled : b.pendingBreak = false)
    (inLine : b.atLineStart = false) :
    b.putCell cell wordTail = { b with cells := b.cells.push cell, wordTail } := by
  simp [putCell, settleBreak_of_settled settled, startLine, inLine]

theorem putCell_lineStart (wordTail : Bool) (settled : b.pendingBreak = false)
    (start : b.atLineStart = true) :
    b.putCell cell wordTail =
      { b with
        cells := (b.cells ++ b.lead.map Cell.char).push cell
        indents := b.indents.map fun e => { e with started := true }
        atLineStart := false
        wordTail } := by
  simp [putCell, settleBreak_of_settled settled, startLine, start]

/-- What is written in front of a cell that stands in a line: a line end if one is owed, and the
lead of a line that has not begun. -/
def front (b : Builder) : Text :=
  if b.pendingBreak && !b.atLineStart then '\n' :: b.lead
  else if b.atLineStart then b.lead
  else []

theorem cells_putCell (b : Builder) (cell : Cell) (wordTail : Bool) :
    (b.putCell cell wordTail).cells.toList =
      b.cells.toList ++ (b.front.map Cell.char ++ [cell]) := by
  cases pending : b.pendingBreak <;> cases start : b.atLineStart <;>
    simp [putCell, settleBreak, startLine, endLine, front, lead, pending, start]

theorem getLast?_push_all (cells : Array Cell) (other : cell ≠ .char '\n') :
    (cells.push cell).toList.getLast?.all (· = .char '\n') = false := by
  simp [other]

theorem Page.putCell (wordTail : Bool) (h : b.Page) (settled : b.pendingBreak = false)
    (other : cell ≠ .char '\n') : (b.putCell cell wordTail).Page ∧
      (∀ e ∈ (b.putCell cell wordTail).indents, e.started = true) ∧
      (b.putCell cell wordTail).pendingBreak = false := by
  cases start : b.atLineStart with
  | false =>
    rw [putCell_inLine wordTail settled start]
    have last := getLast?_push_all b.cells other
    exact ⟨⟨h.style, h.leads, h.begun, start.trans last.symm⟩, h.begun start, settled⟩
  | true =>
    rw [putCell_lineStart wordTail settled start]
    have last := getLast?_push_all (b.cells ++ b.lead.map Cell.char) other
    have started : ∀ e ∈ b.indents.map fun e => { e with started := true },
        e.started = true := by
      intro e mem
      obtain ⟨d, -, rfl⟩ := List.mem_map.mp mem
      rfl
    refine ⟨⟨h.style, fun e mem => ?_, fun _ => started, last.symm⟩, started, settled⟩
    obtain ⟨d, here, rfl⟩ := List.mem_map.mp mem
    exact h.leads d here

theorem Open.putCell (wordTail : Bool) (h : b.Open) (other : cell ≠ .char '\n')
    (row : RowContinues (cell :: cells) f) : (b.putCell cell wordTail).Due cells f := by
  obtain ⟨page, started, settled⟩ := h.toPage.putCell wordTail h.settled other
  refine ⟨page, settled, ?_, started, ?_⟩
  · rw [Builder.putCell]
    simp
  · cases start : b.atLineStart with
    | false =>
      rw [putCell_inLine wordTail h.settled start, Array.toList_push, List.append_assoc]
      exact h.row.anything_append row
    | true =>
      obtain ⟨inLine, continues⟩ := lead_harmless h.leads
      have lead := RowContinues.chars inLine continues
      rw [putCell_lineStart wordTail h.settled start]
      simp only [Array.toList_push, Array.toList_appendList, List.append_assoc,
        List.singleton_append]
      exact h.row.anything_append (lead.anything_append row)

theorem Due.putCell (wordTail : Bool) (h : b.Due (cell :: cells) f) (other : cell ≠ .char '\n') :
    (b.putCell cell wordTail).Due cells f := by
  obtain ⟨page, started, settled⟩ := h.toPage.putCell wordTail h.settled other
  refine ⟨page, settled, ?_, started, ?_⟩
  · rw [Builder.putCell]
    simp
  · cases start : b.atLineStart with
    | false =>
      rw [putCell_inLine wordTail h.settled start, Array.toList_push, List.append_assoc]
      exact h.row
    | true =>
      -- the lead is spaces, and a line end stands before it
      obtain ⟨n, spaces⟩ := lead_of_started h.leads h.started
      have last := h.lineStart.symm.trans start
      obtain ⟨xs, c, split⟩ := (List.eq_nil_or_concat b.cells.toList).resolve_left h.written
      rw [List.concat_eq_append] at split
      have row := h.row
      rw [split, List.getLast?_concat, Option.all_some, decide_eq_true_eq] at last
      rw [split, last, List.append_assoc] at row
      rw [putCell_lineStart wordTail h.settled start]
      simp only [Array.toList_push, Array.toList_appendList, List.append_assoc,
        List.singleton_append, split, last, spaces]
      exact row.spaces

theorem Page.endLine (h : b.Page) : b.endLine.Page := by
  refine ⟨h.style, h.leads, (absurd · (by simp [Builder.endLine])), ?_⟩
  simp [Builder.endLine]

theorem Open.endLine (h : b.Open) : b.endLine.Open := by
  refine ⟨h.toPage.endLine, rfl, ?_⟩
  rw [Builder.endLine, Array.toList_push]
  exact h.row.anything_append .lineEnd

theorem Due.endLine (h : b.Due (.char '\n' :: cells) f) : b.endLine.Due cells f := by
  refine ⟨h.toPage.endLine, rfl, by simp [Builder.endLine], h.started, ?_⟩
  have row := h.row
  rw [Builder.endLine, Array.toList_push, List.append_assoc]
  exact row

theorem Due.open_endLine (h : b.Due [] f) (line : f = .soft ∨ f = .line) : b.endLine.Open := by
  refine ⟨h.toPage.endLine, rfl, ?_⟩
  have row := h.row
  rw [List.append_nil] at row
  rw [Builder.endLine, Array.toList_push]
  exact row.append_lineEnd line

theorem Closed.endLine (h : b.Closed) : b.endLine.Open := by
  cases h with
  | opened isOpen => exact isOpen.endLine
  | ended done => exact done.open_endLine (.inl rfl)
  | owing _ _ done =>
    have ends := done.open_endLine (.inr rfl)
    exact ⟨⟨ends.style, ends.leads, ends.begun, ends.lineStart⟩, rfl, ends.row⟩

theorem Closed.putCell {c : Char} (wordTail : Bool) (h : b.Closed) (soft : isSoft c = true)
    (inLine : c ≠ '\n') (row : RowContinues (.char c :: cells) f) :
    (b.putCell (.char c) wordTail).Due cells f := by
  have other : Cell.char c ≠ .char '\n' := by simpa using inLine
  cases h with
  | opened isOpen => exact isOpen.putCell wordTail other row
  | ended done =>
    have fits : ∀ t, Relaid (.char c :: cells) t → ∀ rest, f.Admits rest →
        Follow.soft.Admits (t ++ rest) := by
      intro t laid rest _ d head
      cases laid with
      | cell _ _ =>
        obtain rfl := Option.some.inj head
        exact soft
      | lineEnd => exact absurd rfl inLine
    have front := done.row
    rw [List.append_nil] at front
    have due : b.Due (.char c :: cells) f :=
      ⟨done.toPage, done.settled, done.written, done.started, front.append row fits⟩
    exact due.putCell wordTail other
  | owing pending lineGoesOn done =>
    have ends := (Closed.owing pending lineGoesOn done).endLine
    have settled : b.settleBreak = b.endLine := by
      simp [settleBreak, pending, lineGoesOn]
    have same : b.putCell (.char c) wordTail = b.endLine.putCell (.char c) wordTail := by
      rw [Builder.putCell, settled, Builder.putCell, settleBreak_of_settled ends.settled]
    rw [same]
    exact ends.putCell wordTail other row

def Takes (b : Builder) (cells : List Cell) (f : Follow) : Prop :=
  b.Open ∧ RowContinues cells f ∨ b.Due cells f

namespace Takes

theorem putCell (wordTail : Bool) (h : b.Takes (cell :: cells) f) (other : cell ≠ .char '\n') :
    (b.putCell cell wordTail).Due cells f := by
  cases h with
  | inl fresh => exact fresh.1.putCell wordTail other fresh.2
  | inr due => exact due.putCell wordTail other

theorem endLine (h : b.Takes (.char '\n' :: cells) f) : b.endLine.Takes cells f := by
  cases h with
  | inl fresh => exact .inl ⟨fresh.1.endLine, fresh.2.of_lineEnd⟩
  | inr due => exact .inr due.endLine

theorem renumber {p q : Nat} (h : b.Takes (.marker p :: cells) f) :
    b.Takes (.marker q :: cells) f := by
  cases h with
  | inl fresh =>
    have row : RowContinues ([] ++ .marker q :: cells) f := fresh.2.renumber
    exact .inl ⟨fresh.1, row⟩
  | inr due => exact .inr ⟨due.toPage, due.settled, due.written, due.started, due.row.renumber⟩

theorem putCopy (offset : Nat) (h : b.Takes (cell :: cells) f) :
    (putCopy offset b cell).Takes cells f := by
  cases cell with
  | char c =>
    rw [Builder.putCopy, putChar]
    split
    · next lineEnd =>
      subst lineEnd
      exact h.endLine
    · next visible => exact .inr (h.putCell _ (by simpa using visible))
  | kept c => exact .inr (h.putCell _ (by simp))
  | marker p => exact .inr (h.renumber.putCell _ (by simp))

theorem copies {more : List Cell} (offset : Nat) (h : b.Takes (cells ++ more) f) :
    (cells.foldl (Builder.putCopy offset) b).Takes more f := by
  induction cells generalizing b with
  | nil => exact h
  | cons cell cells ih => exact ih (h.putCopy offset)

end Takes

/-- A row has been written behind anything; nothing at all if it was empty. -/
def Ended (b : Builder) (f : Follow) : Prop :=
  b.Open ∨ b.Due [] f

theorem Takes.ended (h : b.Takes [] f) : b.Ended f :=
  h.imp_left And.left

theorem Due.isOpen (h : b.Due [] .anything) : b.Open := by
  have row := h.row
  rw [List.append_nil] at row
  exact ⟨h.toPage, h.settled, row⟩

theorem Ended.isOpen (h : b.Ended .anything) : b.Open :=
  h.elim id Due.isOpen

theorem Ended.closed (h : b.Ended .soft) : b.Closed :=
  h.elim .opened .ended

theorem Open.copies (offset : Nat) (h : b.Open) (row : RowContinues cells f) :
    (cells.foldl (putCopy offset) b).Ended f := by
  have all : b.Takes (cells ++ []) f := by
    rw [List.append_nil]
    exact .inl ⟨h, row⟩
  exact (all.copies offset).ended

theorem Due.copies (offset : Nat) (h : b.Due cells f) :
    (cells.foldl (putCopy offset) b).Ended f := by
  have all : b.Takes (cells ++ []) f := by
    rw [List.append_nil]
    exact .inr h
  exact (all.copies offset).ended

def startsLine (start : Bool) (cells : List Cell) : Bool :=
  cells.foldl (fun _ cell => cell = .char '\n') start

theorem startsLine_append (start : Bool) (xs ys : List Cell) :
    startsLine start (xs ++ ys) = startsLine (startsLine start xs) ys :=
  List.foldl_append

theorem startsLine_of_getLast? {start : Bool} {last : Cell} (ends : cells.getLast? = some last) :
    startsLine start cells = decide (last = .char '\n') := by
  obtain ⟨xs, rfl⟩ := List.getLast?_eq_some_iff.mp ends
  rw [startsLine_append]
  rfl

theorem atLineStart_putCell (b : Builder) (cell : Cell) (wordTail : Bool) :
    (b.putCell cell wordTail).atLineStart = false := by
  simp only [Builder.putCell, startLine]
  split
  · rfl
  · next inLine => exact Bool.eq_false_iff.mpr inLine

theorem atLineStart_putCopy (offset : Nat) (b : Builder) (cell : Cell) :
    (putCopy offset b cell).atLineStart = decide (cell = .char '\n') := by
  cases cell with
  | char c =>
    rw [putCopy, putChar]
    split
    · next lineEnd => simp [lineEnd, endLine]
    · next visible => simp [visible, atLineStart_putCell]
  | kept c => exact atLineStart_putCell b _ _
  | marker p => exact atLineStart_putCell b _ _

theorem atLineStart_copies (offset : Nat) (b : Builder) (cells : List Cell) :
    (cells.foldl (putCopy offset) b).atLineStart = startsLine b.atLineStart cells := by
  induction cells generalizing b with
  | nil => rfl
  | cons cell cells ih =>
    rw [List.foldl_cons, ih, atLineStart_putCopy]
    rfl

end Builder

end SqlCompose
