import SqlCompose.Proofs.Fragments.Rows
import SqlCompose.Proofs.Scripts

/-! Sheets: what a script writes, line by line. A line without text is empty; a line with text
begins with the leads that are in force when its first cell is written. A builder knows no lines:
it writes leads and line ends when the next cell comes. What it has written is the sheet all the
same. -/

namespace SqlCompose

inductive Action where
  | write (cell : Cell)
  | push (lead : Lead)
  | pop
  deriving DecidableEq

def Action.written (actions : List Action) : List Cell :=
  actions.filterMap fun
    | .write cell => some cell
    | _ => none

def Action.pushed (actions : List Action) : List Lead :=
  actions.filterMap fun
    | .push lead => some lead
    | _ => none

theorem Action.pushed_append (xs ys : List Action) : pushed (xs ++ ys) = pushed xs ++ pushed ys :=
  List.filterMap_append

namespace Builder

/-- A row as it is written: behind the line end that is owed, unless it begins with a line end. -/
def rowBehind (b : Builder) (row : List Cell) : List Cell :=
  if b.owes && row.head?.any (· ≠ .char '\n') then .char '\n' :: row else row

/-- What is written between a name and the text in front of it: the line end that is owed, or a
space behind a word. -/
def gap (b : Builder) : Text :=
  if b.owes then ['\n'] else if b.wordTail && !b.atLineStart then [' '] else []

def wrapActions (b : Builder) (s : Text) (ranges : List ByteRange) (extra : Nat) : List Action :=
  let (text, kept) := Fragment.normalizeKeeping ranges s
  .push (wrapLead extra) :: ((b.rowBehind (keptRow 0 text kept)).map .write ++ [.pop])

theorem indents_putCell (b : Builder) (cell : Cell) (wordTail : Bool) (free : b.owes = false) :
    (b.putCell cell wordTail).indents =
      if b.atLineStart then b.indents.map fun e => { e with started := true } else b.indents := by
  rw [putCell, settleBreak_of_free free, startLine]
  split <;> rfl

theorem front_of_free {b : Builder} (free : b.owes = false) :
    b.front = if b.atLineStart then b.lead else [] :=
  if_neg (Bool.eq_false_iff.mp free)

end Builder

mutual

/-- What an operation does to the page of a builder. An embedded builder has its own page, and only
what stands there is written. -/
def BuilderOp.actions (b : Builder) : BuilderOp → List Action
  | .append s => (b.rowBehind (s.map .char)).map .write
  | .appendInt n => (b.rowBehind ((Numeral.ofInt n).map .char)).map .write
  | .appendName s => ((b.gap ++ s).map Cell.char).map .write
  | .appendKept s => (b.rowBehind (s.map .kept)).map .write
  | .endLine => [.write (.char '\n')]
  | .breakBeforeNext => []
  | .pushIndent lead => [.push lead]
  | .popIndent => [.pop]
  | .wrap s extra => b.wrapActions s [] extra
  | .wrapKeeping s ranges extra => b.wrapActions s ranges extra
  | .addBind _ => []
  | .appendBind _ => (b.rowBehind [.marker (b.bindCount + 1)]).map .write
  | .wrapped extra ops =>
    .push (Builder.wrapLead extra) ::
      (BuilderOp.actionsAll (b.pushIndent (Builder.wrapLead extra)) ops ++ [.pop])
  | .apply ops => BuilderOp.actionsAll b ops
  | .embed style ops =>
    let inner := (BuilderOp.runAll (Builder.empty (style.getD b.style)) ops).1
    (b.rowBehind (inner.cells.toList.map (Cell.moved b.bindCount))).map .write
  | .refused _ => []

def BuilderOp.actionsAll (b : Builder) : List BuilderOp → List Action
  | [] => []
  | op :: ops => BuilderOp.actions b op ++ BuilderOp.actionsAll (BuilderOp.run b op).1 ops

end

namespace Sheet

/-- A line: empty, or with a first cell behind a lead. -/
inductive Line where
  | blank
  | text (lead : Text) (first : Cell) (rest : List Cell)
  deriving DecidableEq

namespace Line

def isBlank : Line → Bool
  | blank => true
  | text .. => false

def cells : Line → List Cell
  | blank => []
  | text _ first rest => first :: rest

def row : Line → List Cell
  | blank => []
  | text lead first rest => lead.map .char ++ first :: rest

def put (lead : Text) (cell : Cell) : Line → Line
  | blank => text lead cell []
  | text own first rest => text own first (rest ++ [cell])

end Line

/-- An indentation in force: whether a line began when it was pushed, and how many lines had
received text by then. -/
structure Mark where
  lead : Lead
  atStart : Bool
  before : Nat
  deriving DecidableEq

end Sheet

/-- A page: the lines that have ended, the line that is written on, and the indentations in force,
innermost first. -/
structure Sheet where
  done : List Sheet.Line
  line : Sheet.Line
  marks : List Sheet.Mark
  deriving DecidableEq

namespace Sheet

variable {s : Sheet} {cell : Cell} {cells : List Cell} {actions : List Action}

def empty : Sheet :=
  ⟨[], .blank, []⟩

def lines (s : Sheet) : List Line :=
  s.done ++ [s.line]

def begun (s : Sheet) : Nat :=
  s.lines.countP fun l => !l.isBlank

/-- The next line that receives text is the first one since the indentation was pushed, at the
start of a line. -/
def opens (s : Sheet) (m : Mark) : Bool :=
  m.atStart && m.before == s.begun

def lead (s : Sheet) : Text :=
  s.marks.reverse.flatMap fun m => m.lead.text (s.opens m)

def put (s : Sheet) (cell : Cell) : Sheet :=
  if cell = .char '\n' then { s with done := s.lines, line := .blank }
  else { s with line := s.line.put s.lead cell }

def step (s : Sheet) : Action → Sheet
  | .write cell => s.put cell
  | .push lead => { s with marks := ⟨lead, s.line.isBlank, s.begun⟩ :: s.marks }
  | .pop => { s with marks := s.marks.tail }

def code (s : Sheet) : List Cell :=
  [.char '\n'].intercalate (s.lines.map Line.row)

def ofActions (actions : List Action) : Sheet :=
  actions.foldl step empty

theorem ofActions_concat (actions : List Action) (a : Action) :
    ofActions (actions ++ [a]) = (ofActions actions).step a :=
  List.foldl_concat _ _ _ _

theorem put_lineEnd (s : Sheet) :
    s.put (.char '\n') = { s with done := s.lines, line := .blank } :=
  if_pos rfl

theorem put_of_ne (other : cell ≠ .char '\n') :
    s.put cell = { s with line := s.line.put s.lead cell } :=
  if_neg other

section Joined

variable (f : Line → List Cell)

theorem joined_eq (s : Sheet) : [.char '\n'].intercalate (s.lines.map f) =
    s.done.flatMap (fun l => f l ++ [.char '\n']) ++ f s.line := by
  rw [lines, List.map_append, List.map_singleton]
  induction s.done with
  | nil => exact List.intercalate_singleton
  | cons l done ih =>
    rw [List.map_cons, List.cons_append, List.intercalate_cons_of_ne_nil (by simp), ih,
      List.flatMap_cons]
    simp

theorem joined_lineEnd (s : Sheet) (none : f .blank = []) :
    [.char '\n'].intercalate ((s.put (.char '\n')).lines.map f) =
      [.char '\n'].intercalate (s.lines.map f) ++ [.char '\n'] := by
  rw [joined_eq, joined_eq, put_lineEnd, none]
  simp [lines]

theorem joined_put {more : List Cell} (other : cell ≠ .char '\n')
    (line : f (s.line.put s.lead cell) = f s.line ++ more) :
    [.char '\n'].intercalate ((s.put cell).lines.map f) =
      [.char '\n'].intercalate (s.lines.map f) ++ more := by
  rw [joined_eq, joined_eq, put_of_ne other, line, List.append_assoc]

end Joined

theorem marks_put (s : Sheet) (cell : Cell) : (s.put cell).marks = s.marks := by
  rw [put]
  split <;> rfl

theorem begun_lineEnd (s : Sheet) : (s.put (.char '\n')).begun = s.begun := by
  rw [put_lineEnd, begun, lines, List.countP_append]
  rfl

theorem begun_put_blank (other : cell ≠ .char '\n') (blank : s.line = .blank) :
    (s.put cell).begun = s.begun + 1 := by
  rw [put_of_ne other, begun, begun, lines, lines, List.countP_append, List.countP_append, blank]
  rfl

theorem begun_put_text {lead : Text} {first : Cell} {rest : List Cell} (other : cell ≠ .char '\n')
    (known : s.line = .text lead first rest) : (s.put cell).begun = s.begun := by
  rw [put_of_ne other, begun, begun, lines, lines, List.countP_append, List.countP_append, known]
  rfl

def entry (s : Sheet) (m : Mark) : IndentEntry :=
  ⟨m.lead, !s.opens m⟩

/-- The builder has written the sheet, and its indentations are those of the sheet. -/
structure IsDrawn (s : Sheet) (b : Builder) : Prop where
  code : b.cells.toList = s.code
  indents : b.indents = s.marks.map s.entry
  start : b.atLineStart = s.line.isBlank
  before : ∀ m ∈ s.marks, m.before ≤ s.begun

theorem entry_of_begun {t : Sheet} (same : t.begun = s.begun) : t.entry = s.entry := by
  funext m
  rw [entry, entry, opens, opens, same]

theorem entry_of_begun_lt {t : Sheet} {m : Mark} (h : m.before ≤ s.begun)
    (more : t.begun = s.begun + 1) : t.entry m = { s.entry m with started := true } := by
  have later : (m.before == t.begun) = false := by
    rw [more, beq_eq_false_iff_ne]
    omega
  rw [entry, opens, later, Bool.and_false]
  rfl

namespace IsDrawn

variable {b c : Builder}

theorem lead_eq (h : s.IsDrawn b) : b.lead = s.lead := by
  rw [Builder.lead, h.indents, ← List.map_reverse, List.flatMap_map]
  simp only [entry, Bool.not_not]
  rfl

theorem congr (h : s.IsDrawn b) (cells : c.cells = b.cells) (indents : c.indents = b.indents)
    (start : c.atLineStart = b.atLineStart) : s.IsDrawn c :=
  ⟨cells ▸ h.code, indents ▸ h.indents, start ▸ h.start, h.before⟩

theorem endLine (h : s.IsDrawn b) : (s.put (.char '\n')).IsDrawn b.endLine := by
  have begun := begun_lineEnd s
  refine ⟨?_, ?_, rfl, fun m mem => begun ▸ h.before m mem⟩
  · rw [Builder.endLine, Array.toList_push, h.code]
    exact (joined_lineEnd Line.row s rfl).symm
  · rw [entry_of_begun begun]
    exact h.indents

theorem putCell (wordTail : Bool) (h : s.IsDrawn b) (free : b.owes = false)
    (other : cell ≠ .char '\n') : (s.put cell).IsDrawn (b.putCell cell wordTail) := by
  have written := Builder.cells_putCell b cell wordTail
  have inLine := Builder.atLineStart_putCell b cell wordTail
  have indents := Builder.indents_putCell b cell wordTail free
  rw [Builder.front_of_free free, h.start, h.lead_eq, h.code] at written
  rw [h.start, h.indents] at indents
  cases known : s.line with
  | blank =>
    have more := begun_put_blank other known
    rw [known] at written indents
    have line : (s.line.put s.lead cell).row = s.line.row ++ (s.lead.map .char ++ [cell]) := by
      rw [known]
      rfl
    refine ⟨written.trans (joined_put Line.row other line).symm, ?_, ?_, fun m mem => ?_⟩
    · -- one more line has text now, so no indentation in force opens another one
      rw [indents, marks_put]
      refine (List.map_map ..).trans (List.map_congr_left fun m mem => ?_)
      exact (entry_of_begun_lt (h.before m mem) more).symm
    · rw [inLine, put_of_ne other, known]
      rfl
    · rw [more]
      exact Nat.le_succ_of_le (h.before m (marks_put s cell ▸ mem))
  | text lead first rest =>
    have same := begun_put_text other known
    rw [known] at written indents
    have line : (s.line.put s.lead cell).row = s.line.row ++ [cell] := by
      rw [known]
      simp [Line.put, Line.row]
    refine ⟨written.trans (joined_put Line.row other line).symm, ?_, ?_, fun m mem => ?_⟩
    · rw [indents, entry_of_begun same, marks_put]
      rfl
    · rw [inLine, put_of_ne other, known]
      rfl
    · rw [same]
      exact h.before m (marks_put s cell ▸ mem)

theorem copies (h : s.IsDrawn b)
    (free : b.owes = false ∨ cells.head?.any (· ≠ .char '\n') = false) :
    (cells.foldl put s).IsDrawn (cells.foldl (Builder.putCopy 0) b) := by
  induction cells generalizing s b with
  | nil => exact h
  | cons cell cells ih =>
    refine ih ?_ (.inl ?_)
    · by_cases lineEnd : cell = .char '\n'
      · subst lineEnd
        exact h.endLine
      · have free : b.owes = false := free.resolve_right (by simpa using lineEnd)
        obtain ⟨wordTail, same⟩ := Builder.exists_putCopy_zero b lineEnd
        rw [same]
        exact h.putCell wordTail free lineEnd
    · rw [Builder.owes, Builder.settled_putCopy, Bool.false_and]

theorem rowBehind (h : s.IsDrawn b) (cells : List Cell) :
    ((b.rowBehind cells).foldl put s).IsDrawn (cells.foldl (Builder.putCopy 0) b) := by
  rw [Builder.rowBehind]
  split
  · next owed =>
    obtain ⟨owes, visible⟩ := (Bool.and_eq_true _ _).mp owed
    cases cells with
    | nil => cases visible
    | cons cell cells =>
      have other : cell ≠ .char '\n' := by simpa using visible
      -- the first cell settles the break as a line end in front of it does
      obtain ⟨copy, wordTail, same⟩ := Builder.exists_putCopy_eq_putCell 0 b.style other
      have behind : Builder.putCopy 0 b cell = Builder.putCopy 0 b.endLine cell := by
        rw [same b rfl, same b.endLine rfl, Builder.putCell, Builder.putCell,
          Builder.settleBreak_of_owes owes]
        rfl
      have whole : (cell :: cells).foldl (Builder.putCopy 0) b =
          (cell :: cells).foldl (Builder.putCopy 0) b.endLine := by
        rw [List.foldl_cons, behind, List.foldl_cons]
      rw [whole]
      exact h.endLine.copies (.inl rfl)
  · next free => exact h.copies (Bool.and_eq_false_iff.mp (Bool.eq_false_iff.mpr free))

theorem gap (h : s.IsDrawn b) :
    ((b.gap.map Cell.char).foldl put s).IsDrawn b.beforeName ∧ b.beforeName.owes = false := by
  have settled : s.IsDrawn { b with pendingBreak := false } := h.congr rfl rfl rfl
  rw [Builder.gap, Builder.beforeName]
  split
  · exact ⟨h.endLine, rfl⟩
  · split
    · next word =>
      have inLine : b.atLineStart = false := by simpa using ((Bool.and_eq_true _ _).mp word).2
      have visible : Cell.char ' ' ≠ .char '\n' := by decide
      have spaced := settled.putCell false rfl visible
      rw [Builder.putCell_inLine (b := { b with pendingBreak := false }) false rfl inLine] at spaced
      exact ⟨spaced.congr rfl rfl rfl, rfl⟩
    · exact ⟨settled, rfl⟩

theorem name (h : s.IsDrawn b) (t : Text) :
    (((b.gap ++ t).map Cell.char).foldl put s).IsDrawn (b.appendName t) := by
  obtain ⟨drawn, free⟩ := h.gap
  rw [List.map_append, List.foldl_append, Builder.appendName_eq, Builder.append_eq_copies]
  exact drawn.copies (.inl free)

theorem push (h : s.IsDrawn b) (lead : Lead) :
    (s.step (.push lead)).IsDrawn (b.pushIndent lead) := by
  have begun : (s.step (.push lead)).begun = s.begun := rfl
  refine ⟨h.code, ?_, h.start, List.forall_mem_cons.mpr ⟨Nat.le_refl _, h.before⟩⟩
  have own : s.entry ⟨lead, s.line.isBlank, s.begun⟩ = ⟨lead, !b.atLineStart⟩ := by
    rw [entry, opens, h.start, beq_self_eq_true, Bool.and_true]
  rw [entry_of_begun begun, Builder.pushIndent, h.indents, ← own]
  rfl

theorem pop (h : s.IsDrawn b) : (s.step .pop).IsDrawn b.popIndent := by
  refine ⟨h.code, ?_, h.start, fun m mem => h.before m (List.mem_of_mem_tail mem)⟩
  rw [Builder.popIndent, h.indents, ← List.map_tail]
  rfl

theorem append (h : s.IsDrawn b) (t : Text) :
    ((b.rowBehind (t.map .char)).foldl put s).IsDrawn (b.append t) := by
  rw [Builder.append_eq_copies]
  exact h.rowBehind _

theorem appendKept (h : s.IsDrawn b) (t : Text) :
    ((b.rowBehind (t.map .kept)).foldl put s).IsDrawn (b.appendKept t) := by
  rw [Builder.appendKept_eq_copies]
  exact h.rowBehind _

theorem breakBeforeNext (h : s.IsDrawn b) : s.IsDrawn b.breakBeforeNext := by
  rw [Builder.breakBeforeNext]
  split
  · exact h
  · exact h.congr rfl rfl rfl

theorem appendBind {v : BindVariable} (h : s.IsDrawn b) (e : b.appendBind v = (c, .ok ())) :
    ((b.rowBehind [.marker (b.bindCount + 1)]).foldl put s).IsDrawn c := by
  obtain ⟨l, -, rfl⟩ := Builder.appendBind_eq_ok_iff_record.mp e
  exact (h.rowBehind [.marker (b.bindCount + 1)]).congr rfl rfl rfl

theorem embed {inner : Builder} (h : s.IsDrawn b) (e : b.embed inner = (c, .ok ())) :
    ((b.rowBehind (inner.cells.toList.map (Cell.moved b.bindCount))).foldl put s).IsDrawn c := by
  obtain ⟨l, -, rfl⟩ := Builder.embed_eq_ok_iff.mp e
  have copied := h.rowBehind (inner.cells.toList.map (Cell.moved b.bindCount))
  rw [← Builder.copies_moved] at copied
  rw [Builder.copyText]
  split
  · exact copied.breakBeforeNext.congr rfl rfl rfl
  · exact copied.congr rfl rfl rfl

end IsDrawn

theorem foldl_write (s : Sheet) (cells : List Cell) :
    (cells.map Action.write).foldl step s = cells.foldl put s :=
  List.foldl_map

theorem IsDrawn.wrapKeeping {b : Builder} (h : s.IsDrawn b) (t : Text) (ranges : List ByteRange)
    (extra : Nat) :
    ((b.wrapActions t ranges extra).foldl step s).IsDrawn (b.wrapKeeping t ranges extra) := by
  have pushed := h.push (Builder.wrapLead extra)
  have inner := pushed.rowBehind (keptRow 0 (Fragment.normalizeKeeping ranges t).1
    (Fragment.normalizeKeeping ranges t).2)
  rw [← Builder.appendAround_eq_copies] at inner
  rw [Builder.wrapActions, List.foldl_cons, List.foldl_append, foldl_write]
  exact inner.pop

mutual

/-- What an operation does to the sheet is what it does to the builder. -/
theorem IsDrawn.run {b c : Builder} {s : Sheet} (h : s.IsDrawn b) :
    (op : BuilderOp) → op.run b = (c, .ok ()) → ((op.actions b).foldl step s).IsDrawn c
  | .append t, e => by
    obtain ⟨rfl, -⟩ := Prod.mk.inj e
    rw [BuilderOp.actions, foldl_write]
    exact h.append t
  | .appendInt n, e => by
    obtain ⟨rfl, -⟩ := Prod.mk.inj e
    rw [BuilderOp.actions, foldl_write]
    exact h.append (Numeral.ofInt n)
  | .appendName t, e => by
    obtain ⟨rfl, -⟩ := Prod.mk.inj e
    rw [BuilderOp.actions, foldl_write]
    exact h.name t
  | .appendKept t, e => by
    obtain ⟨rfl, -⟩ := Prod.mk.inj e
    rw [BuilderOp.actions, foldl_write]
    exact h.appendKept t
  | .endLine, e => (Prod.mk.inj e).1 ▸ h.endLine
  | .breakBeforeNext, e => (Prod.mk.inj e).1 ▸ h.breakBeforeNext
  | .pushIndent lead, e => (Prod.mk.inj e).1 ▸ h.push lead
  | .popIndent, e => (Prod.mk.inj e).1 ▸ h.pop
  | .wrap t extra, e => (Prod.mk.inj e).1 ▸ h.wrapKeeping t [] extra
  | .wrapKeeping t ranges extra, e => (Prod.mk.inj e).1 ▸ h.wrapKeeping t ranges extra
  | .addBind v, e => by
    obtain ⟨l, -, rfl⟩ := Builder.addBind_eq_ok_iff.mp e
    exact h.congr rfl rfl rfl
  | .appendBind v, e => by
    rw [BuilderOp.actions, foldl_write]
    exact h.appendBind e
  | .wrapped extra ops, e => by
    obtain ⟨rfl, done⟩ := Prod.mk.inj e
    have inner := (h.push (Builder.wrapLead extra)).runAll ops (Prod.ext rfl done)
    rw [BuilderOp.actions, List.foldl_cons, List.foldl_append]
    exact inner.pop
  | .apply ops, e => h.runAll ops e
  | .embed style ops, e => by
    obtain ⟨inner, ran, embedded⟩ := BuilderOp.run_embed.mp e
    rw [BuilderOp.actions, foldl_write, ran]
    exact h.embed embedded
  | .refused _, e => nomatch (Prod.mk.inj e).2

theorem IsDrawn.runAll {b c : Builder} {s : Sheet} (h : s.IsDrawn b) :
    (ops : List BuilderOp) → BuilderOp.runAll b ops = (c, .ok ()) →
      ((BuilderOp.actionsAll b ops).foldl step s).IsDrawn c
  | [], e => (Prod.mk.inj e).1 ▸ h
  | op :: ops, e => by
    obtain ⟨d, first, rest⟩ := BuilderOp.runAll_cons.mp e
    rw [BuilderOp.actionsAll, first, List.foldl_append]
    exact (h.run op first).runAll ops rest

end

theorem isDrawn_empty (style : PlaceholderStyle) : empty.IsDrawn (Builder.empty style) :=
  ⟨rfl, rfl, rfl, fun _ none => nomatch none⟩

theorem Line.cells_put (lead : Text) (cell : Cell) (l : Line) :
    (l.put lead cell).cells = l.cells ++ [cell] := by
  cases l <;> rfl

theorem joined_cells (actions : List Action) :
    [.char '\n'].intercalate ((ofActions actions).lines.map Line.cells) =
      Action.written actions := by
  induction actions using List.reverseRecOn with
  | nil => rfl
  | append_singleton actions a ih =>
    rw [ofActions_concat, Action.written, List.filterMap_append]
    cases a with
    | write cell =>
      refine Eq.trans ?_ (congrArg (· ++ [cell]) ih)
      by_cases lineEnd : cell = .char '\n'
      · exact lineEnd ▸ joined_lineEnd Line.cells _ rfl
      · exact joined_put Line.cells lineEnd (Line.cells_put _ _ _)
    | push lead => exact ih.trans (List.append_nil _).symm
    | pop => exact ih.trans (List.append_nil _).symm

theorem lineEnd_not_mem_cells (actions : List Action) :
    ∀ l ∈ (ofActions actions).lines, .char '\n' ∉ l.cells := by
  induction actions using List.reverseRecOn with
  | nil => simp [ofActions, empty, lines, Line.cells]
  | append_singleton actions a ih =>
    rw [ofActions_concat]
    cases a with
    | write cell =>
      intro l mem
      rw [step, put] at mem
      split at mem
      · rcases List.mem_append.mp mem with old | new
        · exact ih l old
        · rw [List.mem_singleton.mp new]
          exact List.not_mem_nil
      · next other =>
        rcases List.mem_append.mp mem with old | new
        · exact ih l (List.mem_append_left _ old)
        · have own := ih (ofActions actions).line (List.mem_append_right _ (by simp))
          rw [List.mem_singleton.mp new, Line.cells_put]
          simpa using ⟨own, Ne.symm other⟩
    | push lead => exact ih
    | pop => exact ih

theorem map_cells_ofActions (actions : List Action) :
    (ofActions actions).lines.map Line.cells = (Action.written actions).splitOn (.char '\n') := by
  rw [← joined_cells, List.splitOn_intercalate]
  · exact List.forall_mem_map.mpr (lineEnd_not_mem_cells actions)
  · simp [lines]

theorem getElem?_concat_cases {xs : List Line} {x y : Line} {n : Nat}
    (known : (xs ++ [x])[n]? = some y) : xs[n]? = some y ∨ xs.length = n ∧ x = y := by
  rw [List.getElem?_append] at known
  split at known
  · exact .inl known
  · next behind =>
    rw [List.getElem?_singleton] at known
    split at known
    · next last => exact .inr ⟨by omega, Option.some.inj known⟩
    · cases known

theorem exists_first {n : Nat} {lead : Text} {first : Cell} {rest : List Cell}
    (known : (ofActions actions).lines[n]? = some (.text lead first rest)) :
    ∃ past later, actions = past ++ .write first :: later ∧ (ofActions past).done.length = n ∧
      (ofActions past).line = .blank ∧ lead = (ofActions past).lead := by
  induction actions using List.reverseRecOn generalizing lead first rest with
  | nil =>
    have blank := List.mem_singleton.mp (List.mem_of_getElem? known)
    cases blank
  | append_singleton actions a ih =>
    -- a line keeps the lead that it has, so only a first cell is new
    have later : ∀ {lead first rest},
        (ofActions actions).lines[n]? = some (.text lead first rest) →
        ∃ past later, actions ++ [a] = past ++ .write first :: later ∧
          (ofActions past).done.length = n ∧ (ofActions past).line = .blank ∧
          lead = (ofActions past).lead := by
      intro lead first rest known
      obtain ⟨past, later, split, here⟩ := ih known
      exact ⟨past, later ++ [a], by rw [split]; simp, here⟩
    rw [ofActions_concat] at known
    cases a with
    | write cell =>
      rw [step, put] at known
      split at known
      · rcases getElem?_concat_cases known with old | ⟨-, blank⟩
        · exact later old
        · cases blank
      · rcases getElem?_concat_cases known with old | ⟨last, new⟩
        · have whole : (ofActions actions).lines[n]? = some (.text lead first rest) :=
            (List.getElem?_append_left (List.getElem?_eq_some_iff.mp old).1).trans old
          exact later whole
        · cases line : (ofActions actions).line with
          | blank =>
            rw [line] at new
            cases new
            exact ⟨actions, [], rfl, last, line, rfl⟩
          | text own head tail =>
            rw [line] at new
            cases new
            have whole : (ofActions actions).lines[n]? = some (.text lead first tail) := by
              rw [lines, line, ← last]
              exact List.getElem?_concat_length
            exact later whole
    | push lead => exact later known
    | pop => exact later known

theorem mem_pushed_of_mem_marks {m : Mark} (mem : m ∈ (ofActions actions).marks) :
    m.lead ∈ Action.pushed actions := by
  induction actions using List.reverseRecOn with
  | nil => cases mem
  | append_singleton actions a ih =>
    rw [ofActions_concat] at mem
    rw [Action.pushed_append]
    cases a with
    | write cell =>
      rw [step, marks_put] at mem
      exact List.mem_append_left _ (ih mem)
    | push lead =>
      rcases List.mem_cons.mp mem with rfl | old
      · exact List.mem_append_right _ (List.mem_singleton.mpr rfl)
      · exact List.mem_append_left _ (ih old)
    | pop => exact List.mem_append_left _ (ih (List.mem_of_mem_tail mem))

theorem splitOn_code
    (inLine : ∀ lead ∈ Action.pushed actions, ∀ isFirst, '\n' ∉ lead.text isFirst) :
    (ofActions actions).code.splitOn (.char '\n') = (ofActions actions).lines.map Line.row := by
  refine List.splitOn_intercalate _ (List.forall_mem_map.mpr fun l mem => ?_) (by simp [lines])
  cases l with
  | blank => exact List.not_mem_nil
  | text lead first rest =>
    obtain ⟨n, known⟩ := List.mem_iff_getElem?.mp mem
    obtain ⟨past, later, split, -, -, rfl⟩ := exists_first known
    intro lineEnd
    rcases List.mem_append.mp lineEnd with inLead | own
    · obtain ⟨c, here, same⟩ := List.mem_map.mp inLead
      obtain ⟨m, mark, char⟩ := List.mem_flatMap.mp here
      have pushed : m.lead ∈ Action.pushed actions := by
        rw [split, Action.pushed_append]
        exact List.mem_append_left _ (mem_pushed_of_mem_marks (List.mem_reverse.mp mark))
      cases same
      exact inLine m.lead pushed _ char
    · exact lineEnd_not_mem_cells actions _ mem own

end Sheet

theorem codeText_intercalate (style : PlaceholderStyle) (sep : List Cell)
    (rows : List (List Cell)) : codeText style (sep.intercalate rows) =
      (codeText style sep).intercalate (rows.map (codeText style)) := by
  induction rows with
  | nil => rfl
  | cons row rows ih =>
    cases rows with
    | nil => simp
    | cons next rows =>
      simp only [List.intercalate_cons_cons, List.map_cons, codeText_append] at ih ⊢
      rw [ih]

/-- The text that a script leads to, line by line. It is the lines of the sheet that the script
draws, with line ends between them, and what is written on the lines by themselves is what the
script writes, cut at its line ends. A line with text begins with the leads that were in force when
its first cell was written. If no lead holds a line end, these are the lines that the text has
outside of literals. -/
theorem lines_of_script {style : PlaceholderStyle} {ops : List BuilderOp} {b : Builder}
    (ran : BuilderOp.runAll (Builder.empty style) ops = (b, .ok ())) :
    let actions := BuilderOp.actionsAll (Builder.empty style) ops
    let lines := (Sheet.ofActions actions).lines
    b.finish.code = [.char '\n'].intercalate (lines.map Sheet.Line.row) ∧
    b.finish.sql = ['\n'].intercalate (lines.map fun l => codeText b.style l.row) ∧
    lines.map Sheet.Line.cells = (Action.written actions).splitOn (.char '\n') ∧
    (∀ n lead first rest, lines[n]? = some (.text lead first rest) →
      ∃ past later, actions = past ++ .write first :: later ∧
        (Sheet.ofActions past).done.length = n ∧ (Sheet.ofActions past).line = .blank ∧
        lead = (Sheet.ofActions past).lead) ∧
    ((∀ lead ∈ Action.pushed actions, ∀ isFirst, '\n' ∉ lead.text isFirst) →
      b.finish.code.splitOn (.char '\n') = lines.map Sheet.Line.row) := by
  intro actions lines
  have code : b.finish.code = (Sheet.ofActions actions).code :=
    ((Sheet.isDrawn_empty style).runAll ops ran).code
  refine ⟨code, ?_, Sheet.map_cells_ofActions actions, fun _ _ _ _ => Sheet.exists_first,
    fun inLine => ?_⟩
  · have sql : b.finish.sql = codeText b.style b.finish.code := rfl
    rw [sql, code, Sheet.code, codeText_intercalate, List.map_map]
    rfl
  · rw [code]
    exact Sheet.splitOn_code inLine

def listSample : List BuilderOp :=
  [.append "SELECT\n", .pushIndent (.firstLine "    ".toList "  , ".toList), .append "a\n\nb",
    .pushIndent (.simple "  ".toList), .appendKept "'\n'", .breakBeforeNext, .appendName ['c']]

theorem lines_of_script_sample :
    let b := (BuilderOp.runAll (Builder.empty .question) listSample).1
    let actions := BuilderOp.actionsAll (Builder.empty .question) listSample
    let lines := (Sheet.ofActions actions).lines
    BuilderOp.runAll (Builder.empty .question) listSample = (b, .ok ()) ∧
    b.finish.sql = "SELECT\n    a\n\n  , b'\n'\n  ,   c".toList ∧
    b.finish.code = [.char '\n'].intercalate (lines.map Sheet.Line.row) ∧
    lines[4]? = some (.text "  ,   ".toList (.char 'c') []) ∧
    (∃ past later, actions = past ++ .write (.char 'c') :: later ∧
      "  ,   ".toList = (Sheet.ofActions past).lead) ∧
    b.finish.code.splitOn (.char '\n') = lines.map Sheet.Line.row := by
  intro b actions lines
  have ran : BuilderOp.runAll (Builder.empty .question) listSample = (b, .ok ()) := Prod.ext rfl rfl
  have last : lines[4]? = some (.text "  ,   ".toList (.char 'c') []) := by decide +kernel
  obtain ⟨code, -, -, first, split⟩ := lines_of_script ran
  obtain ⟨past, later, whole, -, -, lead⟩ := first 4 _ _ _ last
  exact ⟨ran, by decide +kernel, code, last, ⟨past, later, whole, lead⟩, split (by decide +kernel)⟩

def splitLeadSample : Attempt :=
  BuilderOp.runAll (Builder.empty .question)
    [.pushIndent (.firstLine ['\n'] ['>', ' ']), .append ['x']]

/-- The line end in a lead cuts the text as well, and no lead stands behind it. -/
theorem lines_of_script_split_lead :
    splitLeadSample.2 = .ok () ∧
    ¬ ∀ row ∈ splitLeadSample.1.finish.code.splitOn (.char '\n'),
      row = [] ∨ ∃ e ∈ splitLeadSample.1.indents, ∃ isFirst,
        (e.lead.text isFirst).map Cell.char <+: row := by
  refine ⟨rfl, fun all => ?_⟩
  have none : ∀ e ∈ splitLeadSample.1.indents, ∀ isFirst,
      ¬ (e.lead.text isFirst).map Cell.char <+: [.char 'x'] := by decide +kernel
  rcases all [.char 'x'] (by decide +kernel) with empty | ⟨e, mem, isFirst, begins⟩
  · cases empty
  · exact none e mem isFirst begins

end SqlCompose
