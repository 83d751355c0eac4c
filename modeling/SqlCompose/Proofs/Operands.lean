import SqlCompose.Proofs.Lexing.Apart
import SqlCompose.Proofs.Pages.Statements
import SqlCompose.Proofs.Pages.Voices

/-! The operands of a select. A select is written as its clauses one behind the other, and each of
them has items. An item adds at least one token that is not a comment to its line, unless it is
a fragment that has no such token and stands there without an alias. -/

namespace SqlCompose

open Builder

inductive ClauseItem where
  | column (c : SelectColumn)
  | source (s : Source)
  | dual
  | condition (c : Condition)

structure Clause where
  keyword : Text
  lead : Text
  items : List ClauseItem

namespace ClauseItem

variable {scope : Scope} {item : ClauseItem} {raw : RawSql} {lead : Text} {b c : Builder} {n : Nat}

def write (scope : Scope) : ClauseItem → Writer
  | column c => c.write scope
  | source s => fun b => s.write scope b
  | dual => fun b => .ok (b.append dualText)
  | condition c => c.write scope

/-- The fragment that an item is written as, with nothing around it. -/
def fragment? : ClauseItem → Option RawSql
  | column c => c.fragment?
  | source s => s.fragment?
  | dual => none
  | condition c => c.fragment?

/-- Whether an item is a fragment that has no token but comments. -/
def isSilent (item : ClauseItem) : Bool :=
  item.fragment?.any RawSql.isSilent

theorem write_extending (item : ClauseItem) : (item.write scope).Extending := by
  cases item with
  | column c => exact c.write_extending
  | source s => exact fun g => Source.write_extends g
  | dual =>
    intro b c g
    obtain rfl := Except.ok.inj g
    exact (Extends.refl b).append _
  | condition c => exact fun g => Condition.write_extends g

theorem write_of_fragment (same : item.fragment? = some raw) :
    item.write scope = raw.write scope := by
  cases item with
  | column c => exact SelectColumn.write_of_fragment same
  | source s => exact Source.write_of_fragment same
  | dual => cases same
  | condition c => exact Condition.write_of_fragment same

theorem says_write (voiced : scope.renderer.IsVoiced) (other : item.fragment? = none)
    (h : b.Starting) (g : item.write scope b = .ok c) : b.Says c := by
  cases item with
  | column column => exact SelectColumn.says_write voiced other h g
  | source s => exact Source.says_write other h g
  | dual =>
    obtain rfl := Except.ok.inj g
    exact h.says_append (by decide +kernel)
  | condition condition => exact Condition.says_write voiced other h g

theorem exists_own_of_writeItem (voiced : scope.renderer.IsVoiced) (h : b.Starting)
    (g : writeItem lead (Text.spaces n) (item.write scope) b = .ok c) :
    ∃ own, c.cells.toList = b.cells.toList ++
        ((if own = [] then [] else b.lead ++ lead).map Cell.char ++ (own ++ [.char '\n'])) ∧
      (Speaks (codeText .question own ++ ['\n']) ↔ item.isSilent = false) := by
  obtain ⟨d, written, last⟩ := Except.bind_eq_ok_iff.mp g
  obtain rfl := Except.ok.inj last
  obtain ⟨pushed, place⟩ := h.pushIndent (.firstLine lead (Text.spaces n)) ⟨n, rfl⟩
  have place : (b.pushIndent (.firstLine lead (Text.spaces n))).lead = b.lead ++ lead := place
  have line : d.endLine.popIndent.cells.toList = d.cells.toList ++ [.char '\n'] := by
    simp [endLine, popIndent]
  have before : (b.pushIndent (.firstLine lead (Text.spaces n))).cells = b.cells := rfl
  cases known : item.fragment? with
  | none =>
    obtain ⟨own, adds, speaks⟩ := says_write voiced known pushed written
    refine ⟨own, ?_, ?_⟩
    · rw [line, adds.cells, before, place, if_neg adds.some]
      simp
    · simp [isSilent, known, (speaks _ (relaid_codeText own)).append]
  | some raw =>
    rw [write_of_fragment known] at written
    obtain ⟨-, own, cells, lexes⟩ := RawSql.hushed_write pushed written
    refine ⟨own, ?_, ?_⟩
    · rw [line, cells, before, place]
      simp
    · rw [(lexes _ (relaid_codeText own)).speaks_tokens_iff]
      simp [isSilent, known, RawSql.isSilent]

end ClauseItem

namespace Clause

variable {scope : Scope} {clause : Clause} {xs ys : List Clause} {b c : Builder}

def write (scope : Scope) (clause : Clause) : Writer :=
  writeClause scope clause.keyword clause.lead (clause.items.map fun item => item.write scope)

def writeAll (scope : Scope) (b : Builder) : List Clause → Except SqlError Builder
  | [] => .ok b
  | clause :: rest => do writeAll scope (← clause.write scope b) rest

def upTo (clause : Clause) (items : List ClauseItem) : Clause :=
  { clause with items }

/-- What an item is written behind, if these items stand before it. -/
def leadBehind (config : RenderConfig) (clause : Clause) (items : List ClauseItem) : Text :=
  if items.isEmpty then config.indentText else clause.lead

theorem writeAll_append (scope : Scope) (b : Builder) (xs ys : List Clause) :
    writeAll scope b (xs ++ ys) = writeAll scope b xs >>= fun c => writeAll scope c ys := by
  induction xs generalizing b with
  | nil => rfl
  | cons x xs ih => simp only [List.cons_append, writeAll, ih, bind_assoc]

theorem writers_extending (scope : Scope) (items : List ClauseItem) :
    ∀ w ∈ items.map fun item => item.write scope, Writer.Extending w := by
  intro w mem
  obtain ⟨item, -, rfl⟩ := List.mem_map.mp mem
  exact item.write_extending

theorem writeAll_extends (g : writeAll scope b xs = .ok c) : b.Extends c := by
  induction xs generalizing b with
  | nil =>
    obtain rfl := Except.ok.inj g
    exact .refl b
  | cons x xs ih =>
    obtain ⟨d, first, rest⟩ := Except.bind_eq_ok_iff.mp g
    exact (writeClause_extending (writers_extending scope x.items) first).trans (ih rest)

theorem writeAll_split {items : List ClauseItem} {item : ClauseItem} {later : List ClauseItem}
    (split : clause.items = items ++ item :: later)
    (g : writeAll scope b (xs ++ clause :: ys) = .ok c) :
    ∃ before after, writeAll scope b (xs ++ [clause.upTo items]) = .ok before ∧
      writeItem (clause.leadBehind scope.renderer.config items)
        scope.renderer.config.indentText (item.write scope) before = .ok after ∧
      before.Fresh ∧ after.Extends c := by
  rw [writeAll_append] at g
  obtain ⟨d, above, g⟩ := Except.bind_eq_ok_iff.mp g
  obtain ⟨e, here, below⟩ := Except.bind_eq_ok_iff.mp g
  rw [write, split, List.map_append, List.map_cons] at here
  obtain ⟨before, after, first, own, others⟩ := writeClause_split here
  rw [itemLead, List.isEmpty_map] at own
  refine ⟨before, after, ?_, own, fresh_writeClause first, ?_⟩
  · have last := Except.bind_eq_ok_iff.mpr ⟨before, first, rfl⟩
    rw [writeAll_append]
    exact Except.bind_eq_ok_iff.mpr ⟨d, above, last⟩
  · exact (writeItems_extends (writers_extending scope later) others).trans (writeAll_extends below)

end Clause

namespace Select

/-- The clauses of a select. Without sources it reads from the table of one row, and without
conditions that can fail it has no `WHERE` clause. -/
def clauses (config : RenderConfig) (s : Select) : List Clause :=
  let read := if s.sources.isEmpty then [.dual] else s.sources.map .source
  let tests := s.condition.items
  ⟨"SELECT", commaLead config, s.columns.map .column⟩ :: ⟨"FROM", commaLead config, read⟩ ::
    if tests.isEmpty then [] else [⟨"WHERE", andLead config, tests.map .condition⟩]

theorem writers_eq_map (scope : Scope) (sources : List Source) :
    Source.writers scope sources =
      (sources.map ClauseItem.source).map fun item => item.write scope := by
  induction sources with
  | nil => rfl
  | cons s sources ih =>
    rw [Source.writers, ih]
    rfl

theorem write_eq_clauses (scope : Scope) (b : Builder) (s : Select) :
    s.write scope b =
      Clause.writeAll (scope.enter s.sources) b (s.clauses scope.renderer.config) := by
  obtain ⟨columns, sources, condition⟩ := s
  have read : fromItems (Source.writers (scope.enter sources) sources) =
      (if sources.isEmpty then [.dual] else sources.map ClauseItem.source).map
        fun item => item.write (scope.enter sources) := by
    rw [writers_eq_map]
    cases sources <;> rfl
  simp only [Select.write, clauses, Clause.writeAll, read]
  rw [Clause.write, List.map_map]
  refine congrArg _ (funext fun c => congrArg _ (funext fun d => ?_))
  cases condition.items with
  | nil => rfl
  | cons c cs =>
    rw [List.isEmpty_cons, if_neg Bool.false_ne_true, Clause.writeAll, Clause.write, List.map_map]
    exact (bind_pure _).symm

theorem items_ne_nil {config : RenderConfig} {s : Select} (some : s.columns ≠ [])
    {clause : Clause} (mem : clause ∈ s.clauses config) : clause.items ≠ [] := by
  rcases List.mem_cons.mp mem with rfl | mem
  · simpa using some
  · rcases List.mem_cons.mp mem with rfl | mem
    · cases known : s.sources <;> simp
    · cases known : s.condition.items with
      | nil => simp [known] at mem
      | cons c cs =>
        rw [known] at mem
        obtain rfl := List.mem_singleton.mp mem
        simp

theorem columns_ne_nil_of_make {columns : List SelectColumn} {sources : List Source}
    {condition : Condition} {s : Select} (made : make columns sources condition = .ok s) :
    s.columns ≠ [] := by
  simp only [make] at made
  split_ifs at made with none
  split at made
  · cases made
  · split at made
    · cases made
    · obtain rfl := Except.ok.inj made
      simpa using none

end Select

structure Clause.Fits (scope : Scope) (clause : Clause) : Prop where
  word : IsWord clause.keyword
  harmless : (Lead.firstLine clause.lead scope.renderer.config.indentText).Harmless
  apart : Apart clause.lead
  closes : ∀ item ∈ clause.items, Writer.Closes (item.write scope)

namespace Clause

variable {scope : Scope} {clause : Clause} {xs : List Clause} {b c : Builder}

theorem Fits.write_lined (h : clause.Fits scope) (isOpen : b.Open)
    (g : clause.write scope b = .ok c) : c.Lined := by
  refine writeClause_lined h.word h.harmless (fun w mem => ?_) isOpen g
  obtain ⟨item, here, rfl⟩ := List.mem_map.mp mem
  exact h.closes item here

theorem writeAll_open (fits : ∀ x ∈ xs, Fits scope x) (isOpen : b.Open)
    (g : writeAll scope b xs = .ok c) : c.Open := by
  induction xs generalizing b with
  | nil =>
    obtain rfl := Except.ok.inj g
    exact isOpen
  | cons x xs ih =>
    obtain ⟨d, first, rest⟩ := Except.bind_eq_ok_iff.mp g
    obtain ⟨one, others⟩ := List.forall_mem_cons.mp fits
    exact ih others (one.write_lined isOpen first).toOpen rest

theorem writeAll_lined (fits : ∀ x ∈ xs, Fits scope x) (last : clause.Fits scope) (isOpen : b.Open)
    (g : writeAll scope b (xs ++ [clause]) = .ok c) : c.Lined := by
  rw [writeAll_append] at g
  obtain ⟨d, above, g⟩ := Except.bind_eq_ok_iff.mp g
  obtain ⟨e, here, g⟩ := Except.bind_eq_ok_iff.mp g
  obtain rfl := Except.ok.inj g
  exact last.write_lined (writeAll_open fits isOpen above) here

theorem Fits.upTo (h : clause.Fits scope) {items later : List ClauseItem}
    (split : clause.items = items ++ later) : (clause.upTo items).Fits scope :=
  ⟨h.word, h.harmless, h.apart,
    fun item mem => h.closes item (split ▸ List.mem_append_left later mem)⟩

theorem Fits.leadBehind (h : clause.Fits scope) (items : List ClauseItem) :
    Apart (clause.leadBehind scope.renderer.config items) ∧
      (Lead.firstLine (clause.leadBehind scope.renderer.config items)
        scope.renderer.config.indentText).Harmless := by
  rw [Clause.leadBehind]
  split
  · exact ⟨.blanks (isAllBlank_spaces _), harmless_indent _⟩
  · exact ⟨h.apart, h.harmless⟩

end Clause

theorem ClauseItem.dual_closes (scope : Scope) : Writer.Closes (dual.write scope) := by
  intro b c isOpen g
  obtain rfl := Except.ok.inj g
  exact isOpen.append_word ⟨by decide, continues_wording (by decide +kernel)⟩

theorem Select.fits_clauses {scope : Scope} {s : Select}
    (defaults : scope.renderer.HasDefaultTemplates) (inScope : scope.InLine)
    (names : NamesInLine s.names) :
    ∀ clause ∈ s.clauses scope.renderer.config, clause.Fits (scope.enter s.sources) := by
  obtain ⟨columns, sources, condition⟩ := s
  obtain ⟨outer, inCondition⟩ := namesInLine_append.mp names
  obtain ⟨inColumns, inSources⟩ := namesInLine_append.mp outer
  have inside := inScope.enter inSources
  have templates : (scope.enter sources).renderer.HasDefaultTemplates := defaults
  have selectWord : IsWord "SELECT" := ⟨by decide, continues_wording (by decide +kernel)⟩
  have fromWord : IsWord "FROM" := ⟨by decide, continues_wording (by decide +kernel)⟩
  have whereWord : IsWord "WHERE" := ⟨by decide, continues_wording (by decide +kernel)⟩
  have comma : Apart (commaLead scope.renderer.config) :=
    (Apart.blanks (isAllBlank_spaces _)).append apart_comma
  have conjunction : Apart (andLead scope.renderer.config) :=
    apart_and.append (.blanks (isAllBlank_spaces _))
  have columnsClose : ∀ item ∈ columns.map ClauseItem.column,
      Writer.Closes (item.write (scope.enter sources)) := by
    intro item mem
    obtain ⟨c, here, rfl⟩ := List.mem_map.mp mem
    have own : NamesInLine c.names := fun n mem =>
      inColumns n (List.mem_flatMap.mpr ⟨c, here, mem⟩)
    exact SelectColumn.write_closes templates inside c own
  have sourcesClose : ∀ item ∈ if sources.isEmpty then [.dual] else sources.map ClauseItem.source,
      Writer.Closes (item.write (scope.enter sources)) := by
    intro item mem
    split at mem
    · obtain rfl := List.mem_singleton.mp mem
      exact ClauseItem.dual_closes _
    · obtain ⟨s, here, rfl⟩ := List.mem_map.mp mem
      exact Source.write_closes s templates inside (Source.namesInLine_of_mem inSources here)
  have testsClose : ∀ item ∈ condition.items.map ClauseItem.condition,
      Writer.Closes (item.write (scope.enter sources)) := by
    intro item mem
    obtain ⟨c, here, rfl⟩ := List.mem_map.mp mem
    exact fun b b' isOpen g => Condition.write_closed templates inside c
      (Condition.namesInLine_items inCondition here) isOpen g
  intro clause mem
  rcases List.mem_cons.mp mem with rfl | mem
  · exact ⟨selectWord, harmless_comma _, comma, columnsClose⟩
  · rcases List.mem_cons.mp mem with rfl | mem
    · exact ⟨fromWord, harmless_comma _, comma, sourcesClose⟩
    · split at mem
      · cases mem
      · obtain rfl := List.mem_singleton.mp mem
        exact ⟨whereWord, harmless_and _, conjunction, testsClose⟩

section Operand

variable {scope : Scope} {clause : Clause} {xs ys : List Clause} {items later : List ClauseItem}
  {item : ClauseItem} {b c : Builder}

theorem Clause.exists_own_of_writeAll (voiced : scope.renderer.IsVoiced) (starting : b.Starting)
    (outermost : b.indents = []) (split : clause.items = items ++ item :: later)
    (g : writeAll scope b (xs ++ clause :: ys) = .ok c) :
    ∃ (before after : Builder) (own : List Cell),
      writeAll scope b (xs ++ [clause.upTo items]) = .ok before ∧
      writeItem (clause.leadBehind scope.renderer.config items) scope.renderer.config.indentText
        (item.write scope) before = .ok after ∧
      after.Extends c ∧
      after.cells.toList = before.cells.toList ++
        (if own = [] then [] else clause.leadBehind scope.renderer.config items).map Cell.char ++
          own ++ [.char '\n'] ∧
      (Speaks (codeText .question own ++ ['\n']) ↔ item.isSilent = false) := by
  obtain ⟨before, after, above, here, fresh, more⟩ := writeAll_split split g
  have opened := writeAll_extends above
  have margin : before.lead = [] := by
    have none : before.indents = [] := by simpa [outermost] using opened.indents
    rw [Builder.lead, none]
    rfl
  obtain ⟨own, cells, speaks⟩ := ClauseItem.exists_own_of_writeItem voiced
    ⟨fresh, starting.later.extends opened⟩ here
  refine ⟨before, after, own, above, here, more, ?_, speaks⟩
  rw [cells, margin, List.nil_append, List.append_assoc, List.append_assoc]

theorem Builder.Lined.exists_pieced {before after : Builder} {lead : Text} {own back : List Cell}
    (above : before.Lined) (here : after.Lined) (whole : c.Open) (apart : Apart lead)
    (cells : after.cells.toList =
      before.cells.toList ++ lead.map Cell.char ++ own ++ [.char '\n'])
    (code : c.cells.toList = after.cells.toList ++ back) :
    ∃ ts ls us vs,
      Pieced (codeText .question before.cells.toList) lead (codeText .question own)
        (codeText .question c.cells.toList) ts ls us vs ∧
      Lexes (codeText .question own) (us.map Token.shape) := by
  obtain ⟨d, closed, line⟩ := above.line
  obtain ⟨e, done, last⟩ := here.line
  obtain ⟨_, lexes, -⟩ := closed.marks
  obtain ⟨_, lexes', -⟩ := done.marks
  obtain ⟨_, lexes'', -⟩ := (Closed.opened whole).marks
  have text : codeText .question before.cells.toList =
      codeText .question d.cells.toList ++ ['\n'] := by
    rw [line, codeText_append]
    rfl
  have upTo : e.cells.toList = before.cells.toList ++ lead.map Cell.char ++ own :=
    List.append_cancel_right (last.symm.trans cells)
  have all : c.cells.toList =
      before.cells.toList ++ lead.map Cell.char ++ own ++ .char '\n' :: back := by
    rw [code, cells, List.append_assoc _ [_] back]
    rfl
  have lineEnd : codeText .question (.char '\n' :: back) = '\n' :: codeText .question back := rfl
  rw [upTo] at lexes'
  rw [all] at lexes'' ⊢
  simp only [codeText_append, codeText_chars, lineEnd] at lexes' lexes'' ⊢
  exact (text ▸ Apart.line lexes).exists_pieced apart lexes' lexes''

theorem Clause.exists_pieced_of_writeAll {before after : Builder} {own back : List Cell}
    (fits : ∀ x ∈ xs ++ clause :: ys, Fits scope x) (isOpen : b.Open)
    (split : clause.items = items ++ item :: later)
    (written : writeAll scope b (xs ++ clause :: ys) = .ok c)
    (above : writeAll scope b (xs ++ [clause.upTo items]) = .ok before)
    (here : writeItem (clause.leadBehind scope.renderer.config items)
      scope.renderer.config.indentText (item.write scope) before = .ok after)
    (cells : after.cells.toList = before.cells.toList ++
      (if own = [] then [] else clause.leadBehind scope.renderer.config items).map Cell.char ++
        own ++ [.char '\n'])
    (code : c.cells.toList = after.cells.toList ++ back) :
    ∃ ts ls us vs,
      Pieced (codeText .question before.cells.toList)
        (if own = [] then [] else clause.leadBehind scope.renderer.config items)
        (codeText .question own) (codeText .question c.cells.toList) ts ls us vs ∧
      Lexes (codeText .question own) (us.map Token.shape) := by
  obtain ⟨others, behind⟩ := List.forall_mem_append.mp fits
  obtain ⟨fit, -⟩ := List.forall_mem_cons.mp behind
  obtain ⟨apart, harmless⟩ := fit.leadBehind items
  have lined := writeAll_lined others (fit.upTo split) isOpen above
  have closes := fit.closes item (by simp [split])
  have next := writeItem_lined harmless closes lined.toOpen here
  refine lined.exists_pieced next (writeAll_open fits isOpen written) ?_ cells code
  split
  · exact .nil
  · exact apart

end Operand

/-- Every clause of a select has items, and each item begins its line behind its lead. On that line
stands a token other than a comment, unless the item is a fragment that has none and stands there
with nothing around it. With the default templates, and question marks for placeholders, the whole
statement splits into tokens if no quoted name breaks a line, and those of the item are among them. -/
theorem Renderer.render_operands {r : Renderer} (voiced : r.IsVoiced)
    {columns : List SelectColumn} {sources : List Source} {condition : Condition} {s : Select}
    (made : Select.make columns sources condition = .ok s) {stmt : Statement}
    (rendered : r.render s = .ok stmt) {above below : List Clause} {clause : Clause}
    (split : s.clauses r.config = above ++ clause :: below) :
    clause.items ≠ [] ∧
    ∀ (items : List ClauseItem) (item : ClauseItem) (later : List ClauseItem),
      clause.items = items ++ item :: later →
      ∃ (before after : Builder) (lead : Text) (own back : List Cell),
        Clause.writeAll ((Scope.outermost r).enter s.sources) (.empty r.config.placeholder)
          (above ++ [clause.upTo items]) = .ok before ∧
        writeItem (clause.leadBehind r.config items) r.config.indentText
          (item.write ((Scope.outermost r).enter s.sources)) before = .ok after ∧
        lead = (if own = [] then [] else clause.leadBehind r.config items) ∧
        after.cells.toList = before.cells.toList ++ lead.map Cell.char ++ own ++ [.char '\n'] ∧
        stmt.code = after.cells.toList ++ back ∧
        (Speaks (codeText .question own ++ ['\n']) ↔ item.isSilent = false) ∧
        (r.HasDefaultTemplates → r.config.placeholder = .question →
          (∀ text printable, .quoted text printable ∈ s.names → '\n' ∉ text) →
          ∃ ts ls us vs,
            Pieced (codeText .question before.cells.toList) lead (codeText .question own) stmt.sql
              ts ls us vs ∧
            ((∃ t ∈ us, t.kind ≠ .comment) ↔ item.isSilent = false)) := by
  have mem : clause ∈ s.clauses r.config := by simp [split]
  refine ⟨Select.items_ne_nil (Select.columns_ne_nil_of_make made) mem, ?_⟩
  intro items item later here
  obtain ⟨b', written, last⟩ := Except.bind_eq_ok_iff.mp rendered
  obtain rfl := Except.ok.inj last
  have clauses : s.clauses (Scope.outermost r).renderer.config = above ++ clause :: below := split
  have written := (Select.write_eq_clauses (.outermost r) _ s).symm.trans written
  rw [clauses] at written
  obtain ⟨before, after, own, first, alone, more, cells, speaks⟩ :=
    Clause.exists_own_of_writeAll voiced (starting_empty _) rfl here written
  obtain ⟨back, rest⟩ := more.text
  have code : b'.cells.toList = after.cells.toList ++ back := rest.symm
  refine ⟨before, after, _, own, back, first, alone, rfl, cells, code, speaks, ?_⟩
  intro defaults question quoted
  rw [question] at first written
  have names : NamesInLine s.names := Query.namesInLine_of_quoted quoted
  have inScope : (Scope.outermost r).InLine := fun _ none => absurd none List.not_mem_nil
  have templates : (Scope.outermost r).renderer.HasDefaultTemplates := defaults
  have fits := Select.fits_clauses templates inScope names
  rw [clauses] at fits
  obtain ⟨ts, ls, us, vs, pieced, lexes⟩ := Clause.exists_pieced_of_writeAll fits
    Builder.open_empty here written first alone cells code
  have isOpen := Clause.writeAll_open fits Builder.open_empty written
  have sql : b'.finish.sql = codeText .question b'.cells.toList := by
    rw [Statement.sql, Builder.finish, isOpen.style]
  refine ⟨ts, ls, us, vs, sql ▸ pieced, ?_⟩
  rw [← speaks, lexes.speaks_tokens_iff]

def silentSample : RawSql :=
  { body := .ofNormal "-- nothing" (scan "-- nothing").tokens
    binds := []
    isRead := ⟨1, "-- nothing", by decide +kernel⟩
    isBound := by decide +kernel }

def silentSelect : Select :=
  ⟨guardedColumns, guardedSources, .raw silentSample⟩

theorem sql_silentSelect : (Renderer.defaults.render silentSelect).map (·.sql) =
    .ok "SELECT\n    o.id\nFROM\n    orders o\nWHERE\n    -- nothing\n" := by
  decide +kernel

/-- The condition of the `WHERE` clause is a comment, and adds no other token. -/
theorem Renderer.render_operands_sample :
    ∃ (before : Builder) (lead : Text) (own : List Cell) (ts ls us vs : List Token),
      Pieced (codeText .question before.cells.toList) lead (codeText .question own)
        "SELECT\n    o.id\nFROM\n    orders o\nWHERE\n    -- nothing\n" ts ls us vs ∧
      ¬ Speaks (codeText .question own ++ ['\n']) ∧ ∀ t ∈ us, t.kind = .comment := by
  have rendered := sql_silentSelect
  cases known : Renderer.defaults.render silentSelect with
  | error e =>
    rw [known] at rendered
    cases rendered
  | ok stmt =>
    rw [known] at rendered
    have sql := Except.ok.inj rendered
    have defaults : Renderer.defaults.HasDefaultTemplates := ⟨fun _ => rfl, fun _ => rfl⟩
    have made : Select.make guardedColumns guardedSources (.raw silentSample) =
        .ok silentSelect := rfl
    have split : silentSelect.clauses Renderer.defaults.config =
        (silentSelect.clauses Renderer.defaults.config).take 2 ++
          ⟨"WHERE", "AND ", [.condition (.raw silentSample)]⟩ :: [] := rfl
    have silent : (ClauseItem.condition (.raw silentSample)).isSilent = true := by decide +kernel
    obtain ⟨-, operands⟩ := Renderer.render_operands defaults.isVoiced made known split
    obtain ⟨before, -, lead, own, -, -, -, -, -, -, speaks, tokens⟩ := operands [] _ [] rfl
    have quoted : ∀ s printable, .quoted s printable ∈ silentSelect.names → '\n' ∉ s := by
      intro s printable mem
      rcases List.mem_cons.mp mem with same | mem
      · cases same
      · rcases List.mem_cons.mp mem with same | mem
        · cases same
        · cases List.mem_singleton.mp mem
    obtain ⟨ts, ls, us, vs, pieced, said⟩ := tokens defaults rfl quoted
    rw [silent] at speaks said
    exact ⟨before, lead, own, ts, ls, us, vs, sql ▸ pieced, by simpa using speaks,
      by simpa using said⟩

end SqlCompose
