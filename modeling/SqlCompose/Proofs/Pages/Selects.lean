import SqlCompose.Proofs.Pages.Expressions

/-! Selects on a page. An item of a clause stands on lines of its own, so a clause leaves an open
builder open; a select in parentheses is embedded where a word can be written. -/

namespace SqlCompose

def SelectColumn.names (c : SelectColumn) : List SimpleName :=
  c.expr.names ++ c.aliasName.toList

mutual

def Source.names : Source → List SimpleName
  | .table name aliasName => name.segments ++ aliasName.toList
  | .subselect select aliasName => select.names ++ [aliasName]
  | .raw _ aliasName => aliasName.toList

def Source.namesOfAll : List Source → List SimpleName
  | [] => []
  | s :: rest => s.names ++ Source.namesOfAll rest

def Select.names : Select → List SimpleName
  | ⟨columns, sources, condition⟩ =>
    columns.flatMap SelectColumn.names ++ Source.namesOfAll sources ++ condition.names

end

theorem Source.namesInLine_of_mem {s : Source} {ss : List Source}
    (names : NamesInLine (Source.namesOfAll ss)) (mem : s ∈ ss) : NamesInLine s.names := by
  induction ss with
  | nil => cases mem
  | cons t ss ih =>
    obtain ⟨own, later⟩ := namesInLine_append.mp names
    rcases List.mem_cons.mp mem with rfl | mem
    · exact own
    · exact ih later mem

theorem Source.inLine_qualifier {s : Source} {q : NamePath} (names : NamesInLine s.names)
    (h : q ∈ s.qualifier) : NamesInLine q.segments := by
  have ofAlias : ∀ a : SimpleName, '\n' ∉ a.text → NamesInLine (NamePath.ofSimple a).segments := by
    intro a inLine n mem
    obtain rfl := List.mem_singleton.mp mem
    exact inLine
  cases s with
  | table name aliasName =>
    obtain ⟨own, renamed⟩ := namesInLine_append.mp names
    cases aliasName with
    | none =>
      obtain rfl := Option.some.inj h
      exact own
    | some a =>
      obtain rfl := Option.some.inj h
      exact ofAlias a (renamed a (by simp))
  | subselect select aliasName =>
    obtain ⟨-, renamed⟩ := namesInLine_append.mp names
    obtain rfl := Option.some.inj h
    exact ofAlias aliasName (renamed aliasName (by simp))
  | raw sql aliasName =>
    cases aliasName with
    | none => cases h
    | some a =>
      have renamed : NamesInLine [a] := names
      obtain rfl := Option.some.inj h
      exact ofAlias a (renamed a (by simp))

theorem Scope.InLine.enter {scope : Scope} {sources : List Source} (inScope : scope.InLine)
    (names : NamesInLine (Source.namesOfAll sources)) : (scope.enter sources).InLine := by
  intro s mem q qualified
  rw [Scope.enter, List.flatten_cons, List.mem_append] at mem
  rcases mem with inner | outer
  · exact Source.inLine_qualifier (Source.namesInLine_of_mem names inner) qualified
  · exact inScope s outer q qualified

namespace Condition

theorem namesInLine_of_mem {c : Condition} {cs : List Condition}
    (names : NamesInLine (namesOfAll cs)) (mem : c ∈ cs) : NamesInLine c.names := by
  induction cs with
  | nil => cases mem
  | cons d cs ih =>
    obtain ⟨own, later⟩ := namesInLine_append.mp names
    rcases List.mem_cons.mp mem with rfl | mem
    · exact own
    · exact ih later mem

theorem namesInLine_items {c item : Condition} (names : NamesInLine c.names)
    (mem : item ∈ c.items) : NamesInLine item.names := by
  have ofLive : ∀ cs, NamesInLine (namesOfAll cs) → item ∈ live cs → NamesInLine item.names :=
    fun cs all found => namesInLine_of_mem all (List.mem_filter.mp found).1
  cases c with
  | and cs => exact ofLive cs names mem
  | compare | isNull | or | not | raw | empty =>
    refine ofLive [_] ?_ mem
    simpa [namesOfAll] using names

end Condition

theorem continues_spaces (n : Nat) : Continues (Text.spaces n) 0 .anything :=
  continues_blanks (isAllBlank_spaces n)

theorem harmless_spaces (n : Nat) : (Lead.spaces n).Harmless := by
  refine ⟨⟨n, Lead.text_spaces false n⟩, ?_, ?_⟩
  · rw [Lead.text_spaces]
    exact inLine_spaces n
  · rw [Lead.text_spaces]
    exact continues_spaces n

theorem harmless_firstLine {first : Text} (n : Nat) (inLine : '\n' ∉ first)
    (continues : Continues first 0 .anything) : (Lead.firstLine first (Text.spaces n)).Harmless :=
  ⟨⟨n, rfl⟩, inLine, continues⟩

theorem harmless_indent (c : RenderConfig) :
    (Lead.firstLine c.indentText c.indentText).Harmless :=
  harmless_firstLine c.indent (inLine_spaces c.indent) (continues_spaces c.indent)

theorem harmless_comma (c : RenderConfig) :
    (Lead.firstLine (commaLead c) c.indentText).Harmless := by
  refine harmless_firstLine c.indent ?_ ?_
  · rw [commaLead, List.mem_append, not_or]
    exact ⟨inLine_spaces _, by decide⟩
  · have comma : Continues ", " 0 .anything := continues_separator (by decide +kernel)
    exact (continues_spaces _).anything_append comma

theorem harmless_and (c : RenderConfig) :
    (Lead.firstLine (andLead c) c.indentText).Harmless := by
  refine harmless_firstLine c.indent ?_ ?_
  · rw [andLead, Text.padRight, List.mem_append, not_or]
    exact ⟨by decide, inLine_spaces _⟩
  · have word : Continues "AND " 0 .anything := continues_separator (by decide +kernel)
    exact word.anything_append (continues_spaces _)

def Writer.Closes (w : Writer) : Prop :=
  ∀ b b' : Builder, b.Open → w b = .ok b' → b'.Closed

section Clause

variable {scope : Scope} {b b' : Builder} {lead rest : Text} {item : Writer} {items : List Writer}

structure Builder.Lined (b : Builder) : Prop extends b.Open where
  line : ∃ d : Builder, d.Closed ∧ b.cells.toList = d.cells.toList ++ [.char '\n']

theorem Builder.Closed.lined (h : b.Closed) : b.endLine.Lined :=
  ⟨h.endLine, b, h, Array.toList_push⟩

theorem writeItem_lined (harmless : (Lead.firstLine lead rest).Harmless) (closes : item.Closes)
    (h : b.Open) (g : writeItem lead rest item b = .ok b') : b'.Lined := by
  obtain ⟨c, written, last⟩ := Except.bind_eq_ok_iff.mp g
  obtain rfl := Except.ok.inj last
  have lined := (closes _ c (h.pushIndent harmless) written).lined
  exact ⟨lined.toOpen.popIndent, lined.line⟩

theorem writeItems_lined (harmless : (Lead.firstLine lead rest).Harmless)
    (closes : ∀ w ∈ items, Writer.Closes w) (h : b.Lined)
    (g : writeItems lead rest b items = .ok b') : b'.Lined := by
  induction items generalizing b with
  | nil =>
    obtain rfl := Except.ok.inj g
    exact h
  | cons item items ih =>
    obtain ⟨c, written, others⟩ := Except.bind_eq_ok_iff.mp g
    obtain ⟨one, later⟩ := List.forall_mem_cons.mp closes
    exact ih later (writeItem_lined harmless one h.toOpen written) others

theorem writeClause_lined {keyword : Text} (word : IsWord keyword)
    (harmless : (Lead.firstLine lead scope.renderer.config.indentText).Harmless)
    (closes : ∀ w ∈ items, Writer.Closes w) (h : b.Open)
    (g : writeClause scope keyword lead items b = .ok b') : b'.Lined := by
  have headed := (h.append_word word).lined
  cases items with
  | nil =>
    obtain rfl := Except.ok.inj g
    exact headed
  | cons item items =>
    obtain ⟨c, written, others⟩ := Except.bind_eq_ok_iff.mp g
    obtain ⟨one, later⟩ := List.forall_mem_cons.mp closes
    have first := writeItem_lined (harmless_indent scope.renderer.config) one headed.toOpen written
    exact writeItems_lined harmless later first others

theorem fromItems_closes (closes : ∀ w ∈ items, Writer.Closes w) :
    ∀ w ∈ fromItems items, Writer.Closes w := by
  cases items with
  | nil =>
    intro w mem b b' h g
    obtain rfl := List.mem_singleton.mp mem
    obtain rfl := Except.ok.inj g
    exact h.append_word ⟨by decide, continues_wording (by decide +kernel)⟩
  | cons item items => exact closes

theorem Builder.Closed.writeAlias (h : b.Closed) {a : Option SimpleName}
    (names : NamesInLine a.toList) : (writeAlias b a).Closed := by
  cases a with
  | none => exact h
  | some a =>
    have spaced : (b.append [' ']).Open :=
      h.append_separator (by decide) (by decide) (by decide +kernel)
    exact spaced.append_word (SimpleName.isWord_sql (names a (by simp)))

end Clause

theorem SelectColumn.write_closes {scope : Scope}
    (defaults : scope.renderer.HasDefaultTemplates) (inScope : scope.InLine) (c : SelectColumn)
    (names : NamesInLine c.names) : Writer.Closes (c.write scope) := by
  intro b b' h g
  obtain ⟨own, renamed⟩ := namesInLine_append.mp names
  obtain ⟨d, written, last⟩ := Except.bind_eq_ok_iff.mp g
  obtain rfl := Except.ok.inj last
  exact (Expr.write_closed defaults inScope c.expr own h written).writeAlias renamed

theorem whereClause_open {scope : Scope} (defaults : scope.renderer.HasDefaultTemplates)
    (inScope : scope.InLine) {items : List Condition} {b b' : Builder} (h : b.Open)
    (g : (match items with
        | [] => .ok b
        | items => writeClause scope "WHERE" (andLead scope.renderer.config)
          (items.map fun c => c.write scope) b : Except SqlError Builder) = .ok b')
    (names : ∀ c ∈ items, NamesInLine c.names) : b'.Open := by
  cases items with
  | nil =>
    obtain rfl := Except.ok.inj g
    exact h
  | cons c cs =>
    have word : IsWord "WHERE" := ⟨by decide, continues_wording (by decide +kernel)⟩
    refine (writeClause_lined word (harmless_and _) (fun w mem => ?_) h g).toOpen
    obtain ⟨c, found, rfl⟩ := List.mem_map.mp mem
    intro b b' h g
    exact Condition.write_closed defaults inScope c (names c found) h g

mutual

theorem Source.write_closes (s : Source) {scope : Scope}
    (defaults : scope.renderer.HasDefaultTemplates) (inScope : scope.InLine)
    (names : NamesInLine s.names) : Writer.Closes (fun b => s.write scope b) := by
  intro b b' h g
  cases s with
  | table name aliasName =>
    obtain ⟨own, renamed⟩ := namesInLine_append.mp names
    obtain rfl := Except.ok.inj g
    exact (h.appendName (NamePath.isWord_sql own)).writeAlias renamed
  | subselect select aliasName =>
    obtain ⟨own, renamed⟩ := namesInLine_append.mp names
    obtain ⟨inner, written, g⟩ := Except.bind_eq_ok_iff.mp g
    obtain ⟨c, embedded, g⟩ := Except.bind_eq_ok_iff.mp g
    obtain rfl := Except.ok.inj g
    have fresh : b.sibling.Open := by
      rw [Builder.sibling, h.style]
      exact Builder.open_empty
    have done := Select.write_open select defaults inScope own fresh written
    have opened := h.append_separator (s := ['(']) (by decide) (by decide +kernel)
    have indented := (Builder.Closed.opened opened).endLine.pushIndent
      (harmless_spaces scope.renderer.config.indent)
    have whole := indented.embed (.opened done) (Attempt.toExcept_eq_ok_iff.mp embedded)
    exact (Builder.Closed.opened whole.popIndent.append_closing).writeAlias renamed
  | raw sql aliasName =>
    obtain ⟨c, written, g⟩ := Except.bind_eq_ok_iff.mp g
    obtain rfl := Except.ok.inj g
    exact (h.writeRaw written).writeAlias names

theorem Source.writers_close (ss : List Source) {scope : Scope}
    (defaults : scope.renderer.HasDefaultTemplates) (inScope : scope.InLine)
    (names : NamesInLine (Source.namesOfAll ss)) :
    ∀ w ∈ Source.writers scope ss, Writer.Closes w := by
  cases ss with
  | nil => simp [Source.writers]
  | cons s ss =>
    obtain ⟨own, later⟩ := namesInLine_append.mp names
    have rest := Source.writers_close ss defaults inScope later
    exact List.forall_mem_cons.mpr ⟨Source.write_closes s defaults inScope own, rest⟩

theorem Select.write_open (s : Select) {scope : Scope}
    (defaults : scope.renderer.HasDefaultTemplates) (inScope : scope.InLine)
    (names : NamesInLine s.names) {b b' : Builder} (h : b.Open)
    (g : s.write scope b = .ok b') : b'.Open := by
  obtain ⟨columns, sources, condition⟩ := s
  obtain ⟨outer, inCondition⟩ := namesInLine_append.mp names
  obtain ⟨inColumns, inSources⟩ := namesInLine_append.mp outer
  have inside := inScope.enter inSources
  have templates : (scope.enter sources).renderer.HasDefaultTemplates := defaults
  obtain ⟨c, selected, g⟩ := Except.bind_eq_ok_iff.mp g
  obtain ⟨d, read, g⟩ := Except.bind_eq_ok_iff.mp g
  have selectWord : IsWord "SELECT" := ⟨by decide, continues_wording (by decide +kernel)⟩
  have fromWord : IsWord "FROM" := ⟨by decide, continues_wording (by decide +kernel)⟩
  have columnClause : c.Open := by
    refine (writeClause_lined selectWord (harmless_comma _) (fun w mem => ?_) h selected).toOpen
    obtain ⟨column, found, rfl⟩ := List.mem_map.mp mem
    have own : NamesInLine column.names := fun n mem =>
      inColumns n (List.mem_flatMap.mpr ⟨column, found, mem⟩)
    exact SelectColumn.write_closes templates inside column own
  have sourceClause : d.Open := by
    have closes := fromItems_closes (Source.writers_close sources templates inside inSources)
    exact (writeClause_lined fromWord (harmless_comma _) closes columnClause read).toOpen
  exact whereClause_open templates inside sourceClause g
    fun item mem => Condition.namesInLine_items inCondition mem

end

end SqlCompose
