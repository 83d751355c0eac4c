import SqlCompose.Proofs.Pages.Indented
import SqlCompose.Proofs.Reading

/-! Fragments in `WHERE` lists. Items that are conditions of other kinds stand in parentheses
where their connectives would mix with the `AND` between items. A fragment is written as it is: the
text of its item has the tokens of the fragment behind the `AND`, and no parentheses of its own. So
an `OR` outside of the parentheses of the fragment takes the items before it out of the
conjunction. -/

namespace SqlCompose

open Builder Condition

section Clause

variable {scope : Scope} {keyword lead rest : Text} {item : Writer} {xs ys : List Writer}
  {b c d : Builder}

theorem writeItems_append (lead rest : Text) (b : Builder) (xs ys : List Writer) :
    writeItems lead rest b (xs ++ ys) =
      writeItems lead rest b xs >>= fun c => writeItems lead rest c ys := by
  induction xs generalizing b with
  | nil => rfl
  | cons x xs ih => simp only [List.cons_append, writeItems, ih, bind_assoc]

def itemLead (scope : Scope) (lead : Text) (before : List Writer) : Text :=
  if before.isEmpty then scope.renderer.config.indentText else lead

theorem writeClause_split
    (g : writeClause scope keyword lead (xs ++ item :: ys) b = .ok d) :
    ∃ c e : Builder, writeClause scope keyword lead xs b = .ok c ∧
      writeItem (itemLead scope lead xs) scope.renderer.config.indentText item c = .ok e ∧
      writeItems lead scope.renderer.config.indentText e ys = .ok d := by
  cases xs with
  | nil =>
    obtain ⟨e, written, others⟩ := Except.bind_eq_ok_iff.mp g
    exact ⟨_, e, rfl, written, others⟩
  | cons x xs =>
    obtain ⟨f, first, others⟩ := Except.bind_eq_ok_iff.mp g
    have all : writeItems lead scope.renderer.config.indentText f (xs ++ item :: ys) = .ok d :=
      others
    rw [writeItems_append] at all
    obtain ⟨c, before, others⟩ := Except.bind_eq_ok_iff.mp all
    obtain ⟨e, written, behind⟩ := Except.bind_eq_ok_iff.mp others
    exact ⟨c, e, Except.bind_eq_ok_iff.mpr ⟨f, first, before⟩, written, behind⟩

structure Builder.Fresh (b : Builder) : Prop where
  start : b.atLineStart = true
  settled : b.pendingBreak = false

theorem fresh_writeItem (g : writeItem lead rest item b = .ok c) : c.Fresh := by
  obtain ⟨d, -, last⟩ := Except.bind_eq_ok_iff.mp g
  obtain rfl := Except.ok.inj last
  exact ⟨rfl, rfl⟩

theorem fresh_writeItems (h : b.Fresh) (g : writeItems lead rest b xs = .ok c) : c.Fresh := by
  induction xs generalizing b with
  | nil =>
    obtain rfl := Except.ok.inj g
    exact h
  | cons x xs ih =>
    obtain ⟨d, first, others⟩ := Except.bind_eq_ok_iff.mp g
    exact ih (fresh_writeItem first) others

theorem fresh_writeClause (g : writeClause scope keyword lead xs b = .ok c) : c.Fresh := by
  cases xs with
  | nil =>
    obtain rfl := Except.ok.inj g
    exact ⟨rfl, rfl⟩
  | cons x xs =>
    obtain ⟨d, first, others⟩ := Except.bind_eq_ok_iff.mp g
    exact fresh_writeItems (fresh_writeItem first) others

end Clause

theorem Condition.write_raw (scope : Scope) (raw : RawSql) :
    (Condition.raw raw).write scope = raw.write scope := by
  funext b
  simp only [Condition.write, pieces, Piece.writeAll, Piece.write]
  cases raw.write scope b <;> rfl

theorem front_item {b : Builder} (fresh : b.Fresh) (lead rest : Text) :
    ((b.pushIndent (.firstLine lead rest)).pushIndent (wrapLead 0)).front = b.lead ++ lead := by
  simp [front, pushIndent, Builder.lead, fresh.start, fresh.settled, wrapLead, Lead.text]

theorem laterSpaced_item {b : Builder} (h : b.LaterSpaced) (lead : Text) (n : Nat) :
    ((b.pushIndent (.firstLine lead (Text.spaces n))).pushIndent (wrapLead 0)).LaterSpaced := by
  intro l mem
  rcases List.mem_cons.mp mem with rfl | mem
  · exact ⟨1, rfl⟩
  · rcases List.mem_cons.mp mem with rfl | outer
    · exact ⟨n, rfl⟩
    · exact h l outer

theorem RawSql.exists_added_of_writeItem {limit : Nat} {sql lead : Text} {raw : RawSql}
    {ts : List Token} {scope : Scope} {b c : Builder} {n : Nat}
    (read : RawText.read limit sql = .ok raw.body) (split : tokenize limit sql = .ok ts)
    (some : ts ≠ []) (fresh : b.Fresh) (indented : b.Indented)
    (g : writeItem lead (Text.spaces n) (raw.write scope) b = .ok c) :
    ∃ (added : List Cell) (m : Nat) (t : Text),
      c.cells.toList = b.cells.toList ++ (added ++ [.char '\n']) ∧
      codeText .question added = Text.spaces m ++ (lead ++ t) ∧
      Lexes t (ts.map Token.shape) := by
  obtain ⟨d, written, last⟩ := Except.bind_eq_ok_iff.mp g
  obtain rfl := Except.ok.inj last
  obtain ⟨row, e, same, -, copied, cells⟩ := RawSql.exists_copies_of_write written
  obtain ⟨us, split', lexes, visible, -⟩ := RawText.tokens_read read
  obtain rfl : ts = us := Except.ok.inj (split.symm.trans split')
  have inLine := inLine_of_unnumbered same visible
  have lays := ((laterSpaced_item indented.later lead n).copies fresh.start 0
    inLine).lays.of_unnumbered same
  obtain ⟨added, t, behind, text, found⟩ := lays.lexes (RawText.tidy_read read).1 lexes
  obtain ⟨m, margin⟩ := indented.lead
  refine ⟨added, m, t, ?_, ?_, found⟩
  · have line : d.endLine.popIndent.cells = d.cells.push (.char '\n') := rfl
    rw [line, cells, copied, Array.toList_push, behind, List.append_assoc]
    rfl
  · cases cut : raw.body.cells with
    | nil =>
      rw [cut] at lexes
      cases ts with
      | nil => exact absurd rfl some
      | cons t ts => cases lexes
    | cons cell cells =>
      have first : cell ≠ .char '\n' := visible cell (by rw [cut]; rfl)
      rw [text, cut, frontOf, if_neg first, front_item fresh, margin, List.append_assoc]

theorem lexes_and {o : List TokenShape} (c : RenderConfig) {t : Text} (h : Lexes t o) :
    Lexes (andLead c ++ t) ((.name, "AND".toList) :: o) := by
  have text :
      andLead c ++ t = 'A' :: ("ND".toList ++ ' ' :: (Text.spaces (c.indent - 4) ++ t)) := by
    rw [andLead, Text.padRight]
    simp
  have name : Lexeme.Reads 'A' ("ND".toList ++ ' ' :: (Text.spaces (c.indent - 4) ++ t)) .name 2 :=
    reads_name (by decide) (by decide) (by simp; decide)
  have rest : Lexes (' ' :: (Text.spaces (c.indent - 4) ++ t)) o := by
    refine .blank (by decide) ?_
    rw [Lexes.append_blanks_iff (isAllBlank_spaces _)]
    exact h
  rw [text]
  exact .token (by decide) name rest

theorem lexes_itemLead {o : List TokenShape} (scope : Scope) (before : List Writer) {t : Text}
    (h : Lexes t o) : Lexes (itemLead scope (andLead scope.renderer.config) before ++ t)
      ((if before.isEmpty then [] else [(.name, "AND".toList)]) ++ o) := by
  rw [itemLead]
  split
  · exact (Lexes.append_blanks_iff (isAllBlank_spaces _)).mpr h
  · exact lexes_and _ h

theorem significant_of_shapes {ts us : List Token} {o : List TokenShape}
    (h : us.map Token.shape = o ++ ts.map Token.shape) :
    significant us = (o.filter fun s => s.1 ≠ .comment) ++ significant ts := by
  rw [significant_eq, h, List.filter_append, ← significant_eq]

theorem pieces_and_raw {cs pre post : List Condition} {raw : RawSql}
    (children : live cs = pre ++ .raw raw :: post) (several : pre ++ post ≠ []) :
    (Condition.and cs).pieces =
      .opening :: joined .and (pre.map pieces ++ [.raw raw] :: post.map pieces) ++ [.closing] := by
  have some : ¬ allEmpty cs = true := by
    intro none
    have all : live cs = [] := by simpa [allEmpty_eq, live, List.filter_eq_nil_iff] using none
    rw [all] at children
    simp at children
  have rows : (live cs).map pieces = pre.map pieces ++ [.raw raw] :: post.map pieces := by
    rw [children, List.map_append, List.map_cons]
    rfl
  rw [pieces, if_neg some, livePieces_eq, rows]
  cases pre with
  | cons c pre =>
    cases pre with
    | nil => exact group_eq_joined .and _ _ _
    | cons d pre => exact group_eq_joined .and _ _ _
  | nil =>
    cases post with
    | nil => exact absurd rfl several
    | cons c post => exact group_eq_joined .and _ _ _

theorem Select.exists_line_of_raw {limit : Nat} {sql : Text} {raw : RawSql} {ts : List Token}
    (read : RawText.read limit sql = .ok raw.body) (split : tokenize limit sql = .ok ts)
    (some : ts ≠ []) {scope : Scope} {b b' : Builder} (indented : b.Indented)
    {columns : List SelectColumn} {sources : List Source} {condition : Condition}
    {pre post : List Condition} (items : condition.items = pre ++ .raw raw :: post)
    (written : Select.write scope b ⟨columns, sources, condition⟩ = .ok b') :
    ∃ (before : Builder) (added back : List Cell),
      Select.write scope b ⟨columns, sources, .empty⟩ >>=
          writeClause scope "WHERE" (andLead scope.renderer.config)
            (pre.map fun c => c.write (scope.enter sources)) = .ok before ∧
      b.Extends before ∧ before.Extends b' ∧
      b'.cells.toList = before.cells.toList ++ (added ++ .char '\n' :: back) ∧
      Lexes (codeText .question added)
        ((if pre.isEmpty then [] else [(.name, "AND".toList)]) ++ ts.map Token.shape) := by
  have extending : ∀ cs : List Condition,
      ∀ w ∈ cs.map fun c => c.write (scope.enter sources), Writer.Extending w := by
    intro cs w mem
    obtain ⟨c, -, rfl⟩ := List.mem_map.mp mem
    exact fun g => Condition.write_extends g
  rw [Select.write_of_items_ne_nil (by simp [items]), items, List.map_append, List.map_cons]
    at written
  obtain ⟨list, front, clause⟩ := Except.bind_eq_ok_iff.mp written
  obtain ⟨before, d, first, item, others⟩ := writeClause_split clause
  rw [Condition.write_raw] at item
  have opened : b.Extends before :=
    (Select.write_extends front).trans (writeClause_extending (extending pre) first)
  obtain ⟨added, m, t, line, text, lexes⟩ := RawSql.exists_added_of_writeItem read split some
    (fresh_writeClause first) (indented.extends opened) item
  have own : before.Extends d := writeItem_extending (fun g => RawSql.write_extends g) item
  have behind : d.Extends b' := writeItems_extends (extending post) others
  obtain ⟨back, rest⟩ := behind.text
  refine ⟨before, added, back, Except.bind_eq_ok_iff.mpr ⟨list, front, first⟩, opened,
    own.trans behind, ?_, ?_⟩
  · rw [← rest, line]
    simp
  · rw [text, Lexes.append_blanks_iff (isAllBlank_spaces m)]
    simpa using lexes_itemLead scope (pre.map fun c => c.write (scope.enter sources)) lexes

/-- A fragment in a `WHERE` list is written without parentheses. Behind the select with the items
before it stands one line with the tokens of the fragment, behind an `AND` if there are such items,
and then the rest. In a conjunction elsewhere, a fragment stands without parentheses of its own
as well. -/
theorem Renderer.render_raw_item {r : Renderer} (question : r.config.placeholder = .question)
    {limit : Nat} {sql : Text} {binds : List BindVariable} {raw : RawSql} {ts : List Token}
    (parsed : RawSql.parse limit sql binds = .ok raw) (split : tokenize limit sql = .ok ts)
    (some : ts ≠ []) {columns : List SelectColumn} {sources : List Source} {condition : Condition}
    {pre post : List Condition} (items : condition.items = pre ++ .raw raw :: post)
    {stmt : Statement} (rendered : r.render ⟨columns, sources, condition⟩ = .ok stmt) :
    (∃ (before : Builder) (item back : Text) (us : List Token),
      Select.write (.outermost r) (.empty .question) ⟨columns, sources, .empty⟩ >>=
          writeClause (.outermost r) "WHERE" (andLead r.config)
            (pre.map fun c => c.write ((Scope.outermost r).enter sources)) = .ok before ∧
      stmt.sql = before.finish.sql ++ (item ++ '\n' :: back) ∧
      (∀ limit, us.length ≤ limit → tokenize limit item = .ok us) ∧
      significant us =
        (if pre.isEmpty then [] else [(.name, "AND".toList)]) ++ significant ts) ∧
    ∀ cs, condition = .and cs → pre ++ post ≠ [] → condition.pieces =
      .opening :: joined .and (pre.map pieces ++ [.raw raw] :: post.map pieces) ++ [.closing] := by
  refine ⟨?_, ?_⟩
  · obtain ⟨b', written, last⟩ := Except.bind_eq_ok_iff.mp rendered
    obtain rfl := Except.ok.inj last
    rw [question] at written
    have indented : (Builder.empty .question).Indented :=
      ⟨fun lead none => absurd none List.not_mem_nil, 0, rfl⟩
    obtain ⟨before, added, back, front, opened, behind, cells, lexes⟩ :=
      Select.exists_line_of_raw (RawSql.read_of_parse parsed) split some indented items written
    obtain ⟨us, shapes, found⟩ := lexes.tokenize
    refine ⟨before, codeText .question added, codeText .question back, us, front, ?_, found, ?_⟩
    · have text : b'.finish.sql = codeText b'.style b'.cells.toList := rfl
      have start : before.finish.sql = codeText before.style before.cells.toList := rfl
      rw [text, start, behind.style, opened.style, cells, codeText_append, codeText_append]
      rfl
    · rw [significant_of_shapes shapes]
      split <;> rfl
  · rintro cs rfl several
    exact pieces_and_raw items several

def looseSample : RawSql :=
  { body := .ofNormal "b = 2 OR c = 3" (scan "b = 2 OR c = 3").tokens
    binds := []
    isRead := ⟨7, "b = 2 OR c = 3", by decide +kernel⟩
    isBound := by decide +kernel }

def guardSample : Condition :=
  .compare (.column ⟨none, .unquoted "a" (by decide), .int⟩) .equal (.literal (.int 1))

def guardedColumns : List SelectColumn :=
  [⟨.column ⟨none, .unquoted "id" (by decide), .any⟩, none⟩]

def guardedSources : List Source :=
  [.table (.ofSimple (.unquoted "orders" (by decide))) (some (.unquoted "o" (by decide)))]

theorem sql_looseSample :
    (Renderer.defaults.render
      ⟨guardedColumns, guardedSources, .and [guardSample, .raw looseSample]⟩).map (·.sql) =
      .ok "SELECT\n    o.id\nFROM\n    orders o\nWHERE\n    o.a = 1\nAND b = 2 OR c = 3\n" := by
  decide +kernel

/-- The `OR` of the fragment stands in no parentheses: a row with another `a` is selected if its `c`
is 3. -/
theorem Renderer.render_raw_item_sample : ∃ (before : Builder) (item back : Text) (us : List Token),
    "SELECT\n    o.id\nFROM\n    orders o\nWHERE\n    o.a = 1\nAND b = 2 OR c = 3\n".toList =
      before.finish.sql ++ (item ++ '\n' :: back) ∧
    (∀ limit, us.length ≤ limit → tokenize limit item = .ok us) ∧
    significant us = [(.name, "AND".toList), (.name, "b".toList), (.symbol, "=".toList),
      (.number, "2".toList), (.name, "OR".toList), (.name, "c".toList), (.symbol, "=".toList),
      (.number, "3".toList)] := by
  have rendered := sql_looseSample
  cases known : Renderer.defaults.render
      ⟨guardedColumns, guardedSources, .and [guardSample, .raw looseSample]⟩ with
  | error e =>
    rw [known] at rendered
    cases rendered
  | ok stmt =>
    rw [known] at rendered
    have sql := Except.ok.inj rendered
    have parsed : RawSql.parse 7 "b = 2 OR c = 3" [] = .ok looseSample := by decide +kernel
    have split : tokenize 7 "b = 2 OR c = 3" = .ok (scan "b = 2 OR c = 3").tokens :=
      tokenize_eq_ok_iff.mpr ⟨by decide +kernel, rfl, by decide +kernel⟩
    have items : (Condition.and [guardSample, .raw looseSample]).items =
        [guardSample] ++ [.raw looseSample] := rfl
    obtain ⟨⟨before, item, back, us, -, text, found, tokens⟩, -⟩ :=
      Renderer.render_raw_item rfl parsed split (by decide +kernel) items known
    refine ⟨before, item, back, us, sql ▸ text, found, ?_⟩
    rw [tokens]
    decide +kernel

end SqlCompose
