import SqlCompose.Proofs.Fragments.Rows
import SqlCompose.Proofs.Pages.RawItems
import SqlCompose.Render.Format

/-! Formatting a fragment. The formatter keeps the long literals of a fragment while it brings it
into normal form and writes it as one text. Rendering reads the normal form once more and writes it
part by part. Both write the same row as an item of a clause, so the formatter shows how a statement
holds the fragment. -/

namespace SqlCompose

open Builder Fragment

/-- A row as an item of a clause: one level in, with its later lines one column and `extra` more to
the right. -/
def rowItem (style : PlaceholderStyle) (c : RenderConfig) (extra : Nat) (row : List Cell) : Text :=
  if row = [] then []
  else c.indentText ++ laid style (c.indentText ++ Text.spaces (extra + 1)) false row

theorem Builder.text_item {b : Builder} (fresh : b.Fresh) (outermost : b.indents = [])
    {c : RenderConfig} {lead : Lead} (leads : ∀ isFirst, lead.text isFirst = c.indentText)
    (extra : Nat) {row : List Cell} (inLine : ∀ cell ∈ row.head?, cell ≠ .char '\n') :
    (row.foldl (putCopy 0) ((b.pushIndent lead).pushIndent (wrapLead extra))).text =
      b.text ++ rowItem b.style c extra row := by
  cases row with
  | nil => exact (List.append_nil _).symm
  | cons cell cells =>
    have first : ((b.pushIndent lead).pushIndent (wrapLead extra)).lead = c.indentText := by
      simp [Builder.lead, pushIndent, outermost, leads, wrapLead, Lead.text, fresh.start]
    have later : ((b.pushIndent lead).pushIndent (wrapLead extra)).laterLead =
        c.indentText ++ Text.spaces (extra + 1) := by
      simp [laterLead, pushIndent, outermost, leads, wrapLead, Lead.text]
    have written := text_copies_cons (b := (b.pushIndent lead).pushIndent (wrapLead extra))
      fresh.settled fresh.start (inLine cell rfl) cells
    rw [first, later] at written
    exact written

theorem laid_no_lead (style : PlaceholderStyle) (atStart : Bool) (cells : List Cell) :
    laid style [] atStart cells = codeText style cells := by
  induction cells generalizing atStart with
  | nil => rfl
  | cons cell cells ih =>
    rw [laid, ih, ih]
    split
    · next lineEnd =>
      rw [lineEnd]
      rfl
    · rw [ite_self]
      rfl

theorem Builder.text_append {b : Builder} (settled : b.pendingBreak = false)
    (outermost : b.indents = []) (s : Text) : (b.append s).text = b.text ++ s := by
  have lead : b.lead = [] := by simp [Builder.lead, outermost]
  rw [append_eq_copies, text_copies settled (by simp [outermost]), lead, laid_no_lead]
  simp [codeText, List.flatMap_map, Cell.text]

theorem formatFragment_eq_ok_iff {c : RenderConfig} {extra : Nat} {sql out : Text} :
    formatFragment c extra sql = .ok out ↔ (∃ ts, tokenize c.maxTokens sql = .ok ts) ∧
      out = rowItem .question c extra (normalRow sql) ++ ['\n'] := by
  have formatted : ∀ {ts : List Token}, tokenize c.maxTokens sql = .ok ts →
      ((((empty c.placeholder).pushIndent (.simple c.indentText)).wrapKeeping sql (longLiterals ts)
        extra).popIndent.endLine).text = rowItem .question c extra (normalRow sql) ++ ['\n'] := by
    intro ts split
    have leads : ∀ isFirst, (Lead.simple c.indentText).text isFirst = c.indentText := fun _ => rfl
    have item := text_item (b := .empty c.placeholder) ⟨rfl, rfl⟩ rfl leads extra
      (normalRow_inLine split)
    have plain : rowItem c.placeholder c extra (normalRow sql) =
        rowItem .question c extra (normalRow sql) := by
      rw [rowItem, rowItem, laid_normalRow split]
    rw [← keptRow_normal split, ← appendAround_eq_copies, keptRow_normal split] at item
    rw [text_endLine, ← plain]
    exact congrArg (· ++ ['\n']) item
  constructor
  · intro h
    obtain ⟨ts, split, h⟩ := Except.bind_eq_ok_iff.mp h
    exact ⟨⟨ts, split⟩, (Except.ok.inj h).symm.trans (formatted split)⟩
  · rintro ⟨⟨ts, split⟩, rfl⟩
    exact Except.bind_eq_ok_iff.mpr ⟨ts, split, congrArg Except.ok (formatted split)⟩

theorem RawSql.text_write {limit : Nat} {sql : Text} {raw : RawSql} {scope : Scope} {b d : Builder}
    {lead : Lead} (read : RawText.read limit sql = .ok raw.body) (question : b.style = .question)
    (fresh : b.Fresh) (outermost : b.indents = [])
    (leads : ∀ isFirst, lead.text isFirst = scope.renderer.config.indentText)
    (written : raw.write scope (b.pushIndent lead) = .ok d) :
    d.text = b.text ++ rowItem .question scope.renderer.config 0 (normalRow sql) := by
  obtain ⟨cells, ts, split, -⟩ := cells_read read
  obtain ⟨row, c, same, parts, copied, copied'⟩ := RawSql.exists_copies_of_write written
  have marked := (map_unmarked_of_unnumbered same).trans cells
  have more := (Extends.refl ((b.pushIndent lead).pushIndent (wrapLead 0))).copies 0 row
  have style : d.style = .question := (RawSql.write_extends written).style.trans question
  have text : d.text = (row.foldl (putCopy 0)
      ((b.pushIndent lead).pushIndent (wrapLead 0))).text := by
    rw [Builder.text, Builder.text, style, more.style.trans question, copied', copied]
  have inLine : ∀ cell ∈ row.head?, cell ≠ .char '\n' := by
    rintro cell head rfl
    have found : (normalRow sql).head? = some (Cell.char '\n').unmarked := by
      rw [← marked, List.head?_map, Option.mem_def.mp head]
      rfl
    exact normalRow_inLine split _ found rfl
  have laidOut : rowItem .question scope.renderer.config 0 row =
      rowItem .question scope.renderer.config 0 (normalRow sql) := by
    rw [rowItem, rowItem, ← marked, laid_unmarked]
    simp only [List.map_eq_nil_iff]
  rw [text, text_item fresh outermost leads 0 inLine, question, laidOut]

theorem RawSql.tokenCount_le_of_write {scope : Scope} {raw : RawSql} {b d : Builder}
    (written : raw.write scope b = .ok d) :
    raw.body.tokenCount ≤ scope.renderer.config.maxTokens := by
  simp only [RawSql.write] at written
  split at written
  · cases written
  · next few => exact Nat.le_of_not_lt few

theorem Select.fresh_write {scope : Scope} {b c : Builder} {columns : List SelectColumn}
    {sources : List Source} (g : Select.write scope b ⟨columns, sources, .empty⟩ = .ok c) :
    c.Fresh := by
  simp only [Select.write] at g
  obtain ⟨d, -, g⟩ := Except.bind_eq_ok_iff.mp g
  obtain ⟨e, second, last⟩ := Except.bind_eq_ok_iff.mp g
  obtain rfl : e = c := Except.ok.inj last
  exact fresh_writeClause second

theorem Select.text_write_raw {limit : Nat} {sql : Text} {raw : RawSql} {scope : Scope}
    {b d : Builder} {columns : List SelectColumn} {sources : List Source}
    (read : RawText.read limit sql = .ok raw.body) (question : b.style = .question)
    (outermost : b.indents = [])
    (written : Select.write scope b ⟨columns, sources, .raw raw⟩ = .ok d) :
    ∃ c : Builder, Select.write scope b ⟨columns, sources, .empty⟩ = .ok c ∧
      raw.body.tokenCount ≤ scope.renderer.config.maxTokens ∧
      d.text = c.text ++ ("WHERE\n".toList ++
        (rowItem .question scope.renderer.config 0 (normalRow sql) ++ ['\n'])) := by
  have items : (Condition.raw raw).items = [.raw raw] := rfl
  rw [Select.write_of_items_ne_nil (by simp [items]), items] at written
  simp only [List.map_cons, List.map_nil, Condition.write_raw] at written
  obtain ⟨c, front, clause⟩ := Except.bind_eq_ok_iff.mp written
  obtain ⟨e, item, last⟩ := Except.bind_eq_ok_iff.mp clause
  obtain rfl := Except.ok.inj last
  obtain ⟨f, fragment, last⟩ := Except.bind_eq_ok_iff.mp item
  obtain rfl := Except.ok.inj last
  have none : ∀ {c : Builder}, b.Extends c → c.indents = [] := by
    intro c more
    have leads := more.leads
    rw [outermost] at leads
    exact List.map_eq_nil_iff.mp leads
  have opened := Select.write_extends front
  have fresh := Select.fresh_write front
  have headed : b.Extends (c.append "WHERE").endLine := (opened.append _).endLine
  have keyword : ((c.append "WHERE").endLine).text = c.text ++ "WHERE\n".toList := by
    rw [text_endLine, text_append fresh.settled (none opened), List.append_assoc]
    rfl
  have text := RawSql.text_write read (headed.style.trans question) ⟨rfl, rfl⟩ (none headed)
    (by intro isFirst; cases isFirst <;> rfl) fragment
  have whole : (f.endLine.popIndent).text = f.text ++ ['\n'] := text_endLine f
  refine ⟨c, front, RawSql.tokenCount_le_of_write fragment, ?_⟩
  rw [whole, text, keyword]
  simp only [List.append_assoc]
  rfl

/-- If a select renders with a fragment as its condition, and without it, the formatter accepts the
fragment, and the statement with the fragment is the other one with the word `WHERE` on a line
behind it, and behind that what the formatter makes of the fragment. -/
theorem Renderer.render_raw_eq_formatFragment {r : Renderer}
    (question : r.config.placeholder = .question) {limit : Nat} {sql : Text}
    {binds : List BindVariable} {raw : RawSql} (parsed : RawSql.parse limit sql binds = .ok raw)
    {columns : List SelectColumn} {sources : List Source} {stmt plain : Statement}
    (rendered : r.render ⟨columns, sources, .raw raw⟩ = .ok stmt)
    (without : r.render ⟨columns, sources, .empty⟩ = .ok plain) :
    ∃ text : Text, formatFragment r.config 0 sql = .ok text ∧
      stmt.sql = plain.sql ++ ("WHERE\n".toList ++ text) := by
  have read := RawSql.read_of_parse parsed
  obtain ⟨d, written, last⟩ := Except.bind_eq_ok_iff.mp rendered
  obtain rfl := Except.ok.inj last
  obtain ⟨b, front, last⟩ := Except.bind_eq_ok_iff.mp without
  obtain rfl := Except.ok.inj last
  obtain ⟨c, front', few, text⟩ := Select.text_write_raw (b := .empty r.config.placeholder) read
    question rfl written
  obtain rfl : b = c := Except.ok.inj (front.symm.trans front')
  -- the limit of the configuration is large enough for the formatter as well
  obtain ⟨-, ts, split, count⟩ := cells_read read
  obtain ⟨ok, known, -⟩ := tokenize_eq_ok_iff.mp split
  have accepted : tokenize r.config.maxTokens sql = .ok ts :=
    tokenize_eq_ok_iff.mpr ⟨ok, known, count ▸ few⟩
  exact ⟨_, formatFragment_eq_ok_iff.mpr ⟨⟨ts, accepted⟩, rfl⟩, text⟩

theorem sql_withWrittenSample :
    (Renderer.defaults.render ⟨guardedColumns, guardedSources, .raw writtenSample⟩).map (·.sql) =
      .ok ("SELECT\n    o.id\nFROM\n    orders o\nWHERE\n    -- first ?\n     SELECT 'a\n    " ++
        "''b'\n       , ? /* x\n      y */\n").toList := by
  decide +kernel

theorem sql_withoutCondition :
    (Renderer.defaults.render ⟨guardedColumns, guardedSources, .empty⟩).map (·.sql) =
      .ok "SELECT\n    o.id\nFROM\n    orders o\n".toList := by
  decide +kernel

/-- A fragment with a long literal, comments and a placeholder. -/
theorem Renderer.render_raw_eq_formatFragment_sample :
    ∃ text : Text, formatFragment .defaults 0 sampleFragment = .ok text ∧
      ("SELECT\n    o.id\nFROM\n    orders o\nWHERE\n    -- first ?\n     SELECT 'a\n    " ++
          "''b'\n       , ? /* x\n      y */\n").toList =
        "SELECT\n    o.id\nFROM\n    orders o\n".toList ++ ("WHERE\n".toList ++ text) := by
  have rendered := sql_withWrittenSample
  have without := sql_withoutCondition
  have parsed : RawSql.parse 9 sampleFragment [.unvalued ⟨"W", by decide⟩ .int] =
      .ok writtenSample := by decide +kernel
  cases known : Renderer.defaults.render ⟨guardedColumns, guardedSources, .raw writtenSample⟩ with
  | error e =>
    rw [known] at rendered
    cases rendered
  | ok stmt =>
    cases bare : Renderer.defaults.render ⟨guardedColumns, guardedSources, .empty⟩ with
    | error e =>
      rw [bare] at without
      cases without
    | ok plain =>
      rw [known] at rendered
      rw [bare] at without
      obtain ⟨text, formatted, same⟩ :=
        Renderer.render_raw_eq_formatFragment (r := .defaults) rfl parsed known bare
      have whole : stmt.sql = _ := Except.ok.inj rendered
      have front : plain.sql = _ := Except.ok.inj without
      rw [whole, front] at same
      exact ⟨text, formatted, same⟩

end SqlCompose
