import SqlCompose.Proofs.Names
import SqlCompose.Proofs.Pages.Hanging
import SqlCompose.Proofs.Uses

/-! Identifiers in finished SQL. One walk over a select gives the identifiers that are printed, in
their order: names of tables, aliases, columns and their qualifiers. Each of them stands in the
SQL. A line end in a quoted identifier is taken for one of the layout, so the lines behind it are
moved to the right with the item that it stands in, and the identifier is another one. Identifiers
without line ends are printed as they are. -/

namespace SqlCompose

open Text

def ColumnRef.printed (scope : Scope) (c : ColumnRef) : List Text :=
  (scope.qualifierFor c).toList.map NamePath.sql ++ [c.column.sql]

mutual

/-- The identifiers of an expression, in the order in which the templates print them. -/
def Expr.printed (scope : Scope) : Expr → List Text
  | .literal _ => []
  | .column c => c.printed scope
  | .bind _ => []
  | .call f args _ =>
    Template.printed (scope.renderer.template f) (Expr.printedOfEach scope args)
  | .raw _ _ => []

def Expr.printedOfEach (scope : Scope) : List Expr → List (List Text)
  | [] => []
  | e :: es => e.printed scope :: Expr.printedOfEach scope es

end

namespace Condition

def Piece.printed (scope : Scope) : Piece → List Text
  | .compare left op right =>
    Template.printed (scope.renderer.comparisonTemplate op)
      [left.printed scope, right.printed scope]
  | .isNull expr _ => expr.printed scope
  | .raw _ | .always | .never | .and | .or | .not | .opening | .closing => []

/-- The identifiers of a condition; those in a condition that always holds are not printed. -/
def printed (scope : Scope) (c : Condition) : List Text :=
  c.gather (Piece.printed scope)

end Condition

def aliasNames (a : Option SimpleName) : List Text :=
  a.toList.map SimpleName.sql

def SelectColumn.printed (scope : Scope) (c : SelectColumn) : List Text :=
  c.expr.printed scope ++ aliasNames c.aliasName

/-- The SQL of an identifier, and the number of indentation steps by which the lines of the item
are moved that it is printed in. -/
structure PrintedName where
  sql : Text
  depth : Nat
  deriving DecidableEq

namespace PrintedName

def ofItem (sql : Text) : PrintedName :=
  ⟨sql, 1⟩

def deeper (p : PrintedName) : PrintedName :=
  { p with depth := p.depth + 2 }

def text (indent : Nat) (p : PrintedName) : Text :=
  p.sql.hang (p.depth * indent)

end PrintedName

mutual

def Source.printed (scope : Scope) : Source → List PrintedName
  | .table name a => (name.sql :: aliasNames a).map .ofItem
  | .subselect select a => (select.printed scope).map .deeper ++ [.ofItem a.sql]
  | .raw _ a => (aliasNames a).map .ofItem

def Source.printedOfAll (scope : Scope) : List Source → List PrintedName
  | [] => []
  | s :: rest => s.printed scope ++ Source.printedOfAll scope rest

/-- The identifiers that a select prints, from left to right. -/
def Select.printed (scope : Scope) : Select → List PrintedName
  | ⟨columns, sources, condition⟩ =>
    let inside := scope.enter sources
    (columns.flatMap fun c => c.printed inside).map .ofItem ++ Source.printedOfAll inside sources
      ++ (condition.items.flatMap fun c => c.printed inside).map .ofItem

end

theorem map_hang_zero (ts : List Text) : ts.map (Text.hang 0) = ts := by
  have same : ∀ t ∈ ts, t.hang 0 = id t := fun t _ => t.hangFrom_zero false
  rw [List.map_congr_left same, List.map_id]

namespace Template

variable {name template : Text} {args : List Builder} {rows : List (List Text)}
  {b c : Builder} {n : Nat} {ts : List Text} {slots : List TemplateSlot}

theorem shows_embedAll {isFirst : Bool} (held : Builder.ShowEach args rows) (h : b.Shows n ts)
    (g : embedAll isFirst b args = .ok c) :
    c.Shows n (ts ++ rows.flatten.map (Text.hang n)) := by
  induction held generalizing isFirst b ts with
  | nil =>
    obtain rfl := Except.ok.inj g
    simpa using h
  | @cons arg row args rows one _ ih =>
    simp only [embedAll] at g
    obtain ⟨d, embedded, rest⟩ := Except.bind_eq_ok_iff.mp g
    have comma : (if isFirst then b else b.append ", ").Shows n ts := by
      split
      · exact h
      · exact h.append _
    have next := comma.embed one (Attempt.toExcept_eq_ok_iff.mp embedded)
    simpa using ih next rest

theorem shows_fill (held : Builder.ShowEach args rows)
    (h : b.Shows n ts) (g : fill name args b slots = .ok c) :
    c.Shows n (ts ++ (printedSlots rows slots).map (Text.hang n)) := by
  induction slots generalizing b ts with
  | nil =>
    obtain rfl := Except.ok.inj g
    simpa [printedSlots] using h
  | cons slot slots ih =>
    cases slot with
    | text s => exact ih (h.append s) g
    | argument i =>
      simp only [fill] at g
      split at g
      · cases g
      · next arg found =>
        obtain ⟨d, embedded, rest⟩ := Except.bind_eq_ok_iff.mp g
        obtain ⟨row, known, one⟩ : ∃ row, rows[i]? = some row ∧ arg.Shows 0 row := by
          obtain ⟨bound, rfl⟩ := List.getElem?_eq_some_iff.mp found
          have bound' := held.length_eq ▸ bound
          exact ⟨rows[i], List.getElem?_eq_getElem bound', held.get bound bound'⟩
        have next := ih (h.embed one (Attempt.toExcept_eq_ok_iff.mp embedded)) rest
        simpa [printedSlots, known] using next
    | all =>
      obtain ⟨d, embedded, rest⟩ := Except.bind_eq_ok_iff.mp g
      simpa [printedSlots] using ih (shows_embedAll held h embedded) rest

theorem shows_foldLeft {style : PlaceholderStyle}
    (held : Builder.ShowEach args rows)
    (h : b.Shows 0 ts) (g : foldLeft name slots style b args = .ok c) :
    c.Shows 0 (rows.foldl (fun done next => printedSlots [done, next] slots) ts) := by
  induction held generalizing b ts with
  | nil =>
    obtain rfl := Except.ok.inj g
    exact h
  | @cons arg row args rows one _ ih =>
    obtain ⟨d, filled, rest⟩ := Except.bind_eq_ok_iff.mp g
    have pair := shows_fill (.cons h (.cons one .nil)) (Builder.shows_empty style) filled
    rw [map_hang_zero, List.nil_append] at pair
    exact ih pair rest

theorem shows_apply (held : Builder.ShowEach args rows)
    (h : b.Shows n ts) (g : apply name template args b = .ok c) :
    c.Shows n (ts ++ (printed template rows).map (Text.hang n)) := by
  simp only [apply, printed, held.length_eq] at g ⊢
  split at g
  · next folded =>
    rw [if_pos folded]
    cases held with
    | nil =>
      obtain rfl := Except.ok.inj g
      simpa using h
    | cons one others =>
      obtain ⟨d, done, embedded⟩ := Except.bind_eq_ok_iff.mp g
      exact h.embed (shows_foldLeft others one done) (Attempt.toExcept_eq_ok_iff.mp embedded)
  · next plain =>
    rw [if_neg plain]
    exact shows_fill held h g

end Template

section Write

variable {scope : Scope} {b c : Builder} {n : Nat} {ts : List Text}

theorem RawPart.shows_writeAll {binds : List BindVariable} {parts : List RawPart}
    (h : b.Shows n ts) (g : RawPart.writeAll binds b parts = (c, .ok ())) : c.Shows n ts := by
  induction parts generalizing b with
  | nil =>
    obtain rfl := (Prod.mk.inj g).1
    exact h
  | cons part parts ih =>
    cases part with
    | text s => exact ih (h.append s) g
    | literal s => exact ih (h.appendKept s) g
    | bind i =>
      simp only [writeAll] at g
      split at g
      · exact ih h g
      · split at g
        · cases g
        · next appended => exact ih (h.appendBind appended) g

theorem RawSql.shows_write {raw : RawSql} (h : b.Shows n ts) (g : raw.write scope b = .ok c) :
    c.Shows n ts := by
  simp only [RawSql.write] at g
  split at g
  · cases g
  · obtain ⟨d, wrapped, last⟩ := Except.bind_eq_ok_iff.mp g
    simp only [Builder.wrapped, Attempt.toExcept_eq_ok_iff, Prod.mk.injEq] at wrapped
    obtain ⟨rfl, written⟩ := wrapped
    have pushed : (b.pushIndent (Builder.wrapLead 0)).Shows (n + 1) ts := h.pushIndent rfl
    have inside := (RawPart.shows_writeAll pushed (Prod.ext rfl written)).popIndent b h.hangs
      (RawPart.writeAll_extends (Prod.ext rfl written))
    obtain rfl := Except.ok.inj last
    split
    · exact inside.breakBeforeNext
    · exact inside

theorem ColumnRef.shows_write (column : ColumnRef) (h : b.Shows n ts) :
    (column.write scope b).Shows n (ts ++ (column.printed scope).map (Text.hang n)) := by
  have own := column.column.spells_sql.isTight
  rw [ColumnRef.write, ColumnRef.printed]
  cases scope.qualifierFor column with
  | none => exact h.name own
  | some q =>
    have qualified := (((h.name q.isTight_sql).append ['.']).text own)
    simpa using qualified

mutual

theorem Expr.shows_write (e : Expr) {b c : Builder} {n : Nat} {ts : List Text} (h : b.Shows n ts)
    (g : e.write scope b = .ok c) : c.Shows n (ts ++ (e.printed scope).map (Text.hang n)) := by
  cases e with
  | literal v =>
    obtain ⟨text, -, rest⟩ := Except.bind_eq_ok_iff.mp g
    obtain rfl := Except.ok.inj rest
    simpa [printed] using h.append text
  | column column =>
    obtain rfl := Except.ok.inj g
    exact column.shows_write h
  | bind v => simpa [printed] using h.appendBind (Attempt.toExcept_eq_ok_iff.mp g)
  | call f args type =>
    obtain ⟨rendered, written, applied⟩ := Except.bind_eq_ok_iff.mp g
    exact Template.shows_apply (Expr.shows_writeArgs args written) h applied
  | raw sql type => simpa [printed] using RawSql.shows_write h g

theorem Expr.shows_writeArgs (args : List Expr) {isOperator : Bool} {style : PlaceholderStyle}
    {bs : List Builder} (g : Expr.writeArgs scope isOperator style args = .ok bs) :
    Builder.ShowEach bs (Expr.printedOfEach scope args) := by
  cases args with
  | nil =>
    obtain rfl := Except.ok.inj g
    exact .nil
  | cons arg rest =>
    obtain ⟨first, others, one, all, rfl⟩ := Expr.writeArgs_cons g
    refine .cons ?_ (Expr.shows_writeArgs rest all)
    have own := Builder.shows_empty style
    have same := map_hang_zero (arg.printed scope)
    rcases one with ⟨c, inside, rfl⟩ | one
    · simpa [same] using (Expr.shows_write arg (own.append ['(']) inside).append [')']
    · simpa [same] using Expr.shows_write arg own one

end

namespace Condition

theorem Piece.shows_write (p : Piece) (h : b.Shows n ts) (g : p.write scope b = .ok c) :
    c.Shows n (ts ++ (p.printed scope).map (Text.hang n)) := by
  cases p with
  | compare left op right =>
    obtain ⟨args, written, applied⟩ := Except.bind_eq_ok_iff.mp g
    exact Template.shows_apply (Expr.shows_writeArgs _ written) h applied
  | isNull expr negated =>
    obtain ⟨d, written, last⟩ := Except.bind_eq_ok_iff.mp g
    obtain rfl := Except.ok.inj last
    exact (Expr.shows_write expr h written).append _
  | raw sql => simpa [printed] using RawSql.shows_write h g
  | always | never | and | or | not | opening | closing =>
    obtain rfl := Except.ok.inj g
    simpa [printed] using h.append _

theorem Piece.shows_writeAll (ps : List Piece) (h : b.Shows n ts)
    (g : Piece.writeAll scope b ps = .ok c) :
    c.Shows n (ts ++ (ps.flatMap (Piece.printed scope)).map (Text.hang n)) := by
  induction ps generalizing b ts with
  | nil =>
    obtain rfl := Except.ok.inj g
    simpa using h
  | cons p ps ih =>
    obtain ⟨d, written, rest⟩ := Except.bind_eq_ok_iff.mp g
    simpa using ih (Piece.shows_write p h written) rest

theorem Piece.printed_of_not_isTest (p : Piece) (other : p.isTest = false) :
    p.printed scope = [] := by
  cases p with
  | compare | isNull => cases other
  | _ => rfl

theorem shows_write (condition : Condition) (h : b.Shows n ts)
    (g : condition.write scope b = .ok c) :
    c.Shows n (ts ++ (condition.printed scope).map (Text.hang n)) := by
  rw [printed, ← flatMap_pieces Piece.printed_of_not_isTest]
  exact Piece.shows_writeAll condition.pieces h g

end Condition

theorem shows_writeAlias (h : b.Shows n ts) (a : Option SimpleName) :
    (writeAlias b a).Shows n (ts ++ (aliasNames a).map (Text.hang n)) := by
  cases a with
  | none => simpa [aliasNames, writeAlias] using h
  | some a => exact (h.append [' ']).text a.spells_sql.isTight

theorem SelectColumn.shows_write (column : SelectColumn) (h : b.Shows n ts)
    (g : column.write scope b = .ok c) :
    c.Shows n (ts ++ (column.printed scope).map (Text.hang n)) := by
  obtain ⟨d, written, last⟩ := Except.bind_eq_ok_iff.mp g
  obtain rfl := Except.ok.inj last
  simpa [printed] using shows_writeAlias (Expr.shows_write column.expr h written) column.aliasName

/-- At an indentation of `n` columns, the writer writes the given texts in their order. -/
structure Writer.Prints (w : Writer) (n : Nat) (texts : List Text) : Prop where
  extending : w.Extending
  shows : ∀ {b c : Builder} {ts : List Text}, b.Shows n ts → w b = .ok c →
    c.Shows n (ts ++ texts)

abbrev Writer.PrintEach (n : Nat) (items : List Writer) (rows : List (List Text)) : Prop :=
  List.Forall₂ (fun (item : Writer) row => item.Prints n row) items rows

theorem Writer.prints_map {α : Type} {f : α → Writer} {g : α → List Text}
    (prints : ∀ x, (f x).Prints n (g x)) (xs : List α) :
    Writer.PrintEach n (xs.map f) (xs.map g) := by
  rw [PrintEach, List.forall₂_map_left_iff, List.forall₂_map_right_iff, List.forall₂_same]
  exact fun x _ => prints x

variable {lead keyword : Text} {item : Writer} {items : List Writer} {texts : List Text}
  {rows : List (List Text)} {width : Nat}

theorem Writer.Prints.writeItem (prints : item.Prints width texts) (h : b.Shows 0 ts)
    (g : writeItem lead (Text.spaces width) item b = .ok c) : c.Shows 0 (ts ++ texts) := by
  obtain ⟨d, written, last⟩ := Except.bind_eq_ok_iff.mp g
  obtain rfl := Except.ok.inj last
  have pushed : (b.pushIndent (.firstLine lead (Text.spaces width))).Shows (0 + width) ts :=
    h.pushIndent rfl
  rw [Nat.zero_add] at pushed
  exact (prints.shows pushed written).endLine.popIndent b h.hangs (prints.extending written).endLine

theorem shows_writeItems
    (prints : Writer.PrintEach width items rows)
    (h : b.Shows 0 ts) (g : writeItems lead (Text.spaces width) b items = .ok c) :
    c.Shows 0 (ts ++ rows.flatten) := by
  induction prints generalizing b ts with
  | nil =>
    obtain rfl := Except.ok.inj g
    simpa using h
  | cons one _ ih =>
    obtain ⟨d, written, others⟩ := Except.bind_eq_ok_iff.mp g
    simpa using ih (one.writeItem h written) others

theorem shows_writeClause
    (prints : Writer.PrintEach scope.renderer.config.indent items rows)
    (h : b.Shows 0 ts) (g : writeClause scope keyword lead items b = .ok c) :
    c.Shows 0 (ts ++ rows.flatten) := by
  have headed : (b.append keyword).endLine.Shows 0 ts := (h.append keyword).endLine
  cases prints with
  | nil =>
    obtain rfl := Except.ok.inj g
    simpa using headed
  | cons one others =>
    obtain ⟨d, written, g⟩ := Except.bind_eq_ok_iff.mp g
    simpa using shows_writeItems others (one.writeItem headed written) g

theorem prints_fromItems
    (prints : Writer.PrintEach n items rows) :
    ∃ rows', Writer.PrintEach n (fromItems items) rows' ∧
      rows'.flatten = rows.flatten := by
  cases prints with
  | nil =>
    refine ⟨[[]], .cons ⟨fun g => ?_, fun h g => ?_⟩ .nil, rfl⟩
    · obtain rfl := Except.ok.inj g
      exact (Builder.Extends.refl _).append dualText
    · obtain rfl := Except.ok.inj g
      simpa using h.append dualText
  | cons one others => exact ⟨_, .cons one others, rfl⟩

theorem SelectColumn.prints_write (column : SelectColumn) :
    Writer.Prints (column.write scope) n ((column.printed scope).map (Text.hang n)) :=
  ⟨column.write_extending, column.shows_write⟩

theorem Condition.prints_write (condition : Condition) :
    Writer.Prints (condition.write scope) n ((condition.printed scope).map (Text.hang n)) :=
  ⟨Condition.write_extends, condition.shows_write⟩

theorem PrintedName.map_text_ofItem (indent : Nat) (texts : List Text) :
    (texts.map ofItem).map (text indent) = texts.map (Text.hang indent) := by
  simp [text, ofItem, Function.comp_def]

theorem PrintedName.map_text_flatMap {α : Type} (indent : Nat) (f : α → List Text) (xs : List α) :
    ((xs.flatMap f).map ofItem).map (text indent) =
      (xs.map fun x => (f x).map (Text.hang indent)).flatten := by
  rw [map_text_ofItem, List.map_flatMap, List.flatMap_def]

theorem PrintedName.map_text_deeper (indent : Nat) (ps : List PrintedName) :
    (ps.map deeper).map (text indent) =
      (ps.map (text indent)).map (Text.hang (indent + indent)) := by
  have moved : ∀ p : PrintedName,
      p.deeper.text indent = (p.text indent).hang (indent + indent) := by
    intro p
    have width : (p.depth + 2) * indent = indent + indent + p.depth * indent := by
      rw [Nat.add_mul, Nat.two_mul, Nat.add_comm]
    rw [text, text, hang_hang, deeper, width]
  simp only [List.map_map]
  exact List.map_congr_left fun p _ => moved p

mutual

theorem Source.prints_write (source : Source) (scope : Scope) :
    Writer.Prints (fun b => source.write scope b) scope.renderer.config.indent
      ((source.printed scope).map (PrintedName.text scope.renderer.config.indent)) := by
  refine ⟨fun g => source.write_extends g, fun {b c ts} h g => ?_⟩
  cases source with
  | table name a =>
    obtain rfl := Except.ok.inj g
    rw [Source.printed, PrintedName.map_text_ofItem]
    simpa using shows_writeAlias (h.name name.isTight_sql) a
  | subselect select a =>
    obtain ⟨inner, written, g⟩ := Except.bind_eq_ok_iff.mp g
    obtain ⟨d, embedded, g⟩ := Except.bind_eq_ok_iff.mp g
    obtain rfl := Except.ok.inj g
    have embedded := Attempt.toExcept_eq_ok_iff.mp embedded
    have own := Select.shows_write select scope (Builder.shows_empty b.style) written
    have opened := (h.append ['(']).endLine
    have all := (opened.pushIndent (Lead.text_spaces false _)).embed own embedded
    have more := (Builder.Extends.refl _).embed embedded
    have closed := (all.popIndent _ opened.hangs more).append [')']
    have named := shows_writeAlias closed (some a)
    rw [List.nil_append, ← PrintedName.map_text_deeper] at named
    simpa [Source.printed, aliasNames, PrintedName.text, PrintedName.ofItem] using named
  | raw sql a =>
    obtain ⟨d, written, g⟩ := Except.bind_eq_ok_iff.mp g
    obtain rfl := Except.ok.inj g
    rw [Source.printed, PrintedName.map_text_ofItem]
    exact shows_writeAlias (RawSql.shows_write h written) a

theorem Source.prints_writers (sources : List Source) (scope : Scope) :
    ∃ rows, Writer.PrintEach scope.renderer.config.indent (Source.writers scope sources) rows ∧
      rows.flatten = (Source.printedOfAll scope sources).map
        (PrintedName.text scope.renderer.config.indent) := by
  cases sources with
  | nil => exact ⟨[], .nil, rfl⟩
  | cons source sources =>
    obtain ⟨rows, prints, all⟩ := Source.prints_writers sources scope
    exact ⟨_, .cons (Source.prints_write source scope) prints, by
      rw [List.flatten_cons, all, Source.printedOfAll, List.map_append]⟩

theorem Select.shows_write (s : Select) (scope : Scope) {b c : Builder} {ts : List Text}
    (h : b.Shows 0 ts) (g : s.write scope b = .ok c) :
    c.Shows 0 (ts ++ (s.printed scope).map (PrintedName.text scope.renderer.config.indent)) := by
  obtain ⟨columns, sources, condition⟩ := s
  obtain ⟨d, selected, g⟩ := Except.bind_eq_ok_iff.mp g
  have columnNames := shows_writeClause
    (Writer.prints_map (fun c => SelectColumn.prints_write c) columns) h selected
  obtain ⟨e, read, g⟩ := Except.bind_eq_ok_iff.mp g
  obtain ⟨rows, prints, all⟩ := Source.prints_writers sources (scope.enter sources)
  obtain ⟨rows', prints', all'⟩ := prints_fromItems prints
  have sourceNames := shows_writeClause prints' columnNames read
  rw [all', all] at sourceNames
  rw [Select.printed, List.map_append, List.map_append, PrintedName.map_text_flatMap,
    PrintedName.map_text_flatMap, ← List.append_assoc, ← List.append_assoc]
  split at g
  · next none =>
    obtain rfl := Except.ok.inj g
    rw [none, List.map_nil, List.flatten_nil, List.append_nil]
    exact sourceNames
  · exact shows_writeClause
      (Writer.prints_map (fun c => Condition.prints_write c) condition.items) sourceNames g

end

end Write

theorem Select.depth_pos (s : Select) (scope : Scope) : ∀ p ∈ s.printed scope, 0 < p.depth := by
  obtain ⟨columns, sources, condition⟩ := s
  have items : ∀ ts : List Text, ∀ p ∈ ts.map PrintedName.ofItem, 0 < p.depth := by
    simp [PrintedName.ofItem]
  have each : ∀ (source : Source) (inside : Scope), ∀ p ∈ source.printed inside, 0 < p.depth := by
    intro source inside
    cases source with
    | subselect select a =>
      intro p mem
      simp only [Source.printed, List.mem_append, List.mem_map, List.mem_singleton] at mem
      obtain ⟨q, -, rfl⟩ | rfl := mem <;> exact Nat.succ_pos _
    | _ => exact items _
  have all : ∀ (sources : List Source) (inside : Scope),
      ∀ p ∈ Source.printedOfAll inside sources, 0 < p.depth := by
    intro sources inside
    induction sources with
    | nil => exact nofun
    | cons source sources ih => exact List.forall_mem_append.mpr ⟨each source inside, ih⟩
  rw [Select.printed, List.forall_mem_append, List.forall_mem_append]
  exact ⟨⟨items _, all sources _⟩, items _⟩

/-- Each identifier that a select prints stands in the SQL, in the order of printing. It has hanging
lines: wherever it goes on behind a line end, spaces are written into it, by one step of indentation
for the item that it stands in and by two more for each subselect around it. So it is printed as it
is exactly if it holds no line end, or if nothing is indented. -/
theorem Renderer.render_names {r : Renderer} {s : Select} {stmt : Statement}
    (h : r.render s = .ok stmt) :
    InOrder ((s.printed (.outermost r)).map (PrintedName.text r.config.indent)) stmt.sql ∧
    ∀ p ∈ s.printed (.outermost r), 0 < p.depth ∧
      (p.text r.config.indent = p.sql ↔ r.config.indent = 0 ∨ '\n' ∉ p.sql) := by
  obtain ⟨b, written, last⟩ := Except.bind_eq_ok_iff.mp h
  obtain rfl := Except.ok.inj last
  have shown := Select.shows_write s _ (Builder.shows_empty r.config.placeholder) written
  refine ⟨shown.inOrder_sql, fun p mem => ⟨s.depth_pos _ p mem, ?_⟩⟩
  have tight : IsTight p.sql := (IsTight.hang_iff _).mp (shown.tight _ (List.mem_map_of_mem mem))
  have positive := s.depth_pos _ p mem
  have width : p.depth * r.config.indent = 0 ↔ r.config.indent = 0 := by
    simp [Nat.ne_of_gt positive]
  rw [PrintedName.text, tight.hang_eq_self_iff, width]

/-- `SELECT "a⏎b" FROM (SELECT "a⏎b" FROM t) v`, with a line end in the name of the column. -/
def lineEndSelect : Select :=
  let column : SelectColumn :=
    .ofExpr (.column ⟨none, .quoted ['a', '\n', 'b'] (by decide), .any⟩)
  let inner : Select := ⟨[column], [.table (.ofSimple (.unquoted ['t'] (by decide))) none], .empty⟩
  ⟨[column], [.subselect inner (.unquoted ['v'] (by decide))], .empty⟩

/-- The name is printed once with four spaces in it and once with twelve. -/
theorem Renderer.render_names_sample : ∃ stmt : Statement,
    Renderer.defaults.render lineEndSelect = .ok stmt ∧
    InOrder (["v", "\"a\n    b\"", "t", "\"a\n            b\"", "t", "v"] : List Text) stmt.sql ∧
    (PrintedName.mk "t" 3).text 4 = "t".toList ∧
    (PrintedName.mk "\"a\nb\"" 1).text 4 ≠ "\"a\nb\"".toList := by
  have works : (Renderer.defaults.render lineEndSelect).toOption.isSome = true := by
    decide +kernel
  cases done : Renderer.defaults.render lineEndSelect with
  | error e =>
    rw [done] at works
    cases works
  | ok stmt =>
    obtain ⟨inOrder, names⟩ := Renderer.render_names done
    have listed : (lineEndSelect.printed (.outermost .defaults)).map
        (PrintedName.text Renderer.defaults.config.indent) =
        ["v", "\"a\n    b\"", "t", "\"a\n            b\"", "t", "v"] := by decide +kernel
    rw [listed] at inOrder
    have plain := (names ⟨"t", 3⟩ (by decide +kernel)).2
    have broken := (names ⟨"\"a\nb\"", 1⟩ (by decide +kernel)).2
    refine ⟨stmt, rfl, inOrder, plain.mpr (.inr (by decide)), fun same => ?_⟩
    exact absurd (broken.mp same) (by decide)

end SqlCompose
