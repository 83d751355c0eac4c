import Mathlib.Data.List.Forall2
import SqlCompose.Proofs.Placeholders
import SqlCompose.Proofs.Styles.Builders

/-! The style of placeholders in statements. Rendering never writes an identifier right behind a
placeholder: text, a line end or another placeholder comes first. So the style decides nothing but
how the placeholders themselves are written, whatever the templates are. -/

namespace SqlCompose

open Builder

variable {style : PlaceholderStyle} {b c : Builder}

def Renderer.withPlaceholder (r : Renderer) (style : PlaceholderStyle) : Renderer :=
  { r with config := { r.config with placeholder := style } }

def Scope.withPlaceholder (scope : Scope) (style : PlaceholderStyle) : Scope :=
  { scope with renderer := scope.renderer.withPlaceholder style }

section Write

variable {scope : Scope}

namespace Template

variable {name template : Text} {args args' : List Builder} {ts : List TemplateSlot}

theorem related_embedAll {isFirst : Bool} (rows : List.Forall₂ (Alike style) args args')
    (h : b.Alike style c) :
    Except.Related (Alike style) (embedAll isFirst b args) (embedAll isFirst c args') := by
  induction rows generalizing isFirst b c with
  | nil => exact .ok h
  | cons one _ ih =>
    simp only [embedAll]
    have comma : Alike style (if isFirst then b else b.append ", ")
        (if isFirst then c else c.append ", ") := by
      split
      · exact h
      · exact h.append _
    exact (comma.embed one).toExcept.bind fun _ _ next => ih next

theorem related_fill (rows : List.Forall₂ (Alike style) args args') (h : b.Alike style c) :
    Except.Related (Alike style) (fill name args b ts) (fill name args' c ts) := by
  induction ts generalizing b c with
  | nil => exact .ok h
  | cons slot ts ih =>
    cases slot with
    | text s => exact ih (h.append s)
    | argument n =>
      simp only [fill]
      cases found : args[n]? with
      | none =>
        have none' : args'[n]? = none := by
          rw [List.getElem?_eq_none_iff] at found ⊢
          exact rows.length_eq ▸ found
        rw [none']
        exact .error _
      | some arg =>
        obtain ⟨bound, rfl⟩ := List.getElem?_eq_some_iff.mp found
        have bound' : n < args'.length := rows.length_eq ▸ bound
        rw [List.getElem?_eq_getElem bound']
        exact (h.embed (rows.get bound bound')).toExcept.bind fun _ _ next => ih next
    | all => exact (related_embedAll rows h).bind fun _ _ next => ih next

theorem related_foldLeft {own : PlaceholderStyle} (rows : List.Forall₂ (Alike style) args args')
    (h : b.Alike style c) : Except.Related (Alike style) (foldLeft name ts own b args)
      (foldLeft name ts style c args') := by
  induction rows generalizing b c with
  | nil => exact .ok h
  | cons one _ ih =>
    have pair := List.Forall₂.cons h (.cons one .nil)
    exact (related_fill pair (agrees_empty own style).alike).bind fun _ _ next => ih next

theorem related_apply (rows : List.Forall₂ (Alike style) args args') (h : b.Alike style c) :
    Except.Related (Alike style) (apply name template args b) (apply name template args' c) := by
  simp only [apply, ← rows.length_eq, h.style_eq]
  split
  · cases rows with
    | nil => exact .ok h
    | cons one others =>
      exact (related_foldLeft others one).bind fun _ _ done => (h.embed done).toExcept
  · exact related_fill rows h

end Template

theorem ColumnRef.alike_write (h : b.Agrees style c) (column : ColumnRef) :
    (column.write scope b).Alike style (column.write (scope.withPlaceholder style) c) := by
  have lookup : (scope.withPlaceholder style).qualifierFor column = scope.qualifierFor column := rfl
  simp only [ColumnRef.write, lookup]
  split
  · exact ((h.appendName _).alike.append _).append _
  · exact (h.appendName _).alike

theorem RawPart.related_writeAll (binds : List BindVariable) (parts : List RawPart)
    (h : b.Alike style c) :
    (RawPart.writeAll binds b parts).Related style (RawPart.writeAll binds c parts) := by
  induction parts generalizing b c with
  | nil => exact ⟨h, rfl⟩
  | cons part parts ih =>
    cases part with
    | text s => exact ih (h.append s)
    | literal s => exact ih (h.appendKept s)
    | bind i =>
      simp only [RawPart.writeAll]
      cases binds[i]? with
      | none => exact ih h
      | some v =>
        obtain ⟨alike, same⟩ := h.appendBind v
        dsimp only
        generalize b.appendBind v = x, c.appendBind v = y at alike same ⊢
        obtain ⟨d, result⟩ := x
        obtain ⟨e, result'⟩ := y
        obtain rfl : result = result' := same
        cases result with
        | error fault => exact ⟨alike, rfl⟩
        | ok done => exact ih alike

theorem RawSql.related_write (h : b.Alike style c) (raw : RawSql) :
    Except.Related (Alike style) (raw.write scope b)
      (raw.write (scope.withPlaceholder style) c) := by
  have limit : (scope.withPlaceholder style).renderer.config.maxTokens =
      scope.renderer.config.maxTokens := rfl
  simp only [RawSql.write, limit]
  split
  · exact .error _
  · have parts : (b.wrapped 0 fun b => RawPart.writeAll raw.binds b raw.body.parts).Related style
        (c.wrapped 0 fun c => RawPart.writeAll raw.binds c raw.body.parts) := by
      obtain ⟨alike, same⟩ :=
        RawPart.related_writeAll raw.binds raw.body.parts (h.pushIndent (wrapLead 0))
      exact ⟨alike.popIndent, same⟩
    refine parts.toExcept.bind fun d e alike => .ok ?_
    split
    · exact alike.breakBeforeNext
    · exact alike

mutual

theorem Expr.related_write (e : Expr) {b c : Builder} (h : b.Agrees style c) :
    Except.Related (Alike style) (e.write scope b)
      (e.write (scope.withPlaceholder style) c) := by
  cases e with
  | literal v =>
    refine (Except.related_self (fun _ => rfl) _).bind ?_
    rintro s _ rfl
    exact .ok (h.alike.append s)
  | column column => exact .ok (ColumnRef.alike_write h column)
  | bind v => exact (h.alike.appendBind v).toExcept
  | call f args type =>
    rw [Expr.write, Expr.write, h.alike.style_eq]
    exact (Expr.related_writeArgs args _ _).bind fun _ _ rows => Template.related_apply rows h.alike
  | raw sql type => exact RawSql.related_write h.alike sql

theorem Expr.related_writeArgs (args : List Expr) (isOperator : Bool) (own : PlaceholderStyle) :
    Except.Related (List.Forall₂ (Alike style)) (Expr.writeArgs scope isOperator own args)
      (Expr.writeArgs (scope.withPlaceholder style) isOperator style args) := by
  cases args with
  | nil => exact .ok .nil
  | cons arg rest =>
    rw [Expr.writeArgs, Expr.writeArgs]
    have others := Expr.related_writeArgs rest isOperator own
    split
    · next inside =>
      have opened := (agrees_empty own style).append ['(']
      refine (Expr.related_write arg opened).bind fun _ _ alike => ?_
      refine others.bind fun _ _ rows => .ok (.cons (alike.append [')']) rows)
    · refine (Expr.related_write arg (agrees_empty own style)).bind fun _ _ alike => ?_
      exact others.bind fun _ _ rows => .ok (.cons alike rows)

end

namespace Condition

def Piece.isOperand : Piece → Bool
  | .compare .. | .isNull .. | .raw _ | .always | .never => true
  | .and | .or | .not | .opening | .closing => false

/-- A row in which a connective stands between any two operands. -/
inductive Row : List Piece → Prop
  | operand {p : Piece} (single : p.isOperand = true) : Row [p]
  | not {ps : List Piece} (inner : Row ps) : Row (.not :: ps)
  | group {ps : List Piece} (inner : Row ps) : Row (.opening :: ps ++ [.closing])
  | join {joiner : Piece} (connects : joiner = .and ∨ joiner = .or) {ps qs : List Piece}
    (left : Row ps) (right : Row qs) : Row (ps ++ joiner :: qs)

theorem Row.joined {joiner : Piece} (connects : joiner = .and ∨ joiner = .or)
    {first : List Piece} {rows : List (List Piece)} (start : Row first)
    (all : ∀ row ∈ rows, Row row) : Row (first ++ rows.flatMap fun row => joiner :: row) := by
  induction rows generalizing first with
  | nil =>
    rw [List.flatMap_nil, List.append_nil]
    exact start
  | cons row rows ih =>
    obtain ⟨own, later⟩ := List.forall_mem_cons.mp all
    have whole := ih (start.join connects own) later
    rw [List.append_assoc] at whole
    rw [List.flatMap_cons]
    exact whole

theorem row_group {joiner : Piece} (connects : joiner = .and ∨ joiner = .or)
    {rows : List (List Piece)} (all : ∀ row ∈ rows, Row row) : Row (Condition.group joiner rows) := by
  match rows with
  | [] => exact .operand rfl
  | [row] => exact all row (by simp)
  | first :: second :: rest =>
    obtain ⟨own, later⟩ := List.forall_mem_cons.mp all
    exact (own.joined connects later).group

mutual

theorem row_pieces (c : Condition) : Row c.pieces := by
  cases c with
  | compare left op right =>
    rw [pieces]
    split <;> exact .operand rfl
  | isNull expr negated => exact .operand rfl
  | and cs =>
    rw [pieces]
    split
    · exact .operand rfl
    · exact row_group (.inl rfl) (row_livePieces cs)
  | or cs =>
    rw [pieces]
    split
    · exact .operand rfl
    · exact row_group (.inr rfl) (row_branchPieces cs)
  | not c =>
    rw [pieces]
    split
    · exact (row_pieces c).not
    · exact (row_pieces c).group.not
  | raw sql => exact .operand rfl
  | empty => exact .operand rfl

theorem row_livePieces (cs : List Condition) : ∀ row ∈ livePieces cs, Row row := by
  cases cs with
  | nil => simp [livePieces]
  | cons c cs =>
    rw [livePieces]
    split
    · exact row_livePieces cs
    · exact List.forall_mem_cons.mpr ⟨row_pieces c, row_livePieces cs⟩

theorem row_branchPieces (cs : List Condition) : ∀ row ∈ branchPieces cs, Row row := by
  cases cs with
  | nil => simp [branchPieces]
  | cons c cs =>
    rw [branchPieces]
    exact List.forall_mem_cons.mpr ⟨row_pieces c, row_branchPieces cs⟩

end

def Steady (scope : Scope) (style : PlaceholderStyle) (ps : List Piece) : Prop :=
  ∀ b c : Builder, b.Agrees style c → Except.Related (Alike style) (Piece.writeAll scope b ps)
    (Piece.writeAll (scope.withPlaceholder style) c ps)

theorem Piece.related_write {p : Piece} (h : b.Agrees style c) :
    Except.Related (Alike style) (p.write scope b)
      (p.write (scope.withPlaceholder style) c) := by
  cases p with
  | compare left op right =>
    rw [Piece.write, Piece.write, h.alike.style_eq]
    exact (Expr.related_writeArgs _ _ _).bind fun _ _ rows => Template.related_apply rows h.alike
  | isNull expr negated =>
    exact (Expr.related_write expr h).bind fun _ _ alike => .ok (alike.append _)
  | raw sql => exact RawSql.related_write h.alike sql
  | _ => exact .ok (h.alike.append _)

theorem Piece.related_write_agrees {p : Piece} (between : p.isOperand = false)
    (h : b.Alike style c) :
    Except.Related (Agrees style) (p.write scope b)
      (p.write (scope.withPlaceholder style) c) := by
  cases p with
  | compare | isNull | raw | always | never => cases between
  | _ => exact .ok (h.append_agrees (by decide))

theorem Row.steady {ps : List Piece} (h : Row ps) : Steady scope style ps := by
  induction h with
  | operand single =>
    intro b c agree
    exact (Piece.related_write agree).bind fun _ _ alike => .ok alike
  | not _ ih =>
    intro b c agree
    exact (Piece.related_write_agrees rfl agree.alike).bind ih
  | group _ ih =>
    intro b c agree
    rw [List.cons_append]
    refine (Piece.related_write_agrees rfl agree.alike).bind fun d e opened => ?_
    rw [Piece.writeAll_append, Piece.writeAll_append]
    refine (ih d e opened).bind fun d e inside => ?_
    exact (Piece.related_write_agrees rfl inside).bind fun _ _ closed => .ok closed.alike
  | @join joiner connects _ _ _ _ left right =>
    intro b c agree
    rw [Piece.writeAll_append, Piece.writeAll_append]
    refine (left b c agree).bind fun d e alike => ?_
    have between : joiner.isOperand = false := by rcases connects with rfl | rfl <;> rfl
    exact (Piece.related_write_agrees between alike).bind right

theorem related_write (condition : Condition) (h : b.Agrees style c) :
    Except.Related (Alike style) (condition.write scope b)
      (condition.write (scope.withPlaceholder style) c) :=
  (row_pieces condition).steady b c h

end Condition

def Writer.Matches (style : PlaceholderStyle) (w w' : Writer) : Prop :=
  ∀ b c : Builder, b.Agrees style c → Except.Related (Alike style) (w b) (w' c)

section Clause

variable {lead rest keyword : Text} {item item' : Writer} {items items' : List Writer}

theorem Writer.Matches.writeItem (same : item.Matches style item') (h : b.Agrees style c) :
    Except.Related (Agrees style) (writeItem lead rest item b) (writeItem lead rest item' c) :=
  (same _ _ (h.pushIndent _)).bind fun _ _ alike => .ok alike.endLine.popIndent

theorem related_writeItems (same : List.Forall₂ (Writer.Matches style) items items')
    (h : b.Agrees style c) : Except.Related (Agrees style) (writeItems lead rest b items)
      (writeItems lead rest c items') := by
  induction same generalizing b c with
  | nil => exact .ok h
  | cons one _ ih => exact (one.writeItem h).bind fun _ _ next => ih next

theorem related_writeClause (same : List.Forall₂ (Writer.Matches style) items items')
    (h : b.Alike style c) : Except.Related (Agrees style)
      (writeClause scope keyword lead items b)
      (writeClause (scope.withPlaceholder style) keyword lead items' c) := by
  have headed := (h.append keyword).endLine
  cases same with
  | nil => exact .ok headed
  | cons one others =>
    exact (one.writeItem headed).bind fun _ _ next => related_writeItems others next

theorem matches_fromItems (same : List.Forall₂ (Writer.Matches style) items items') :
    List.Forall₂ (Writer.Matches style) (fromItems items) (fromItems items') := by
  cases same with
  | nil => exact .cons (fun b c h => .ok (h.alike.append dualText)) .nil
  | cons one others => exact .cons one others

theorem matches_map {α : Type} {f g : α → Writer} (same : ∀ x, (f x).Matches style (g x))
    (xs : List α) : List.Forall₂ (Writer.Matches style) (xs.map f) (xs.map g) := by
  rw [List.forall₂_map_left_iff, List.forall₂_map_right_iff, List.forall₂_same]
  exact fun x _ => same x

end Clause

theorem alike_writeAlias (h : b.Alike style c) (a : Option SimpleName) :
    (writeAlias b a).Alike style (writeAlias c a) := by
  cases a with
  | none => exact h
  | some a => exact (h.append _).append _

theorem SelectColumn.write_matches (column : SelectColumn) :
    (column.write scope).Matches style (column.write (scope.withPlaceholder style)) :=
  fun _ _ h => (Expr.related_write column.expr h).bind fun _ _ alike =>
    .ok (alike_writeAlias alike _)

theorem SelectColumn.writers_match (columns : List SelectColumn) :
    List.Forall₂ (Writer.Matches style) (columns.map fun column => column.write scope)
      (columns.map fun column => column.write (scope.withPlaceholder style)) :=
  matches_map SelectColumn.write_matches columns

theorem Condition.writers_match (items : List Condition) :
    List.Forall₂ (Writer.Matches style) (items.map fun item => item.write scope)
      (items.map fun item => item.write (scope.withPlaceholder style)) :=
  matches_map (fun item _ _ agree => Condition.related_write item agree) items

mutual

theorem Source.write_matches (source : Source) {scope : Scope} :
    Writer.Matches style (fun b => source.write scope b)
      (fun b => source.write (scope.withPlaceholder style) b) := by
  intro b c h
  cases source with
  | table name aliasName => exact .ok (alike_writeAlias (h.appendName _).alike _)
  | subselect select aliasName =>
    have own : b.sibling.Agrees style c.sibling := by
      obtain rfl := h
      exact agrees_empty b.style style
    have opened := ((h.alike.append ['(']).endLine.pushIndent
      (.spaces scope.renderer.config.indent)).alike
    dsimp only
    rw [Source.write, Source.write]
    refine (Select.related_write select own.alike).bind fun _ _ inner => ?_
    refine (opened.embed inner.alike).toExcept.bind fun _ _ outer => .ok ?_
    exact alike_writeAlias (outer.popIndent.append [')']) _
  | raw sql aliasName =>
    exact (RawSql.related_write h.alike sql).bind fun _ _ alike => .ok (alike_writeAlias alike _)

theorem Source.writers_match (sources : List Source) {scope : Scope} :
    List.Forall₂ (Writer.Matches style) (Source.writers scope sources)
      (Source.writers (scope.withPlaceholder style) sources) := by
  cases sources with
  | nil => exact .nil
  | cons source sources =>
    exact .cons (Source.write_matches source) (Source.writers_match sources)

theorem Select.related_write (select : Select) {scope : Scope} {b c : Builder}
    (h : b.Alike style c) : Except.Related (Agrees style) (select.write scope b)
      (select.write (scope.withPlaceholder style) c) := by
  obtain ⟨columns, sources, condition⟩ := select
  rw [Select.write, Select.write]
  refine (related_writeClause (SelectColumn.writers_match columns) h).bind fun _ _ list => ?_
  refine (related_writeClause (matches_fromItems (Source.writers_match sources))
    list.alike).bind fun _ _ both => ?_
  split
  · exact .ok both
  · exact related_writeClause (Condition.writers_match condition.items) both.alike

end

end Write

/-- A text with placeholders, numbered from `k` on, and a text of `rest` behind each of them. -/
def markedText (style : PlaceholderStyle) (k : Nat) (first : Text) : List Text → Text
  | [] => first
  | next :: rest => first ++ style.marker k ++ markedText style (k + 1) next rest

theorem markedText_cons (char : Char) (k : Nat) (first : Text) (rest : List Text) :
    markedText style k (char :: first) rest = char :: markedText style k first rest := by
  cases rest <;> rfl

theorem exists_markedText {cells : List Cell} {k n : Nat}
    (numbered : markerPositions cells = List.range' k n) :
    ∃ first rest, rest.length = n ∧
      ∀ style, codeText style cells = markedText style k first rest := by
  induction cells generalizing k n with
  | nil =>
    have none : n = 0 := by simpa [markerPositions] using numbered.symm
    exact ⟨[], [], none.symm, fun _ => rfl⟩
  | cons cell cells ih =>
    have visible : ∀ char, (∀ style, cell.text style = [char]) → cell.position? = none →
        ∃ first rest, rest.length = n ∧
          ∀ style, codeText style (cell :: cells) = markedText style k first rest := by
      intro char text position
      rw [markerPositions_cons, position] at numbered
      obtain ⟨first, rest, length, same⟩ := ih numbered
      refine ⟨char :: first, rest, length, fun style => ?_⟩
      rw [markedText_cons, ← same style]
      simp [codeText, text style]
    cases cell with
    | char char => exact visible char (fun _ => rfl) rfl
    | kept char => exact visible char (fun _ => rfl) rfl
    | marker position =>
      cases n with
      | zero => cases numbered
      | succ n =>
        obtain ⟨rfl, behind⟩ := List.cons.inj numbered
        obtain ⟨first, rest, length, same⟩ := ih behind
        refine ⟨[], first :: rest, congrArg Nat.succ length, fun style => ?_⟩
        rw [markedText, ← same style]
        rfl

theorem Builder.Alike.finish (h : b.Alike style c) : c.finish = { b.finish with style } := by
  obtain ⟨wordTail, rfl⟩ := h
  rfl

namespace Query

theorem related_render (r : Renderer) (style : PlaceholderStyle) (q : Query) :
    Except.Related (fun stmt other => other = { stmt with style }) (q.render r)
      (q.render (r.withPlaceholder style)) := by
  have own := agrees_empty r.config.placeholder style
  cases q with
  | expr e => exact (Expr.related_write e own).bind fun _ _ alike => .ok alike.finish
  | condition c => exact (Condition.related_write c own).bind fun _ _ alike => .ok alike.finish
  | select s =>
    exact (Select.related_write s own.alike).bind fun _ _ agree => .ok agree.alike.finish

/-- With dollar signs a query is rendered if and only if it is with question marks. The variables
are the same then, and so is the text between the placeholders. -/
theorem render_dollar (r : Renderer) (q : Query) :
    ((∃ asked, q.render (r.withPlaceholder .question) = .ok asked) ↔
      ∃ numbered, q.render (r.withPlaceholder .dollar) = .ok numbered) ∧
    ∀ asked numbered, q.render (r.withPlaceholder .question) = .ok asked →
      q.render (r.withPlaceholder .dollar) = .ok numbered →
      numbered.binds = asked.binds ∧ numbered.boundVariables = asked.boundVariables ∧
      ∃ first rest, rest.length = asked.placeholderCount ∧
        asked.sql = markedText .question 1 first rest ∧
        numbered.sql = markedText .dollar 1 first rest := by
  have asks := related_render r .question q
  have numbers := related_render r .dollar q
  cases known : q.render r with
  | error e =>
    rw [known] at asks numbers
    generalize q.render (r.withPlaceholder .question) = x at asks ⊢
    generalize q.render (r.withPlaceholder .dollar) = y at numbers ⊢
    cases asks
    cases numbers
    simp
  | ok stmt =>
    obtain ⟨b, held, rfl⟩ := holds_render (PrintOrder.fits_ofRenderer r) q known
    obtain ⟨first, rest, length, texts⟩ := exists_markedText held.markers
    rw [known] at asks numbers
    generalize q.render (r.withPlaceholder .question) = x at asks ⊢
    generalize q.render (r.withPlaceholder .dollar) = y at numbers ⊢
    cases asks with
    | ok same =>
    cases numbers with
    | ok same' =>
    refine ⟨by simp, ?_⟩
    rintro _ _ ⟨⟩ ⟨⟩
    subst same same'
    exact ⟨rfl, rfl, first, rest, length.trans held.placeholderCount.symm, texts .question,
      texts .dollar⟩

def adjacentSample : Query :=
  let p := Expr.bind (.unvalued ⟨"P", by decide⟩ .text)
  let q := Expr.bind (.unvalued ⟨"Q", by decide⟩ .text)
  let mid := Expr.column ⟨none, .unquoted "mid" (by decide), .text⟩
  .expr (.call .stringConcat [p, mid, q] .text)

def adjacentRenderer : Renderer :=
  Renderer.defaults.withTemplate .stringConcat "\x7b0\x7d\x7b1\x7d"

def adjacentStatement (style : PlaceholderStyle) : Statement :=
  { code := [.marker 1, .char 'm', .char 'i', .char 'd', .marker 2]
    ledger := [⟨.unvalued ⟨"P", by decide⟩ .text, [1]⟩, ⟨.unvalued ⟨"Q", by decide⟩ .text, [2]⟩]
    style }

theorem render_adjacent (style : PlaceholderStyle) :
    adjacentSample.render (adjacentRenderer.withPlaceholder style) =
      .ok (adjacentStatement style) := by
  cases style <;> decide +kernel

theorem render_dollar_sample :
    (adjacentStatement .question).sql = "?mid?".toList ∧
    (adjacentStatement .dollar).sql = "$1mid$2".toList ∧
    (adjacentStatement .dollar).binds = (adjacentStatement .question).binds ∧
    ∃ first rest, rest.length = (adjacentStatement .question).placeholderCount ∧
      (adjacentStatement .question).sql = markedText .question 1 first rest ∧
      (adjacentStatement .dollar).sql = markedText .dollar 1 first rest := by
  obtain ⟨binds, -, texts⟩ := (render_dollar adjacentRenderer adjacentSample).2 _ _
    (render_adjacent .question) (render_adjacent .dollar)
  exact ⟨by decide +kernel, by decide +kernel, binds, texts⟩

end Query

end SqlCompose
