import SqlCompose.Render.Condition
import SqlCompose.Statement

/-! Rendering selects. Each clause keyword stands on a line of its own, and so does each item of a
clause, one level in; items behind the first are led by a comma, or by `AND` in a `WHERE`
clause. -/

namespace SqlCompose

def dualText : Text := "dual"

abbrev Writer := Builder → Except SqlError Builder

def writeAlias (b : Builder) : Option SimpleName → Builder
  | none => b
  | some a => (b.append [' ']).append a.sql

def SelectColumn.write (scope : Scope) (c : SelectColumn) : Writer := fun b => do
  .ok (writeAlias (← c.expr.write scope b) c.aliasName)

def writeItem (lead rest : Text) (item : Writer) : Writer := fun b => do
  let b ← item (b.pushIndent (.firstLine lead rest))
  .ok b.endLine.popIndent

def writeItems (lead rest : Text) (b : Builder) : List Writer → Except SqlError Builder
  | [] => .ok b
  | item :: items => do writeItems lead rest (← writeItem lead rest item b) items

/-- Writes the items of a clause below its keyword; items behind the first are led by `lead`. -/
def writeClause (scope : Scope) (keyword lead : Text) (items : List Writer) : Writer := fun b => do
  let rest := scope.renderer.config.indentText
  let b := (b.append keyword).endLine
  match items with
  | [] => .ok b
  | item :: items => writeItems lead rest (← writeItem rest rest item b) items

def commaLead (c : RenderConfig) : Text :=
  Text.spaces (c.indent - 2) ++ ", "

/-- The lead of conditions behind the first. As in `Builder.wrapLead`, widths near the end of the
machine word are out of scope. -/
def andLead (c : RenderConfig) : Text :=
  Text.padRight c.indent "AND "

/-- The items of the `FROM` clause; without sources it reads from the table of one row. -/
def fromItems (items : List Writer) : List Writer :=
  if items.isEmpty then [fun b => .ok (b.append dualText)] else items

mutual

def Source.write (scope : Scope) (b : Builder) : Source → Except SqlError Builder
  | .table name aliasName => .ok (writeAlias (b.appendName name.sql) aliasName)
  | .subselect select aliasName => do
    let inner ← Select.write scope b.sibling select
    let b := (b.append ['(']).endLine
    let b ← ((b.pushIndent (.spaces scope.renderer.config.indent)).embed inner).toExcept
    .ok (writeAlias (b.popIndent.append [')']) (some aliasName))
  | .raw sql aliasName => do .ok (writeAlias (← sql.write scope b) aliasName)

def Source.writers (scope : Scope) : List Source → List Writer
  | [] => []
  | s :: rest => (fun b => Source.write scope b s) :: Source.writers scope rest

def Select.write (scope : Scope) (b : Builder) : Select → Except SqlError Builder
  | ⟨columns, sources, condition⟩ => do
    let inside := scope.enter sources
    let config := scope.renderer.config
    let b ← writeClause scope "SELECT" (commaLead config)
      (columns.map fun c => c.write inside) b
    let b ← writeClause scope "FROM" (commaLead config)
      (fromItems (Source.writers inside sources)) b
    match condition.items with
    | [] => .ok b
    | items =>
      writeClause scope "WHERE" (andLead config) (items.map fun c => c.write inside) b

end

namespace Select

variable {scope : Scope} {b : Builder} {columns : List SelectColumn} {sources : List Source}
  {condition : Condition}

theorem write_of_items_eq_nil (none : condition.items = []) :
    Select.write scope b ⟨columns, sources, condition⟩ =
      Select.write scope b ⟨columns, sources, .empty⟩ := by
  simp only [Select.write, none]
  rfl

theorem write_of_items_ne_nil (some : condition.items ≠ []) :
    Select.write scope b ⟨columns, sources, condition⟩ =
      Select.write scope b ⟨columns, sources, .empty⟩ >>=
        writeClause scope "WHERE" (andLead scope.renderer.config)
          (condition.items.map fun c => c.write (scope.enter sources)) := by
  have none : Condition.empty.items = [] := rfl
  simp only [Select.write, none, bind_assoc]
  cases known : condition.items with
  | nil => exact absurd known some
  | cons c cs => rfl

end Select

namespace Renderer

def statement (r : Renderer) (write : Scope → Writer) : Except SqlError Statement := do
  let b ← write (.outermost r) (Builder.empty r.config.placeholder)
  .ok b.finish

def renderExpr (r : Renderer) (e : Expr) : Except SqlError Statement :=
  r.statement fun scope b => e.write scope b

def renderCondition (r : Renderer) (c : Condition) : Except SqlError Statement :=
  r.statement fun scope b => c.write scope b

def render (r : Renderer) (s : Select) : Except SqlError Statement :=
  r.statement fun scope b => s.write scope b

end Renderer

end SqlCompose
