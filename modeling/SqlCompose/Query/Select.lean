import SqlCompose.Query.Condition

/-! Selects. A select reads columns from sources, and a source may be a select in turn. An alias
of a column, and a qualifier of a source, may stand only once in a select. -/

namespace SqlCompose

structure SelectColumn where
  expr : Expr
  aliasName : Option SimpleName

mutual

inductive Source where
  | table (name : NamePath) (aliasName : Option SimpleName)
  | subselect (select : Select) (aliasName : SimpleName)
  | raw (sql : RawSql) (aliasName : Option SimpleName)

structure Select where
  columns : List SelectColumn
  sources : List Source
  condition : Condition

end

namespace SelectColumn

def typeTag (c : SelectColumn) : TypeTag :=
  c.expr.typeTag

def ofExpr (e : Expr) : SelectColumn :=
  ⟨e, none⟩

def aliased (e : Expr) (aliasName : Text) : Except SqlError SelectColumn := do
  .ok ⟨e, some (← SimpleName.parse aliasName)⟩

def parseRaw (sql : Text) (aliasName : Option Text) (binds : List BindVariable) :
    Except SqlError SelectColumn := do
  let e ← Expr.parseRaw sql binds .any
  match aliasName with
  | none => .ok ⟨e, none⟩
  | some a => aliased e a

end SelectColumn

namespace Source

def parseTable (name : Text) : Except SqlError Source := do
  .ok (.table (← NamePath.parse name) none)

def parseAliased (name aliasName : Text) : Except SqlError Source := do
  let path ← NamePath.parse name
  .ok (.table path (some (← SimpleName.parse aliasName)))

def parseSubselect (select : Select) (aliasName : Text) : Except SqlError Source := do
  .ok (.subselect select (← SimpleName.parse aliasName))

def parseRaw (sql : Text) (aliasName : Option Text) (binds : List BindVariable) :
    Except SqlError Source := do
  let raw ← RawSql.parse defaultTokenLimit sql binds
  match aliasName with
  | none => .ok (.raw raw none)
  | some a => .ok (.raw raw (some (← SimpleName.parse a)))

def aliasName : Source → Option SimpleName
  | table _ a => a
  | subselect _ a => some a
  | raw _ a => a

/-- The name that qualifies columns of the source: its alias, or else the name of the table. -/
def qualifier (s : Source) : Option NamePath :=
  match s.aliasName, s with
  | some a, _ => some (.ofSimple a)
  | none, table name _ => some name
  | none, _ => none

/-- Whether a written qualifier refers to the source, by its alias or by the name of its table
or the end of that name. -/
def resolves (s : Source) (written : NamePath) : Bool :=
  s.aliasName.any (fun a => written == .ofSimple a)
    || match s with
      | table name _ => name.endsWith written
      | _ => false

end Source

namespace Select

def firstRepeated {α : Type} [DecidableEq α] (seen : List α) : List α → Option α
  | [] => none
  | x :: xs => if x ∈ seen then some x else firstRepeated (x :: seen) xs

theorem firstRepeated_eq_none_iff {α : Type} [DecidableEq α] (seen xs : List α) :
    firstRepeated seen xs = none ↔ xs.Nodup ∧ ∀ x ∈ xs, x ∉ seen := by
  induction xs generalizing seen with
  | nil => simp [firstRepeated]
  | cons x xs ih =>
    by_cases h : x ∈ seen
    · simp [firstRepeated, h]
    · simp only [firstRepeated, h, if_false, ih, List.nodup_cons, List.mem_cons, not_or]
      grind

/-- A select of at least one column in which no alias and no qualifier stands twice. -/
def make (columns : List SelectColumn) (sources : List Source) (condition : Condition) :
    Except SqlError Select :=
  if columns.isEmpty then .error (.misuse "SELECT" .noColumns)
  else
    match firstRepeated [] (columns.filterMap SelectColumn.aliasName) with
    | some a => .error (.duplicateAlias a.sql)
    | none =>
      match firstRepeated [] (sources.filterMap Source.qualifier) with
      | some q => .error (.duplicateAlias q.sql)
      | none => .ok ⟨columns, sources, condition⟩

def columnTypes (s : Select) : List TypeTag :=
  s.columns.map SelectColumn.typeTag

/-- Checks the columns from number `column` on against the types of a row. A column of unknown
type fits everywhere. -/
def checkColumns (column : Nat) : List TypeTag → List TypeTag → Except SqlError Unit
  | wanted :: rest, given :: more =>
    if given ≠ .any ∧ !wanted.accepts given then .error (.columnConflict column wanted given)
    else checkColumns (column + 1) rest more
  | _, _ => .ok ()

def checkRow (s : Select) (row : List TypeTag) : Except SqlError Unit :=
  if row.length ≠ s.columnTypes.length then .error (.rowShape row.length s.columnTypes.length)
  else checkColumns 1 row s.columnTypes

end Select

end SqlCompose
