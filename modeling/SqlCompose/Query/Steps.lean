import SqlCompose.Query.Select

/-! Writing a select step by step. No step fails on the spot: the first error is kept until the
select is built, so that a whole select can be written as one chain. -/

namespace SqlCompose

/-- A step, with its arguments as they are written. -/
inductive SelectStep where
  | source (name aliasName : Text)
  | table (name : Text)
  | subselect (select : Select) (aliasName : Text)
  | rawSource (sql : Text) (aliasName : Option Text) (binds : List BindVariable)
  | column (name : Text) (type : TypeTag)
  | columnAliased (name aliasName : Text)
  | expr (e : Expr)
  | exprAliased (e : Expr) (aliasName : Text)
  | tryExpr (e : Except SqlError Expr)
  | rawColumn (sql : Text) (aliasName : Option Text) (binds : List BindVariable)
  | where (c : Condition)
  | tryWhere (c : Except SqlError Condition)
  | rawWhere (sql : Text) (binds : List BindVariable)

inductive SelectPart where
  | column (c : SelectColumn)
  | source (s : Source)
  | condition (c : Condition)

def SelectStep.part : SelectStep → Except SqlError SelectPart
  | source name aliasName => (Source.parseAliased name aliasName).map .source
  | table name => (Source.parseTable name).map .source
  | subselect select aliasName => (Source.parseSubselect select aliasName).map .source
  | rawSource sql aliasName binds => (Source.parseRaw sql aliasName binds).map .source
  | column name type => (Expr.parseColumn name type).map fun e => .column (.ofExpr e)
  | columnAliased name aliasName => do
    .ok (.column (← SelectColumn.aliased (← Expr.parseColumn name .any) aliasName))
  | expr e => .ok (.column (.ofExpr e))
  | exprAliased e aliasName => (SelectColumn.aliased e aliasName).map .column
  | tryExpr e => e.map fun e => .column (.ofExpr e)
  | rawColumn sql aliasName binds => (SelectColumn.parseRaw sql aliasName binds).map .column
  | .where c => .ok (.condition c)
  | tryWhere c => c.map .condition
  | rawWhere sql binds => (Condition.parseRaw sql binds).map .condition

/-- A select in the making, and the first error on the way. -/
structure SelectDraft where
  columns : List SelectColumn
  sources : List Source
  conditions : List Condition
  failure : Option SqlError

namespace SelectDraft

def empty : SelectDraft :=
  ⟨[], [], [], none⟩

def add (d : SelectDraft) : SelectPart → SelectDraft
  | .column c => { d with columns := d.columns ++ [c] }
  | .source s => { d with sources := d.sources ++ [s] }
  | .condition c => { d with conditions := d.conditions ++ [c] }

def step (d : SelectDraft) (s : SelectStep) : SelectDraft :=
  match s.part with
  | .ok part => d.add part
  | .error e => { d with failure := d.failure.or (some e) }

def build (d : SelectDraft) : Except SqlError Select :=
  match d.failure with
  | some e => .error e
  | none =>
    let condition := if d.conditions.isEmpty then .empty else Condition.all d.conditions
    Select.make d.columns d.sources condition

def ofSteps (steps : List SelectStep) : Except SqlError Select :=
  (steps.foldl step empty).build

end SelectDraft

end SqlCompose
