import SqlCompose.Code.Builder
import SqlCompose.Literal.Registry

/-! Statements: finished SQL with its bind variables. Each variable stands once, in the order of
first use, with all the positions of its placeholders. -/

namespace SqlCompose

structure BindWithPosition where
  name : BindName
  type : TypeTag
  positions : List Nat
  deriving DecidableEq

structure Statement where
  code : List Cell
  ledger : Ledger
  style : PlaceholderStyle
  deriving DecidableEq

def LedgerEntry.withPosition (e : LedgerEntry) : BindWithPosition :=
  ⟨e.bind.name, e.bind.type, e.positions⟩

def Builder.finish (b : Builder) : Statement :=
  ⟨b.cells.toList, b.ledger, b.style⟩

namespace Statement

def sql (s : Statement) : Text :=
  codeText s.style s.code

def binds (s : Statement) : List BindWithPosition :=
  s.ledger.map LedgerEntry.withPosition

def boundVariables (s : Statement) : List BindVariable :=
  s.ledger.map LedgerEntry.bind

def placeholderCount (s : Statement) : Nat :=
  (s.binds.flatMap BindWithPosition.positions).length

def valueOf (s : Statement) (name : BindName) : Option Value :=
  (s.boundVariables.find? fun v => v.name = name).bind BindVariable.value

def bindAt (registry : Registry) (type : TypeTag) (v : Value) :
    Params → List Nat → Except SqlError Params
  | p, [] => .ok p
  | p, position :: rest => do
    bindAt registry type v (← registry.bind p position type (some v)) rest

/-- Sets the values of the variables of a ledger. A value comes from `overrides`, or else from
the query, and must be an instance of the type of its variable. -/
def bindEntries (registry : Registry) (overrides : List (BindName × Value)) :
    Params → List LedgerEntry → Except SqlError Params
  | p, [] => .ok p
  | p, e :: rest =>
    match (overrides.lookup e.bind.name).or e.bind.value with
    | none => .error (.unboundVariable e.bind.name.text)
    | some v =>
      if e.bind.type.admits v then do
        bindEntries registry overrides (← bindAt registry e.bind.type v p e.positions) rest
      else .error (.typeConflict e.bind.name.text e.bind.type v.typeTag)

def bindParams (s : Statement) (registry : Registry) (overrides : List (BindName × Value)) :
    Except SqlError Params :=
  bindEntries registry overrides (Params.ofSize s.placeholderCount) s.ledger

end Statement

end SqlCompose
