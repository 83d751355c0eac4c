import SqlCompose.BuiltIn.Operator
import SqlCompose.RawSql

/-! Typed scalar expressions. The types of a call are checked when it is made. -/

namespace SqlCompose

structure ColumnRef where
  table : Option NamePath
  column : SimpleName
  type : TypeTag
  deriving DecidableEq

def ColumnRef.ofPath (path : NamePath) (type : TypeTag) : ColumnRef :=
  ⟨NamePath.ofSegments path.qualifiers, path.last, type⟩

inductive Expr where
  | literal (v : Value)
  | column (c : ColumnRef)
  | bind (v : BindVariable)
  | call (f : BuiltIn) (args : List Expr) (type : TypeTag)
  | raw (sql : RawSql) (type : TypeTag)

namespace Expr

def typeTag : Expr → TypeTag
  | literal v => v.typeTag
  | column c => c.type
  | bind v => v.type
  | call _ _ type => type
  | raw _ type => type

/-- A column by its written name; its type is unknown if none is given. -/
def parseColumn (name : Text) (type : TypeTag) : Except SqlError Expr := do
  .ok (.column (.ofPath (← NamePath.parse name) type))

def apply (f : BuiltIn) (args : List Expr) : Except SqlError Expr := do
  .ok (.call f args (← f.resultType (args.map typeTag)))

def parseRaw (sql : Text) (binds : List BindVariable) (type : TypeTag) : Except SqlError Expr := do
  .ok (.raw (← RawSql.parse defaultTokenLimit sql binds) type)

def isOperator : Expr → Bool
  | call f _ _ => f.spec.isOperator
  | _ => false

mutual

def same : Expr → Expr → Bool
  | literal v, literal w => v.same w
  | column c, column d => c == d
  | bind v, bind w => v.same w
  | call f args s, call g brgs t => f == g && s == t && sameAll args brgs
  | raw a s, raw b t => a.same b && s == t
  | _, _ => false

def sameAll : List Expr → List Expr → Bool
  | [], [] => true
  | a :: as, b :: bs => a.same b && sameAll as bs
  | _, _ => false

end

end Expr

end SqlCompose
