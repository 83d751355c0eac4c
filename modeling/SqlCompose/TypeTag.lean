import SqlCompose.Text.Basic

/-! Logical types. They form a small tree: `int`, `float` and `decimal` are numbers, `date`,
`time` and `timestamp` are temporal, and everything is below `any`. Types that a caller adds
are named domain types directly below `any`. -/

namespace SqlCompose

inductive TypeTag where
  | any
  | bool
  | number
  | int
  | float
  | decimal
  | text
  | temporal
  | date
  | time
  | timestamp
  | uuid
  | domain (name : Text)
  deriving DecidableEq

namespace TypeTag

def parent : TypeTag → Option TypeTag
  | any => none
  | int | float | decimal => some number
  | date | time | timestamp => some temporal
  | bool | number | text | temporal | uuid | domain _ => some any

def supertypes : TypeTag → List TypeTag
  | any => []
  | int | float | decimal => [number, any]
  | date | time | timestamp => [temporal, any]
  | bool | number | text | temporal | uuid | domain _ => [any]

def chain (t : TypeTag) : List TypeTag :=
  t :: t.supertypes

theorem chain_eq (t : TypeTag) :
    t.chain = t :: (t.parent.map chain).getD [] := by
  cases t <;> rfl

/-- Whether a value of type `other` may stand where `t` is expected. -/
def accepts (t other : TypeTag) : Bool :=
  other.chain.contains t

def isOrderable : TypeTag → Bool
  | number | int | float | decimal | text | temporal | date | time | timestamp => true
  | any | bool | uuid | domain _ => false

def isNumeric (t : TypeTag) : Bool :=
  number.accepts t

def name : TypeTag → Text
  | any => "Any"
  | bool => "Bool"
  | number => "Number"
  | int => "Int"
  | float => "Float"
  | decimal => "Decimal"
  | text => "Text"
  | temporal => "Temporal"
  | date => "Date"
  | time => "Time"
  | timestamp => "Timestamp"
  | uuid => "Uuid"
  | domain n => "Domain(" ++ n ++ ")"

end TypeTag

end SqlCompose
