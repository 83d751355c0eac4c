import SqlCompose.Text.Quoted
import SqlCompose.TypeTag
import SqlCompose.Value.Binary64
import SqlCompose.Value.FixedDecimal
import SqlCompose.Value.Calendar
import SqlCompose.Value.Uuid

/-! Values that stand in a query as literals or as the values of bind variables. -/

namespace SqlCompose

inductive Value where
  | bool (b : Bool)
  | int (n : Int)
  | float (x : Binary64)
  | decimal (x : FixedDecimal)
  | text (s : Text)
  | date (d : Date)
  | time (t : Time)
  | timestamp (t : Timestamp)
  | uuid (u : Uuid)
  /-- A value of a named domain type, by its representation. -/
  | domain (name : Text) (base : Value)
  deriving DecidableEq

namespace Value

def truthText (b : Bool) : Text :=
  if b then "true" else "false"

def typeTag : Value → TypeTag
  | bool _ => .bool
  | int _ => .int
  | float _ => .float
  | decimal _ => .decimal
  | text _ => .text
  | date _ => .date
  | time _ => .time
  | timestamp _ => .timestamp
  | uuid _ => .uuid
  | domain name _ => .domain name

def isDomain : Value → Bool
  | domain _ _ => true
  | _ => false

/-- Equality as values: numeric on floats and decimals, so that a NaN differs from itself, both
zeros are equal and places at the end of a decimal do not count. -/
def same : Value → Value → Bool
  | bool a, bool b => a == b
  | int a, int b => a == b
  | float a, float b => a.same b
  | decimal a, decimal b => a.same b
  | text a, text b => a == b
  | date a, date b => a == b
  | time a, time b => a == b
  | timestamp a, timestamp b => a == b
  | uuid a, uuid b => a == b
  | domain m a, domain n b => m == n && a.same b
  | _, _ => false

def display : Value → Text
  | bool b => truthText b
  | int n => Numeral.ofInt n
  | float x => x.text
  | decimal x => x.text
  | text s => s.quoted
  | date d => d.text
  | time t => t.text
  | timestamp t => t.text
  | uuid u => u.text
  | domain name base => name ++ '(' :: base.display ++ [')']

end Value

def TypeTag.admits (t : TypeTag) (v : Value) : Bool :=
  t.accepts v.typeTag

end SqlCompose
