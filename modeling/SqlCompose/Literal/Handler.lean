import SqlCompose.Literal.Escape
import SqlCompose.Params

/-! Handlers: for one logical type its SQL type name, the literals of its values and the
parameters that are sent for them. -/

namespace SqlCompose

/-- The handlers for the kinds of values. Those that a caller makes, of any functions for the name of
the type, the literals and the parameters, are left out, here and in registries. -/
inductive Handler where
  | bool
  | int
  | float
  | decimal
  | text
  | date
  | time
  | timestamp
  | uuid
  /-- Handles values of a domain type like the values that represent them. -/
  | domain (sqlType : Text) (base : Handler)
  deriving DecidableEq

namespace Handler

def sqlType : Handler → Text
  | bool => "BOOLEAN"
  | int => "BIGINT"
  | float => "DOUBLE PRECISION"
  | decimal => "NUMERIC"
  | text => "VARCHAR"
  | date => "DATE"
  | time => "TIME"
  | timestamp => "TIMESTAMP"
  | uuid => "UUID"
  | domain name _ => name

def literal : Handler → Value → Except SqlError Text
  | bool, .bool b => .ok (if b then "TRUE" else "FALSE")
  | int, .int n => .ok (Numeral.ofInt n)
  | float, .float x => if x.isFinite then .ok x.text else .error (.misuse "literal" (.notFinite x))
  | decimal, .decimal x => .ok x.text
  | text, .text s => .ok (TextLiteral.encode s)
  | date, .date d => .ok ("DATE '" ++ d.text ++ ['\''])
  | time, .time t => .ok ("TIME '" ++ t.text ++ ['\''])
  | timestamp, .timestamp t => .ok ("TIMESTAMP '" ++ t.text ++ ['\''])
  | uuid, .uuid u => .ok ('\'' :: u.text ++ ['\''])
  | domain _ base, .domain _ v => base.literal v
  | domain _ base, v => base.literal v
  | _, v => .error (.noHandler v.typeTag)

def param : Handler → Option Value → Except SqlError Param
  | domain _ base, some (.domain _ v) => base.param (some v)
  | domain _ base, v => base.param v
  | _, none => .ok .null
  | bool, some (.bool b) => .ok (.value (.bool b))
  | int, some (.int n) => .ok (.value (.int n))
  | float, some (.float x) => .ok (.value (.float x))
  | decimal, some (.decimal x) => .ok (.value (.decimal x))
  | text, some (.text s) => .ok (.value (.text s))
  | date, some (.date d) => .ok (.value (.date d))
  | time, some (.time t) => .ok (.value (.time t))
  | timestamp, some (.timestamp t) => .ok (.value (.timestamp t))
  | uuid, some (.uuid u) => .ok (.value (.uuid u))
  | _, some v => .error (.noHandler v.typeTag)

end Handler

end SqlCompose
