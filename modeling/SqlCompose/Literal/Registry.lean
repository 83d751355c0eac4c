import SqlCompose.Literal.Handler

/-! Registries of handlers by type. A type without a handler of its own is served by the
handler of its nearest supertype that has one. -/

namespace SqlCompose

/-- Registered handlers, all of them among those of `Handler`; every type stands at most once. -/
structure Registry where
  entries : List (TypeTag × Handler)
  deriving DecidableEq

namespace Registry

def empty : Registry := ⟨[]⟩

def find? (r : Registry) (t : TypeTag) : Option Handler :=
  r.entries.lookup t

def register (r : Registry) (t : TypeTag) (h : Handler) : Registry :=
  ⟨(t, h) :: r.entries.filter fun e => e.1 ≠ t⟩

def defaults : Registry :=
  ⟨[(.bool, .bool), (.int, .int), (.float, .float), (.decimal, .decimal), (.text, .text),
    (.date, .date), (.time, .time), (.timestamp, .timestamp), (.uuid, .uuid)]⟩

def handlerFor (r : Registry) (t : TypeTag) : Except SqlError Handler :=
  match t.chain.findSome? r.find? with
  | some h => .ok h
  | none => .error (.noHandler t)

def sqlType (r : Registry) (t : TypeTag) : Except SqlError Text :=
  (r.handlerFor t).map Handler.sqlType

def literal (r : Registry) (v : Value) : Except SqlError Text := do
  (← r.handlerFor v.typeTag).literal v

def bind (r : Registry) (p : Params) (position : Nat) (t : TypeTag) (v : Option Value) :
    Except SqlError Params := do
  let x ← (← r.handlerFor t).param v
  .ok (p.set position x)

@[simp] theorem find?_register_self (r : Registry) (t : TypeTag) (h : Handler) :
    (r.register t h).find? t = some h := by
  simp [register, find?]

def textLe : Text → Text → Bool
  | [], _ => true
  | _ :: _, [] => false
  | c :: s, d :: t => c < d || (c == d && textLe s t)

def describe (r : Registry) : Text :=
  let names := (r.entries.map fun e => e.1.name).mergeSort textLe
  "LiteralRegistry \x7b types: [" ++ Text.joinWith ", " (names.map Text.quoted) ++ "] \x7d"

end Registry

end SqlCompose
