import SqlCompose.Bind.Name

/-! Bind variables. A query may refer to one variable from several places; `combine` decides
whether two references agree and what they say together. -/

namespace SqlCompose

structure BindVariable where
  name : BindName
  type : TypeTag
  value : Option Value
  fits : value.all type.admits = true
  deriving DecidableEq

namespace BindVariable

def unvalued (name : BindName) (type : TypeTag) : BindVariable :=
  ⟨name, type, none, rfl⟩

theorem admits_typeTag (v : Value) : v.typeTag.admits v = true := by
  simp [TypeTag.admits, TypeTag.accepts, TypeTag.chain]

def ofValue (name : BindName) (v : Value) : BindVariable :=
  ⟨name, v.typeTag, some v, admits_typeTag v⟩

def withValue (name : BindName) (type : TypeTag) (v : Value) : Except SqlError BindVariable :=
  if h : type.admits v = true then .ok ⟨name, type, some v, h⟩
  else .error (.typeConflict name.text type v.typeTag)

/-- Equality with values compared as values. -/
def same (a b : BindVariable) : Bool :=
  a.name == b.name && a.type == b.type &&
    match a.value, b.value with
    | none, none => true
    | some v, some w => v.same w
    | _, _ => false

/-- The narrower of two types when one accepts the other. A value that only the first variable
has must be an instance of the narrower type. -/
def narrowed (a b : BindVariable) : Option TypeTag :=
  if b.type.accepts a.type then some a.type
  else if a.type.accepts b.type && a.value.all b.type.admits then some b.type
  else none

def mergedValue (a b : BindVariable) : Except SqlError (Option Value) :=
  match a.value, b.value with
  | none, none => .ok none
  | some v, none => .ok (some v)
  | none, some w => .ok (some w)
  | some v, some w =>
    if v.same w then .ok (some v)
    else .error (.valueConflict a.name.text v.display w.display)

def combine (a b : BindVariable) : Except SqlError BindVariable :=
  let conflict := SqlError.typeConflict a.name.text a.type b.type
  if a.name ≠ b.name then .error (.name (.distinctBinds a.name.text b.name.text))
  else
    match a.narrowed b with
    | none => .error conflict
    | some type =>
      match a.mergedValue b with
      | .error e => .error e
      | .ok value =>
        if h : value.all type.admits = true then .ok ⟨a.name, type, value, h⟩
        else .error conflict

end BindVariable

end SqlCompose
