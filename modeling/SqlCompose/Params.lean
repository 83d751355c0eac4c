import SqlCompose.Error

/-! Parameters of a statement, addressed by the position of their placeholder. -/

namespace SqlCompose

inductive Param where
  | null
  | value (v : Value)
  deriving DecidableEq

/-- Parameters by position, counted from one; a slot is empty until it is set. -/
structure Params where
  slots : List (Option Param)
  deriving DecidableEq

def Value.parameterText : Value → Text
  | .float x => x.parameterText
  | .timestamp t => t.textWith 'T'
  | .domain _ base => base.parameterText
  | v => v.display

namespace Param

def text : Param → Text
  | null => "Param(None)"
  | value v => "Param(" ++ v.parameterText ++ [')']

end Param

namespace Params

def ofSize (count : Nat) : Params :=
  ⟨List.replicate count none⟩

def size (p : Params) : Nat :=
  p.slots.length

def isEmpty (p : Params) : Bool :=
  p.slots.isEmpty

def get? (p : Params) (position : Nat) : Option Param :=
  if position = 0 then none else (p.slots[position - 1]?).join

/-- Sets a parameter and makes room for it where needed. There is no position zero. -/
def set (p : Params) (position : Nat) (x : Param) : Params :=
  if position = 0 then p
  else
    let grown := p.slots ++ List.replicate (position - p.slots.length) none
    ⟨grown.set (position - 1) (some x)⟩

def collect (position : Nat) : List (Option Param) → Except SqlError (List Param)
  | [] => .ok []
  | none :: _ => .error (.unboundPosition position)
  | some x :: rest => (collect (position + 1) rest).map (x :: ·)

def toList (p : Params) : Except SqlError (List Param) :=
  collect 1 p.slots

theorem get?_set_self (p : Params) {position : Nat} (h : position ≠ 0) (x : Param) :
    (p.set position x).get? position = some x := by
  have room : position - 1 < p.slots.length + (position - p.slots.length) := by omega
  simp [set, get?, h, room]

end Params

end SqlCompose
