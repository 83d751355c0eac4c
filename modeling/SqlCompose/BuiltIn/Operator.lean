import SqlCompose.BuiltIn.Function

/-! Comparison operators of conditions. -/

namespace SqlCompose

inductive Comparison where
  | equal
  | notEqual
  | less
  | lessOrEqual
  | greater
  | greaterOrEqual
  | like
  deriving DecidableEq

namespace Comparison

def name : Comparison → Text
  | equal => "EQUAL"
  | notEqual => "NOT_EQUAL"
  | less => "LESS"
  | lessOrEqual => "LESS_OR_EQUAL"
  | greater => "GREATER"
  | greaterOrEqual => "GREATER_OR_EQUAL"
  | like => "LIKE"

def all : List Comparison :=
  [equal, notEqual, less, lessOrEqual, greater, greaterOrEqual, like]

def ofName? (name : Text) : Option Comparison :=
  all.find? fun op => op.name = name

def template : Comparison → Text
  | equal => "\x7b0\x7d = \x7b1\x7d"
  | notEqual => "\x7b0\x7d <> \x7b1\x7d"
  | less => "\x7b0\x7d < \x7b1\x7d"
  | lessOrEqual => "\x7b0\x7d <= \x7b1\x7d"
  | greater => "\x7b0\x7d > \x7b1\x7d"
  | greaterOrEqual => "\x7b0\x7d >= \x7b1\x7d"
  | like => "\x7b0\x7d LIKE \x7b1\x7d"

def isOrdering : Comparison → Bool
  | less | lessOrEqual | greater | greaterOrEqual => true
  | equal | notEqual | like => false

/-- Operands have one type, where `any` stands for the type of the other operand. An order needs
an ordered type, and `like` needs texts. -/
def check (op : Comparison) (left right : TypeTag) : Except SqlError Unit :=
  let misuse := fun fault => Except.error (SqlError.misuse op.name fault)
  if left ≠ right ∧ left ≠ .any ∧ right ≠ .any then misuse (.operandsDiffer left right)
  else
    match knownType [left, right] with
    | none => .ok ()
    | some t =>
      if op.isOrdering && !t.isOrderable then misuse (.notOrderable t)
      else if op = .like ∧ t ≠ .text then misuse (.notText t)
      else .ok ()

end Comparison

end SqlCompose
