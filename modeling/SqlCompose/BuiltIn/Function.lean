import SqlCompose.Error

/-! Built-in functions. What is special to a function is in its `spec`: how many arguments of
which types it takes, the type of its result, and the template that writes a call. -/

namespace SqlCompose

inductive BuiltIn where
  | stringConcat
  | upper
  | lower
  | trim
  | length
  | substr
  | instr
  | coalesce
  | add
  | subtract
  | multiply
  | divide
  | currentTimestamp
  deriving DecidableEq

/-- Which argument types a function takes. -/
inductive ArgumentRule where
  /-- A type for each position; the last one holds for all later positions as well. -/
  | each (types : List TypeTag)
  | sameType
  deriving DecidableEq

inductive ResultRule where
  | fixed (type : TypeTag)
  | firstKnown
  | commonNumeric
  deriving DecidableEq

structure FunctionSpec where
  name : Text
  minArgs : Nat
  maxArgs : Option Nat
  isOperator : Bool
  template : Text
  arguments : ArgumentRule
  result : ResultRule

/-- The first type that is not `any`; an argument of type `any` has an unknown type. -/
def knownType (types : List TypeTag) : Option TypeTag :=
  types.find? (· ≠ .any)

def isCompatible (wanted given : TypeTag) : Bool :=
  given == .any || wanted.accepts given

namespace ArgumentRule

def checkEach (number : Nat) : List TypeTag → List TypeTag → Except MisuseFault Unit
  | _, [] => .ok ()
  | [], _ :: _ => .ok ()
  | wanted :: rest, given :: more =>
    if isCompatible wanted given then
      checkEach (number + 1) (if rest = [] then [wanted] else rest) more
    else .error (.argumentType number wanted given)

def checkSame (wanted : TypeTag) (number : Nat) : List TypeTag → Except MisuseFault Unit
  | [] => .ok ()
  | given :: more =>
    if given = .any ∨ given = wanted then checkSame wanted (number + 1) more
    else .error (.argumentDiffers number given wanted)

def check (rule : ArgumentRule) (types : List TypeTag) : Except MisuseFault Unit :=
  match rule with
  | each wanted => checkEach 1 wanted types
  | sameType => checkSame ((knownType types).getD .any) 1 types

end ArgumentRule

def ResultRule.type (rule : ResultRule) (types : List TypeTag) : TypeTag :=
  match rule with
  | fixed t => t
  | firstKnown => (knownType types).getD .any
  | commonNumeric =>
    match types with
    | [] => .number
    | t :: rest => if rest.all (· == t) then t else .number

def FunctionSpec.takes (s : FunctionSpec) (n : Nat) : Bool :=
  s.minArgs ≤ n && s.maxArgs.all (n ≤ ·)

namespace BuiltIn

def textFunction (name template : Text) (result : TypeTag) : FunctionSpec :=
  ⟨name, 1, some 1, false, template, .each [.text], .fixed result⟩

def arithmetic (name : Text) (maxArgs : Option Nat) (template : Text) : FunctionSpec :=
  ⟨name, 2, maxArgs, true, template, .each [.number], .commonNumeric⟩

def spec : BuiltIn → FunctionSpec
  | stringConcat =>
    ⟨"STRING_CONCAT", 2, none, true, "\x7b0\x7d||\x7b1\x7d", .each [.text], .fixed .text⟩
  | upper => textFunction "UPPER" "UPPER(\x7b0\x7d)" .text
  | lower => textFunction "LOWER" "LOWER(\x7b0\x7d)" .text
  | trim => textFunction "TRIM" "TRIM(\x7b0\x7d)" .text
  | length => textFunction "LENGTH" "LENGTH(\x7b0\x7d)" .int
  | substr =>
    ⟨"SUBSTR", 2, some 3, false, "SUBSTR(\x7b*\x7d)", .each [.text, .int, .int], .fixed .text⟩
  | instr =>
    ⟨"INSTR", 2, some 2, false, "INSTR(\x7b1\x7d, \x7b0\x7d)", .each [.text], .fixed .int⟩
  | coalesce => ⟨"COALESCE", 2, none, false, "COALESCE(\x7b*\x7d)", .sameType, .firstKnown⟩
  | add => arithmetic "ADD" none "\x7b0\x7d + \x7b1\x7d"
  | subtract => arithmetic "SUBTRACT" (some 2) "\x7b0\x7d - \x7b1\x7d"
  | multiply => arithmetic "MULTIPLY" none "\x7b0\x7d * \x7b1\x7d"
  | divide => arithmetic "DIVIDE" (some 2) "\x7b0\x7d / \x7b1\x7d"
  | currentTimestamp =>
    ⟨"CURRENT_TIMESTAMP", 0, some 0, false, "CURRENT_TIMESTAMP", .each [], .fixed .timestamp⟩

def name (f : BuiltIn) : Text :=
  f.spec.name

def all : List BuiltIn :=
  [stringConcat, upper, lower, trim, length, substr, instr, coalesce, add, subtract, multiply,
    divide, currentTimestamp]

def ofName? (name : Text) : Option BuiltIn :=
  all.find? fun f => f.name = name

def resultType (f : BuiltIn) (types : List TypeTag) : Except SqlError TypeTag :=
  let s := f.spec
  if !s.takes types.length then
    .error (.misuse s.name (.argumentCount s.minArgs s.maxArgs types.length))
  else
    match s.arguments.check types with
    | .error fault => .error (.misuse s.name fault)
    | .ok () => .ok (s.result.type types)

end BuiltIn

end SqlCompose
