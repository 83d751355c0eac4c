import SqlCompose.Value

/-! Why a query cannot be built, rendered or bound. Each error is a cause with its data, and
`SqlError.message` is the one place where causes become words. -/

namespace SqlCompose

inductive NameFault where
  | empty
  | nul
  | trailingDot (name : Text)
  | missingDot (name : Text) (found : Char)
  | unclosedQuote (name : Text)
  | emptyQuoted
  | badCharacter (name : Text) (found : Char)
  | emptySegment (name : Text)
  | qualified (name : Text)
  | emptyBind
  | bindStart (name : Text)
  | bindCharacter (name : Text) (found : Char)
  | distinctBinds (first second : Text)
  | other (reason : Text)
  deriving DecidableEq

inductive MisuseFault where
  | argumentCount (least : Nat) (most : Option Nat) (given : Nat)
  | argumentType (number : Nat) (wanted given : TypeTag)
  | argumentDiffers (number : Nat) (given wanted : TypeTag)
  | operandsDiffer (left right : TypeTag)
  | notOrderable (given : TypeTag)
  | notText (given : TypeTag)
  | emptySlot (slot : Nat)
  | notFinite (x : Binary64)
  | noColumns
  | other (reason : Text)
  deriving DecidableEq

inductive ConfigFault where
  | narrowIndent (given : Nat)
  | noTokens
  | notToml
  | other (reason : Text)
  deriving DecidableEq

inductive SqlError where
  | name (fault : NameFault)
  | typeConflict (bind : Text) (existing incoming : TypeTag)
  | columnConflict (column : Nat) (expected actual : TypeTag)
  | valueConflict (bind existing incoming : Text)
  | misuse (builtin : Text) (fault : MisuseFault)
  | noHandler (type : TypeTag)
  | unterminatedComment (line column : Nat)
  | unterminatedString (line column : Nat)
  | invalidCharacter (line column : Nat) (found : Char)
  | tooManyTokens (limit : Nat)
  | duplicateAlias (aliasName : Text)
  | bindCount (placeholders binds : Nat)
  | unboundVariable (bind : Text)
  | unboundPosition (position : Nat)
  | rowShape (expected actual : Nat)
  | config (fault : ConfigFault)
  deriving DecidableEq

namespace NameFault

def message : NameFault → Text
  | empty => "identifier cannot be empty"
  | nul => "identifier cannot contain NUL character"
  | trailingDot name => "trailing '.' in '" ++ name ++ "'"
  | missingDot name found =>
    "expected '.' between identifier parts of '" ++ name ++ "', got '" ++ found :: "'".toList
  | unclosedQuote name => "unclosed quoted identifier in '" ++ name ++ "'"
  | emptyQuoted => "empty quoted identifier"
  | badCharacter name found =>
    "invalid character '" ++ found :: "' in identifier '".toList ++ name ++ "'"
  | emptySegment name => "empty identifier segment in '" ++ name ++ "'"
  | qualified name => "'" ++ name ++ "' is a qualified name, expected a single identifier"
  | emptyBind => "bind name cannot be empty"
  | bindStart name => "bind name '" ++ name ++ "' must start with a letter"
  | bindCharacter name found =>
    "invalid character '" ++ found :: "' in bind name '".toList ++ name ++ "'"
  | distinctBinds first second => "cannot combine bind variables " ++ first ++ " and " ++ second
  | other reason => reason

end NameFault

namespace MisuseFault

def countText (least : Nat) : Option Nat → Text
  | none => "at least " ++ Numeral.ofNat least
  | some most =>
    if most = least then Numeral.ofNat most
    else Numeral.ofNat least ++ " to " ++ Numeral.ofNat most

def message : MisuseFault → Text
  | argumentCount least most given =>
    "expected " ++ countText least most ++ " argument(s), got " ++ Numeral.ofNat given
  | argumentType number wanted given =>
    "argument " ++ Numeral.ofNat number ++ " must be " ++ wanted.name ++ ", got " ++ given.name
  | argumentDiffers number given wanted =>
    "argument " ++ Numeral.ofNat number ++ " has type " ++ given.name ++ ", expected "
      ++ wanted.name
  | operandsDiffer left right => "operand types differ: " ++ left.name ++ " vs " ++ right.name
  | notOrderable given => "type " ++ given.name ++ " is not orderable"
  | notText given => "LIKE needs text operands, got " ++ given.name
  | emptySlot slot =>
    "template slot \x7b" ++ Numeral.ofNat slot ++ "\x7d has no argument"
  | notFinite x => "non-finite float " ++ x.text ++ " has no SQL literal"
  | noColumns => "at least one column is required"
  | other reason => reason

end MisuseFault

namespace ConfigFault

def message : ConfigFault → Text
  | narrowIndent given => "indent must be at least 2, got " ++ Numeral.ofNat given
  | noTokens => "max_tokens must be positive"
  | notToml => "TOML parse error"
  | other reason => reason

end ConfigFault

namespace SqlError

def placeText (line column : Nat) : Text :=
  Numeral.ofNat line ++ ':' :: Numeral.ofNat column

def message : SqlError → Text
  | name fault => "Invalid name: " ++ fault.message
  | typeConflict bind existing incoming =>
    "Type conflict for bind variable " ++ bind ++ ": " ++ existing.name ++ " vs "
      ++ incoming.name
  | columnConflict column expected actual =>
    "Type conflict for bind variable column " ++ Numeral.ofNat column ++ ": " ++ expected.name
      ++ " vs " ++ actual.name
  | valueConflict bind existing incoming =>
    "Value conflict for bind variable " ++ bind ++ ": " ++ existing ++ " vs " ++ incoming
  | misuse builtin fault => "Invalid arguments for " ++ builtin ++ ": " ++ fault.message
  | noHandler type => "No literal handler registered for type " ++ type.name
  | unterminatedComment line column =>
    "Unterminated comment starting at " ++ placeText line column
  | unterminatedString line column =>
    "Unterminated string literal starting at " ++ placeText line column
  | invalidCharacter line column found =>
    "Invalid character '" ++ found :: "' at ".toList ++ placeText line column
  | tooManyTokens limit => "Too many tokens: limit is " ++ Numeral.ofNat limit
  | duplicateAlias aliasName => "Duplicate alias: " ++ aliasName
  | bindCount placeholders binds =>
    "Raw SQL has " ++ Numeral.ofNat placeholders ++ " placeholder(s) but "
      ++ Numeral.ofNat binds ++ " bind variable(s)"
  | unboundVariable bind => "No value for bind variable " ++ bind
  | unboundPosition position =>
    "No value for bind variable position " ++ Numeral.ofNat position
  | rowShape expected actual =>
    "Row type expects " ++ Numeral.ofNat expected ++ " column(s), select has "
      ++ Numeral.ofNat actual
  | config fault => "Configuration error: " ++ fault.message

/-- Whether references to one variable disagree, on its type or on its value. -/
def isConflict : SqlError → Bool
  | typeConflict .. | columnConflict .. | valueConflict .. => true
  | _ => false

def isTokenizerError : SqlError → Bool
  | unterminatedComment .. | unterminatedString .. | invalidCharacter .. | tooManyTokens .. => true
  | _ => false

end SqlError

end SqlCompose
