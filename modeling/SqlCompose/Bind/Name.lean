import SqlCompose.Error
import SqlCompose.Text.Blank

/-! Names of bind variables: an upper-case letter, then upper-case letters, digits and
underscores. Names that differ only in case or in surrounding blanks are the same. -/

namespace SqlCompose

def isBindChar (c : Char) : Bool :=
  c.isUpper || c.isDigit || c == '_'

def isBindName : Text → Bool
  | [] => false
  | c :: s => c.isUpper && s.all isBindChar

structure BindName where
  text : Text
  valid : isBindName text = true
  deriving DecidableEq

namespace BindName

/-- Why a folded text is no bind name; `given` is the text before folding. -/
def fault (given : Text) : Text → NameFault
  | [] => .emptyBind
  | c :: s =>
    if !c.isUpper then .bindStart given
    else
      match s.find? fun d => !isBindChar d with
      | some d => .bindCharacter given d
      | none => .emptyBind

def parse (s : Text) : Except SqlError BindName :=
  let folded := s.trim.map Char.toUpper
  if h : isBindName folded = true then .ok ⟨folded, h⟩ else .error (.name (fault s folded))

end BindName

end SqlCompose
