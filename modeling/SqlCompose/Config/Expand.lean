import SqlCompose.Text.Basic

/-! Expansion of variable references: a name in braces behind a dollar sign is replaced by the
value of the variable. A text is first cut into pieces and the pieces are replaced one by one,
so values are inserted as they are and not read again. -/

namespace SqlCompose.Expand

inductive Fault where
  | unterminated (key : Text)
  | unnamed
  | missing (key : Text)
  deriving DecidableEq

def Fault.message : Fault → Text
  | unterminated key => "unterminated env var reference: $\x7b" ++ key
  | unnamed => "invalid env var reference: $\x7b\x7d"
  | missing key => "missing env var for config expansion: " ++ key

inductive Piece where
  | char (c : Char)
  | reference (key : Text)
  /-- A reference without its closing brace, with what follows the opening one. -/
  | unclosed (key : Text)
  deriving DecidableEq

def pieces : Text → List Piece
  | [] => []
  | c :: s =>
    if c = '$' ∧ s.head? = some '\x7b' then
      let key := s.tail.takeWhile (· ≠ '\x7d')
      match _h : s.tail.dropWhile (· ≠ '\x7d') with
      | [] => [.unclosed key]
      | _ :: after => .reference key :: pieces after
    else .char c :: pieces s
  termination_by s => s.length
  decreasing_by
    · have behind := (List.dropWhile_sublist (· ≠ '\x7d') (l := s.tail)).length_le
      simp only [_h, List.length_cons, List.length_tail] at behind
      simp only [List.length_cons]
      omega
    · simp

def Piece.expand (lookup : Text → Option Text) : Piece → Except Fault Text
  | char c => .ok [c]
  | reference key =>
    if key = [] then .error .unnamed
    else
      match lookup key with
      | none => .error (.missing key)
      | some value => .ok value
  | unclosed key => .error (.unterminated key)

def expandAll (lookup : Text → Option Text) : List Piece → Except Fault Text
  | [] => .ok []
  | p :: ps => do .ok ((← p.expand lookup) ++ (← expandAll lookup ps))

def expand (lookup : Text → Option Text) (s : Text) : Except Fault Text :=
  expandAll lookup (pieces s)

def Piece.key? : Piece → Option Text
  | reference key => some key
  | _ => none

def keys (s : Text) : List Text :=
  (pieces s).filterMap Piece.key?

end SqlCompose.Expand
