import SqlCompose.Name
import SqlCompose.Token.Basic

/-! Splitting a SQL fragment into tokens. A token is found by its first character and by how
many characters it takes after that; blanks between tokens are skipped. The limit on the
number of tokens applies to the result and never changes what the tokens are. -/

namespace SqlCompose

inductive LexicalFault where
  | openComment
  | openString
  | strange (c : Char)
  deriving DecidableEq

def LexicalFault.toError (p : Place) : LexicalFault → SqlError
  | openComment => .unterminatedComment p.line p.column
  | openString => .unterminatedString p.line p.column
  | strange c => .invalidCharacter p.line p.column c

namespace Lexeme

/-- Length of a block comment behind its opening, up to and with the first closing. -/
def commentLength : Text → Option Nat
  | [] => none
  | [_] => none
  | c :: d :: s =>
    if c = '*' ∧ d = '/' then some 2 else (commentLength (d :: s)).map (· + 1)

/-- Length of a text in quotes behind the opening quote, up to and with the closing one. Quotes
in it are doubled, and it ends badly at a character that is not `allowed`. -/
def quotedLength (q : Char) (allowed : Char → Bool) : Text → Option Nat
  | [] => none
  | c :: s =>
    if c = q then
      match s with
      | [] => some 1
      | d :: rest => if d = q then (quotedLength q allowed rest).map (· + 2) else some 1
    else if allowed c then (quotedLength q allowed s).map (· + 1)
    else none

def digitsLength (s : Text) : Nat :=
  (s.takeWhile Numeral.isDigit).length

def fractionLength : Text → Nat
  | '.' :: s => if digitsLength s = 0 then 0 else digitsLength s + 1
  | _ => 0

def exponentLength : Text → Nat
  | [] => 0
  | e :: s =>
    if e = 'e' ∨ e = 'E' then
      match s with
      | [] => 0
      | c :: rest =>
        if c = '+' ∨ c = '-' then if digitsLength rest = 0 then 0 else digitsLength rest + 2
        else if digitsLength s = 0 then 0 else digitsLength s + 1
    else 0

def numberLength (s : Text) : Nat :=
  let whole := digitsLength s
  let fraction := fractionLength (s.drop whole)
  whole + fraction + exponentLength (s.drop (whole + fraction))

def pairSymbols : List (Char × Char) :=
  [('=', '>'), (':', '='), ('!', '='), ('<', '='), ('>', '='), ('<', '>'), ('|', '|')]

def singleSymbols : List Char :=
  ['(', ')', ',', '+', '-', '/', '*', ';', '.', '%', '=', '>', '<']

/-- The kind of the token that starts with `c`, and how many of the characters behind `c`
belong to it. -/
def read (c : Char) (s : Text) : Except LexicalFault (TokenKind × Nat) :=
  let next := s.head?
  if c = '-' ∧ next = some '-' then .ok (.comment, (s.takeWhile (· ≠ '\n')).length)
  else if c = '/' ∧ next = some '*' then
    match commentLength (s.drop 1) with
    | some n => .ok (.comment, n + 1)
    | none => .error .openComment
  else if c = '\'' then
    match quotedLength '\'' (fun _ => true) s with
    | some n => .ok (.string, n)
    | none => .error .openString
  else if c = '"' then
    match quotedLength '"' (· ≠ '\n') s with
    | some n => .ok (.quotedName, n)
    | none => .error (.strange '"')
  else if c = '?' then .ok (.placeholder, 0)
  else if isNameStart c then .ok (.name, (s.takeWhile isNameChar).length)
  else if Numeral.isDigit c then .ok (.number, numberLength s)
  else if next.any fun d => pairSymbols.contains (c, d) then .ok (.symbol, 1)
  else if singleSymbols.contains c then .ok (.symbol, 0)
  else .error (.strange c)

end Lexeme

/-- The tokens of a text up to the first fault, if there is one. -/
structure Scan where
  tokens : List Token
  fault : Option SqlError
  deriving DecidableEq

def scanAt (p : Place) : Text → Scan
  | [] => ⟨[], none⟩
  | c :: s =>
    if isBlank c then scanAt (p.next c) s
    else
      match Lexeme.read c s with
      | .error fault => ⟨[], some (fault.toError p)⟩
      | .ok (kind, n) =>
        let text := c :: s.take n
        let rest := scanAt (p.after text) (s.drop n)
        ⟨⟨kind, text, p⟩ :: rest.tokens, rest.fault⟩
  termination_by s => s.length
  decreasing_by
    · simp
    · simp only [List.length_drop, List.length_cons]
      omega

def scan (s : Text) : Scan :=
  scanAt Place.start s

def defaultTokenLimit : Nat := 10000

def tokenize (limit : Nat) (s : Text) : Except SqlError (List Token) :=
  let found := scan s
  if limit < found.tokens.length then .error (.tooManyTokens limit)
  else
    match found.fault with
    | some e => .error e
    | none => .ok found.tokens

end SqlCompose
