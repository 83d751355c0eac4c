import SqlCompose.Text.Numeral

/-! The part of TOML 1.1 that configurations are written in: comments, tables of one name, and bare
keys with integers or basic strings on one line.

What the format says of these is kept. No table and no key is defined twice; no control character
but the tab stands in a comment or a string; strings have the escapes of one letter and those by
two, four or eight hexadecimal digits. Decimal integers have no leading zeros, those to the bases
16, 8 and 2 no sign, and digits may have single underscores between them. Integers are those of 64
bits.

Other spellings of the same are left out: keys in quotes or with dots, tables in tables and on one
line, strings in apostrophes or over several lines. A document with one of them is refused, though
the format has it. So are floating-point numbers, truth values, dates and arrays, which no key
takes. -/

namespace SqlCompose.Toml

inductive Value where
  | integer (n : Int)
  | string (s : Text)
  deriving DecidableEq

inductive Line where
  | empty
  | table (name : Text)
  | entry (key : Text) (value : Value)
  deriving DecidableEq

/-- A key with its table and value; keys before the first table stand in no table. -/
structure Entry where
  table : Option Text
  key : Text
  value : Value
  deriving DecidableEq

structure Document where
  tables : List Text
  entries : List Entry
  deriving DecidableEq

def isGap (c : Char) : Bool :=
  c == ' ' || c == '\t'

def skipGap (s : Text) : Text :=
  s.dropWhile isGap

/-- Control characters, of which only the tab may stand in comments and strings. -/
def isForbidden (c : Char) : Bool :=
  c != '\t' && (c.toNat < 0x20 || c.toNat == 0x7f)

def isEnd (s : Text) : Bool :=
  match skipGap s with
  | [] => true
  | '#' :: comment => !comment.any isForbidden
  | _ => false

def isKeyChar (c : Char) : Bool :=
  c.isAlphanum || c == '_' || c == '-'

def hexValue (c : Char) : Option Nat :=
  if c.isDigit then some (c.toNat - '0'.toNat)
  else if 'a' ≤ c ∧ c ≤ 'f' then some (c.toNat - 'a'.toNat + 10)
  else if 'A' ≤ c ∧ c ≤ 'F' then some (c.toNat - 'A'.toNat + 10)
  else none

def charOfHex (digits : Text) : Option Char := do
  let n ← digits.foldlM (fun n c => (hexValue c).map (16 * n + ·)) 0
  if n.isValidChar then some (Char.ofNat n) else none

def shortEscapes : List (Char × Char) :=
  [('b', '\x08'), ('t', '\t'), ('n', '\n'), ('f', '\x0c'), ('r', '\x0d'), ('e', '\x1b'), ('"', '"'),
    ('\\', '\\')]

def escapeWidth (c : Char) : Option Nat :=
  if c = 'x' then some 2 else if c = 'u' then some 4 else if c = 'U' then some 8 else none

def readString : Text → Option (Text × Text)
  | [] => none
  | c :: s =>
    if c = '"' then some ([], s)
    else if c = '\\' then
      match s with
      | [] => none
      | e :: rest =>
        match shortEscapes.lookup e with
        | some d => (readString rest).map fun (inner, after) => (d :: inner, after)
        | none => do
          let width ← escapeWidth e
          if rest.length < width then none
          let d ← charOfHex (rest.take width)
          let (inner, after) ← readString (rest.drop width)
          some (d :: inner, after)
    else if isForbidden c then none
    else (readString s).map fun (inner, after) => (c :: inner, after)
  termination_by s => s.length
  decreasing_by all_goals simp_all <;> omega

def joinDigits (isDigit : Char → Bool) : Text → Option Text
  | [] => none
  | [c] => if isDigit c then some [c] else none
  | c :: d :: s =>
    if !isDigit c then none
    else if d = '_' then (joinDigits isDigit s).map (c :: ·)
    else (joinDigits isDigit (d :: s)).map (c :: ·)

def numberInBase (base : Nat) (s : Text) : Option Nat := do
  let digits ← joinDigits (fun c => (hexValue c).any (· < base)) s
  digits.foldlM (fun n c => (hexValue c).map (base * n + ·)) 0

/-- A decimal number; it has no leading zeros. -/
def decimalNumber (s : Text) : Option Nat :=
  match s with
  | '0' :: _ :: _ => none
  | _ => numberInBase 10 s

/-- Whether 64 bits hold an integer: with a sign if it is negative, without one if it is not. -/
def fitsWord (n : Int) : Bool :=
  -Int.pow 2 63 ≤ n && n < Int.pow 2 64

def readInteger (s : Text) : Option Int := do
  let n : Int ← match s with
    | '0' :: 'x' :: digits => (numberInBase 16 digits).map Int.ofNat
    | '0' :: 'o' :: digits => (numberInBase 8 digits).map Int.ofNat
    | '0' :: 'b' :: digits => (numberInBase 2 digits).map Int.ofNat
    | '+' :: digits => (decimalNumber digits).map Int.ofNat
    | '-' :: digits => (decimalNumber digits).map fun n => -Int.ofNat n
    | digits => (decimalNumber digits).map Int.ofNat
  if fitsWord n then some n else none

def readValue : Text → Option (Value × Text)
  | '"' :: s => (readString s).map fun (inner, after) => (.string inner, after)
  | s => do
    let word := s.takeWhile fun c => !isGap c && c != '#'
    some (.integer (← readInteger word), s.drop word.length)

def readLine (line : Text) : Option Line := do
  let s := skipGap line
  if isEnd s then return .empty
  match s with
  | '[' :: s =>
    let s := skipGap s
    let name := s.takeWhile isKeyChar
    match skipGap (s.dropWhile isKeyChar) with
    | ']' :: rest => if name ≠ [] ∧ isEnd rest then some (.table name) else none
    | _ => none
  | _ =>
    let key := s.takeWhile isKeyChar
    match skipGap (s.dropWhile isKeyChar) with
    | '=' :: rest =>
      let (value, after) ← readValue (skipGap rest)
      if key ≠ [] ∧ isEnd after then some (.entry key value) else none
    | _ => none

def dropReturn (line : Text) : Text :=
  if line.getLast? = some '\x0d' then line.dropLast else line

/-- Adds a line to a document; nothing may be defined twice. -/
def Document.add (d : Document) : Line → Option Document
  | .empty => some d
  | .table name => if name ∈ d.tables then none else some { d with tables := d.tables ++ [name] }
  | .entry key value =>
    let table := d.tables.getLast?
    if d.entries.any fun e => e.table == table && e.key == key then none
    else some { d with entries := d.entries ++ [⟨table, key, value⟩] }

def addLines (d : Document) : List Text → Option Document
  | [] => some d
  | [line] => do d.add (← readLine line)
  | line :: rest => do addLines (← d.add (← readLine (dropReturn line))) rest

/-- Reads a document; a byte order mark at its start does not count. -/
def parse (s : Text) : Option Document :=
  addLines ⟨[], []⟩ ((Text.stripLead ['\ufeff'] s).getD s).lines

end SqlCompose.Toml
