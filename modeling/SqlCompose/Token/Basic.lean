import SqlCompose.Error

/-! Tokens of a SQL fragment and the places where they stand. -/

namespace SqlCompose

inductive TokenKind where
  | comment
  | symbol
  | name
  | quotedName
  | number
  | string
  | placeholder
  deriving DecidableEq

def TokenKind.label : TokenKind → Text
  | comment => "comment"
  | symbol => "symbol"
  | name => "name"
  | quotedName => "quoted_name"
  | number => "number"
  | string => "string"
  | placeholder => "placeholder"

/-- A place in a text: line and column counted from one in characters, and the offset counted
from zero in bytes. -/
structure Place where
  line : Nat
  column : Nat
  offset : Nat
  deriving DecidableEq

namespace Place

def start : Place := ⟨1, 1, 0⟩

def next (p : Place) (c : Char) : Place :=
  if c = '\n' then ⟨p.line + 1, 1, p.offset + c.utf8Size⟩
  else ⟨p.line, p.column + 1, p.offset + c.utf8Size⟩

def after (p : Place) (s : Text) : Place :=
  s.foldl next p

@[simp] theorem after_nil (p : Place) : p.after [] = p := rfl

@[simp] theorem after_cons (p : Place) (c : Char) (s : Text) :
    p.after (c :: s) = (p.next c).after s := rfl

@[simp] theorem after_append (p : Place) (s t : Text) :
    p.after (s ++ t) = (p.after s).after t := by
  simp [after]

@[simp] theorem offset_after (p : Place) (s : Text) :
    (p.after s).offset = p.offset + s.byteSize := by
  induction s generalizing p with
  | nil => simp
  | cons c s ih =>
    by_cases h : c = '\n' <;> simp [ih, next, h, Nat.add_assoc]

end Place

structure Token where
  kind : TokenKind
  text : Text
  place : Place
  deriving DecidableEq

namespace Token

def start (t : Token) : Nat :=
  t.place.offset

def stop (t : Token) : Nat :=
  t.place.offset + t.text.byteSize

def isLongLiteral (t : Token) : Bool :=
  t.kind == .string && t.text.contains '\n'

def isLineComment (t : Token) : Bool :=
  t.kind == .comment && t.text.take 2 == ['-', '-']

end Token

end SqlCompose
