import SqlCompose.Bind.Ledger
import SqlCompose.Code.Cell
import SqlCompose.Code.Lead
import SqlCompose.Fragment
import SqlCompose.Text.WordChar

/-! Code under construction: the cells written so far, the indentation in force, and the ledger
of bind variables. Leads are written when a line receives its first cell. A builder can be
embedded into another one: its cells are written there once more, at the indentation in force
there, and its positions move behind those already given. -/

namespace SqlCompose

/-- An indentation in force; `started` when its first line has begun. -/
structure IndentEntry where
  lead : Lead
  started : Bool
  deriving DecidableEq

structure Builder where
  cells : Array Cell
  /-- The indentations in force, innermost first. -/
  indents : List IndentEntry
  atLineStart : Bool
  /-- A line end is owed before the next cell, as behind a line comment. -/
  pendingBreak : Bool
  /-- Whether an identifier written next would run into what stands before it. -/
  wordTail : Bool
  bindCount : Nat
  ledger : Ledger
  style : PlaceholderStyle
  deriving DecidableEq

/-- An operation that may fail: the builder behind it, failed or not, and how it ended. -/
abbrev Attempt := Builder × Except SqlError Unit

def Attempt.toExcept : Attempt → Except SqlError Builder
  | (b, .ok ()) => .ok b
  | (_, .error e) => .error e

namespace Builder

def empty (style : PlaceholderStyle) : Builder :=
  ⟨#[], [], true, false, false, 0, [], style⟩

def sibling (b : Builder) : Builder :=
  empty b.style

def isEmpty (b : Builder) : Bool :=
  b.cells.isEmpty

def endLine (b : Builder) : Builder :=
  { b with
    cells := b.cells.push (.char '\n')
    atLineStart := true
    pendingBreak := false
    wordTail := false }

/-- Writes the line end that is owed, unless a line has begun anyway. -/
def settleBreak (b : Builder) : Builder :=
  if b.pendingBreak && !b.atLineStart then b.endLine else { b with pendingBreak := false }

def lead (b : Builder) : Text :=
  b.indents.reverse.flatMap fun e => e.lead.text (!e.started)

def startLine (b : Builder) : Builder :=
  if b.atLineStart then
    { b with
      cells := b.cells ++ b.lead.map Cell.char
      indents := b.indents.map fun e => { e with started := true }
      atLineStart := false }
  else b

def putCell (cell : Cell) (wordTail : Bool) (b : Builder) : Builder :=
  let b := b.settleBreak.startLine
  { b with cells := b.cells.push cell, wordTail }

def putChar (b : Builder) (c : Char) : Builder :=
  if c = '\n' then b.endLine else b.putCell (.char c) (isWordChar c)

/-- Writes a character of a literal, a line end like any other. -/
def putKept (b : Builder) (c : Char) : Builder :=
  b.putCell (.kept c) (isWordChar c)

def putMarker (b : Builder) (position : Nat) : Builder :=
  b.putCell (.marker position) (b.style == .dollar)

def append (b : Builder) (s : Text) : Builder :=
  s.foldl putChar b

theorem append_append (b : Builder) (s t : Text) :
    (b.append s).append t = b.append (s ++ t) := by
  simp [append]

def appendKept (b : Builder) (s : Text) : Builder :=
  s.foldl putKept b

/-- Writes an identifier or keyword, behind a space where it would run into a word. -/
def appendName (b : Builder) (s : Text) : Builder :=
  let b := b.settleBreak
  let b := if b.wordTail && !b.atLineStart then { b with cells := b.cells.push (.char ' ') } else b
  b.append s

def appendInt (b : Builder) (n : Int) : Builder :=
  b.append (Numeral.ofInt n)

/-- Lets whatever is written next begin on a new line. Nothing is written until then. -/
def breakBeforeNext (b : Builder) : Builder :=
  if b.atLineStart then b else { b with pendingBreak := true }

def pushIndent (b : Builder) (lead : Lead) : Builder :=
  { b with indents := ⟨lead, !b.atLineStart⟩ :: b.indents }

def popIndent (b : Builder) : Builder :=
  { b with indents := b.indents.tail }

/-- The lead of the lines behind the first one of a wrapped text. Widths have no bound here: sizes
for which `extra + 1` overflows the machine word, or the spaces exceed the memory, are out of
scope. -/
def wrapLead (extra : Nat) : Lead :=
  .firstLine [] (Text.spaces (extra + 1))

def wrapped (b : Builder) (extra : Nat) (f : Builder → Attempt) : Attempt :=
  let (b, result) := f (b.pushIndent (wrapLead extra))
  (b.popIndent, result)

def appendAround (b : Builder) (offset : Nat) (rest : Text) : List ByteRange → Builder
  | [] => b.append rest
  | r :: ranges =>
    let before := rest.takeBytes (r.start - offset)
    let inside := (rest.dropBytes (r.start - offset)).takeBytes (r.stop - r.start)
    ((b.append before).appendKept inside).appendAround r.stop (rest.dropBytes (r.stop - offset))
      ranges

/-- Writes the normal form of a fragment at the indentation in force. The bytes of the ranges
are left as they are. -/
def wrapKeeping (b : Builder) (s : Text) (ranges : List ByteRange) (extra : Nat) : Builder :=
  let (text, kept) := Fragment.normalizeKeeping ranges s
  ((b.pushIndent (wrapLead extra)).appendAround 0 text kept).popIndent

def wrap (b : Builder) (s : Text) (extra : Nat) : Builder :=
  b.wrapKeeping s [] extra

/-- Gives a variable the next position without writing a marker. The position is spent even if
the variable does not agree with its earlier uses. -/
def addBind (b : Builder) (v : BindVariable) : Attempt :=
  let b := { b with bindCount := b.bindCount + 1 }
  match b.ledger.record v [b.bindCount] with
  | .error e => (b, .error e)
  | .ok ledger => ({ b with ledger }, .ok ())

def appendBind (b : Builder) (v : BindVariable) : Attempt :=
  match b.settleBreak.startLine.addBind v with
  | (b, .error e) => (b, .error e)
  | (b, .ok ()) => (b.putMarker b.bindCount, .ok ())

def putCopy (offset : Nat) (b : Builder) : Cell → Builder
  | .char c => b.putChar c
  | .kept c => b.putKept c
  | .marker position => b.putMarker (position + offset)

def embed (b : Builder) (other : Builder) : Attempt :=
  let offset := b.bindCount
  let b := other.cells.foldl (putCopy offset) b
  let b := { b with bindCount := b.bindCount + other.bindCount }
  let b := if other.pendingBreak then b.breakBeforeNext else b
  let (ledger, result) := b.ledger.recordAll (other.ledger.map (LedgerEntry.shift offset))
  ({ b with ledger }, result)

end Builder

end SqlCompose
