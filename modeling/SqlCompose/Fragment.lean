import SqlCompose.Text.Blank

/-! Normal form of a SQL fragment before it is written at another indentation. Blanks at line
ends, blank lines around the fragment and the indentation common to all its lines are dropped.
Ranges of the fragment may be kept: a line that begins or ends inside one keeps that side as it
is, and the ranges are found again in the result. -/

namespace SqlCompose

/-- The bytes from `start` up to `stop`. -/
structure ByteRange where
  start : Nat
  stop : Nat
  deriving DecidableEq

def isInside (ranges : List ByteRange) (offset : Nat) : Bool :=
  ranges.any fun r => r.start < offset && offset < r.stop

namespace Fragment

/-- A line of a fragment: its offset there, its text, and whether it begins inside a kept
range. -/
structure SourceLine where
  start : Nat
  text : Text
  kept : Bool
  deriving DecidableEq

/-- The lines as they stand from `offset` on. Blanks at the end go, unless the line ends inside
a kept range. -/
def sourceLines (ranges : List ByteRange) (offset : Nat) : List Text → List SourceLine
  | [] => []
  | line :: rest =>
    let stop := offset + line.byteSize
    ⟨offset, if isInside ranges stop then line else line.trimEnd, isInside ranges offset⟩
      :: sourceLines ranges (stop + 1) rest

def SourceLine.isBlank (l : SourceLine) : Bool :=
  !l.kept && l.text.isAllBlank

def body (ls : List SourceLine) : List SourceLine :=
  ((ls.dropWhile SourceLine.isBlank).reverse.dropWhile SourceLine.isBlank).reverse

def isIndent (c : Char) : Bool :=
  c == ' ' || c == '\t'

def indentWidth (s : Text) : Nat :=
  (s.takeWhile isIndent).length

/-- The least indentation of the lines that count: those that hold something and do not begin
inside a kept range. -/
def commonIndent (ls : List SourceLine) : Nat :=
  ((ls.filter fun l => !l.kept && !l.text.isEmpty).map fun l => indentWidth l.text).min?.getD 0

/-- A line of the result: where its text stands in the fragment and where in the result. -/
structure PlacedLine where
  source : Nat
  target : Nat
  text : Text
  deriving DecidableEq

def SourceLine.cut (common : Nat) (l : SourceLine) : Text :=
  if l.kept then l.text else l.text.drop common

def SourceLine.placed (l : SourceLine) (target : Nat) (cut : Text) : PlacedLine :=
  ⟨l.start + (l.text.byteSize - cut.byteSize), target, cut⟩

def placeRest (common target : Nat) : List SourceLine → List PlacedLine
  | [] => []
  | l :: rest =>
    let cut := l.cut common
    l.placed target cut :: placeRest common (target + cut.byteSize + 1) rest

/-- The lines of the result. The first line loses all blanks at its front. -/
def place : List SourceLine → List PlacedLine
  | [] => []
  | l :: rest =>
    let cut := l.text.trimStart
    l.placed 0 cut :: placeRest (commonIndent rest) (cut.byteSize + 1) rest

def normalLines (ranges : List ByteRange) (s : Text) : List PlacedLine :=
  place (body (sourceLines ranges 0 s.lines))

def textOf (ls : List PlacedLine) : Text :=
  Text.unlines (ls.map PlacedLine.text)

def mapOffset (ls : List PlacedLine) (offset : Nat) : Nat :=
  match (ls.takeWhile fun l => l.source ≤ offset).getLast? with
  | some l => l.target + (offset - l.source)
  | none => 0

def mapRange (ls : List PlacedLine) (r : ByteRange) : ByteRange :=
  ⟨mapOffset ls r.start, mapOffset ls r.stop⟩

/-- The normal form, and the kept ranges as they are found in it. -/
def normalizeKeeping (ranges : List ByteRange) (s : Text) : Text × List ByteRange :=
  let ls := normalLines ranges s
  (textOf ls, ranges.map (mapRange ls))

def normalize (s : Text) : Text :=
  (normalizeKeeping [] s).1

end Fragment

end SqlCompose
