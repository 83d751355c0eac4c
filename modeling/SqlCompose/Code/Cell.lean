import SqlCompose.Text.Numeral

/-! Written code as a row of cells. Placeholders stay marked in it, so that code can be moved into
other code and renumbered, and their texts are chosen last. -/

namespace SqlCompose

inductive PlaceholderStyle where
  | question
  | dollar
  deriving DecidableEq

def PlaceholderStyle.marker (style : PlaceholderStyle) (position : Nat) : Text :=
  match style with
  | question => ['?']
  | dollar => '$' :: Numeral.ofNat position

inductive Cell where
  | char (c : Char)
  /-- A character of a literal that runs over several lines; no line starts behind it. -/
  | kept (c : Char)
  | marker (position : Nat)
  deriving DecidableEq

namespace Cell

def text (style : PlaceholderStyle) : Cell → Text
  | char c => [c]
  | kept c => [c]
  | marker position => style.marker position

def position? : Cell → Option Nat
  | marker position => some position
  | _ => none

end Cell

def codeText (style : PlaceholderStyle) (cells : List Cell) : Text :=
  cells.flatMap (Cell.text style)

@[simp] theorem codeText_append (style : PlaceholderStyle) (xs ys : List Cell) :
    codeText style (xs ++ ys) = codeText style xs ++ codeText style ys := by
  simp [codeText]

def markerPositions (cells : List Cell) : List Nat :=
  cells.filterMap Cell.position?

@[simp] theorem markerPositions_append (xs ys : List Cell) :
    markerPositions (xs ++ ys) = markerPositions xs ++ markerPositions ys := by
  simp [markerPositions]

end SqlCompose
