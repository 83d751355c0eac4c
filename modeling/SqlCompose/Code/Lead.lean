import SqlCompose.Text.Basic

/-! Leads: what is written at the start of each line while an indentation is in force. -/

namespace SqlCompose

inductive Lead where
  | void
  | simple (text : Text)
  /-- One text on the first line and another on all later ones, as for the items of a list. -/
  | firstLine (first rest : Text)
  | linked (outer inner : Lead)
  deriving DecidableEq

namespace Lead

def spaces (width : Nat) : Lead :=
  if width = 0 then void else simple (Text.spaces width)

def text (isFirst : Bool) : Lead → Text
  | void => []
  | simple s => s
  | firstLine first rest => if isFirst then first else rest
  | linked outer inner => outer.text isFirst ++ inner.text isFirst

@[simp] theorem text_spaces (isFirst : Bool) (width : Nat) :
    (spaces width).text isFirst = Text.spaces width := by
  by_cases h : width = 0 <;> simp [spaces, text, Text.spaces, h]

end Lead

end SqlCompose
