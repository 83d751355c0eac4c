import SqlCompose.Text.Doubled

/-! Text literals. A quote inside is written twice, and a line end is spliced in by its
character number, so that a literal always stays on one line. -/

namespace SqlCompose.TextLiteral

def lineEnd : Text :=
  "'||CHR(10)||'"

def encodeChar (c : Char) : Text :=
  if c = '\'' then ['\'', '\''] else if c = '\n' then lineEnd else [c]

def encode (s : Text) : Text :=
  '\'' :: s.flatMap encodeChar ++ ['\'']

def splice : Text :=
  "||CHR(10)||'"

/-- Reads behind an opening quote: the pieces up to the end, with line ends between them. -/
def decodePieces (s : Text) : Option Text :=
  match _h : Doubled.read '\'' s with
  | none => none
  | some (inner, after) =>
    if after = [] then some inner
    else
      match _g : Text.stripLead splice after with
      | none => none
      | some rest => (decodePieces rest).map fun tail => inner ++ '\n' :: tail
  termination_by s.length
  decreasing_by
    have shorter := Doubled.length_read _h
    have split := Text.stripLead_eq_some_iff.mp _g
    simp only [split, List.length_append] at shorter
    omega

/-- The text that a literal stands for, if it is made of quoted pieces with the number of a line end
between neighbours. All that `encode` writes is read; a line end inside of a piece, which it never
writes, is read as well. -/
def decode : Text → Option Text
  | '\'' :: s => decodePieces s
  | _ => none

end SqlCompose.TextLiteral
