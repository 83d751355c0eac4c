import SqlCompose.Proofs.Fragments.Reformatting
import SqlCompose.Proofs.Pages.Writes

/-! Texts in pieces. A line end that is owed, the lead of a line and the end of a word are decided
once for a segment, the part of a line that one text brings, or for each of its characters: it
comes to the same, as everything is decided with the first character but the end of the word, which
is decided with the last. So a text may be cut anywhere, at its line ends or inside a line. -/

namespace SqlCompose.Builder

variable {b : Builder} {c : Char} {s : Text}

/-- Writes a part of a line as one segment. An empty one begins no line and settles no break. -/
def appendSegment (b : Builder) (s : Text) : Builder :=
  if s = [] then b
  else
    let b := b.settleBreak.startLine
    { b with cells := b.cells ++ s.map Cell.char, wordTail := s.getLast?.any isWordChar }

def appendSegments (b : Builder) : List Text → Builder
  | [] => b
  | [s] => b.appendSegment s
  | s :: rest => (b.appendSegment s).endLine.appendSegments rest

/-- Writes a text segment by segment. -/
def appendLines (b : Builder) (s : Text) : Builder :=
  b.appendSegments s.lines

theorem append_cons (b : Builder) (c : Char) (s : Text) :
    b.append (c :: s) = (b.putChar c).append s := rfl

theorem append_inLine (settled : b.pendingBreak = false) (begun : b.atLineStart = false)
    (whole : '\n' ∉ s) : b.append s =
      { b with
        cells := b.cells ++ s.map Cell.char
        wordTail := (s.getLast?.map isWordChar).getD b.wordTail } := by
  induction s generalizing b with
  | nil => simp [append]
  | cons c s ih =>
    obtain ⟨other, whole⟩ := List.ne_and_not_mem_of_not_mem_cons whole
    have first : b.putChar c = { b with cells := b.cells.push (.char c), wordTail := isWordChar c } :=
      (if_neg other.symm).trans (putCell_inLine _ settled begun)
    have cells : b.cells.push (.char c) ++ s.map Cell.char =
        b.cells ++ (c :: s).map Cell.char := by
      simp
    have tail : (s.getLast?.map isWordChar).getD (isWordChar c) =
        ((c :: s).getLast?.map isWordChar).getD b.wordTail := by
      rw [List.getLast?_cons]
      cases s.getLast? <;> rfl
    have later := ih (b := { b with cells := b.cells.push (.char c), wordTail := isWordChar c })
      settled begun whole
    simp only [cells, tail] at later
    rw [append_cons, first, later]

theorem appendSegment_eq (b : Builder) (whole : '\n' ∉ s) : b.appendSegment s = b.append s := by
  cases s with
  | nil => rfl
  | cons c s =>
    obtain ⟨settled, begun, -⟩ := b.startLine_settleBreak
    have first : b.putChar c = b.settleBreak.startLine.putChar c := by
      have other : c ≠ '\n' := (List.ne_and_not_mem_of_not_mem_cons whole).1.symm
      rw [putChar, putChar, if_neg other, if_neg other, putCell_inLine _ settled begun]
      rfl
    have tail : (c :: s).getLast?.any isWordChar =
        ((c :: s).getLast?.map isWordChar).getD b.settleBreak.startLine.wordTail := by
      rw [List.getLast?_cons]
      rfl
    rw [append_cons, first, ← append_cons, append_inLine settled begun whole, appendSegment,
      if_neg (by simp), tail]

theorem appendSegments_eq (b : Builder) {ls : List Text} (whole : ∀ l ∈ ls, '\n' ∉ l) :
    b.appendSegments ls = b.append (Text.unlines ls) := by
  induction ls generalizing b with
  | nil => rfl
  | cons l ls ih =>
    obtain ⟨first, others⟩ := List.forall_mem_cons.mp whole
    cases ls with
    | nil => exact b.appendSegment_eq first
    | cons l' ls =>
      have segments : b.appendSegments (l :: l' :: ls) =
          (b.appendSegment l).endLine.appendSegments (l' :: ls) := rfl
      have lines : Text.unlines (l :: l' :: ls) = l ++ '\n' :: Text.unlines (l' :: ls) := rfl
      rw [segments, appendSegment_eq b first, ih _ others, lines, ← append_append]
      rfl

theorem appendLines_eq (b : Builder) (s : Text) : b.appendLines s = b.append s := by
  rw [appendLines, appendSegments_eq b (Text.not_mem_lines s), Text.unlines_lines]

/-- However a text is cut into pieces, and whether a piece is written character by character or
segment by segment, the pieces lead to the same builder as the whole text: with the same text, the
same variables and the same end of a word, and with the same line, break and indentation for
whatever is written later. -/
theorem append_pieces (b : Builder) (pieces : List Text) :
    pieces.foldl append b = b.append pieces.flatten ∧
    pieces.foldl appendLines b = b.append pieces.flatten := by
  have cut : pieces.foldl append b = b.append pieces.flatten := by
    induction pieces generalizing b with
    | nil => rfl
    | cons s pieces ih => rw [List.foldl_cons, ih, List.flatten_cons, append_append]
  refine ⟨cut, ?_⟩
  rw [funext fun b => funext (appendLines_eq b), cut]

example :
    let b := ((empty .question).append ['a']).breakBeforeNext.pushIndent (.firstLine ['-'] ['+'])
    (((b.append []).append ['b', '\n']).append ['c']).finish.sql = "a\n+b\n+c".toList ∧
      (b.appendLines "b\nc").finish.sql = "a\n+b\n+c".toList := by
  decide +kernel

end SqlCompose.Builder
