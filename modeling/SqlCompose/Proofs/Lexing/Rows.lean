import SqlCompose.Proofs.Binding
import SqlCompose.Proofs.Lexing.Continues

/-! Rows of cells at any indentation. A row that is written again at another place gets other
spaces behind its line ends; what it adds to the placeholders must not depend on them. -/

namespace SqlCompose

/-- A text of the row, with any number of further spaces behind its line ends. -/
inductive Relaid : List Cell → Text → Prop
  | nil : Relaid [] []
  | cell {cell : Cell} {cells : List Cell} {s : Text} (other : cell ≠ .char '\n')
    (rest : Relaid cells s) : Relaid (cell :: cells) (cell.text .question ++ s)
  | lineEnd {cells : List Cell} {s : Text} (n : Nat) (rest : Relaid cells s) :
    Relaid (.char '\n' :: cells) ('\n' :: (Text.spaces n ++ s))

theorem relaid_codeText (cells : List Cell) : Relaid cells (codeText .question cells) := by
  induction cells with
  | nil => exact .nil
  | cons cell cells ih =>
    by_cases lineEnd : cell = .char '\n'
    · rw [lineEnd]
      exact .lineEnd 0 ih
    · exact .cell lineEnd ih

theorem isAllBlank_spaces (n : Nat) : (Text.spaces n).isAllBlank = true :=
  List.all_eq_true.mpr fun c mem => by
    rw [List.eq_of_mem_replicate mem]
    decide

theorem inLine_spaces (n : Nat) : '\n' ∉ Text.spaces n :=
  fun mem => absurd (List.eq_of_mem_replicate mem) (by decide)

namespace Relaid

variable {xs ys : List Cell} {s t : Text}

theorem append (h : Relaid xs s) (g : Relaid ys t) : Relaid (xs ++ ys) (s ++ t) := by
  induction h with
  | nil => exact g
  | cell other _ ih =>
    rw [List.append_assoc]
    exact .cell other ih
  | lineEnd n _ ih =>
    rw [List.cons_append, List.cons_append, List.append_assoc]
    exact .lineEnd n ih

theorem exists_append (h : Relaid (xs ++ ys) t) :
    ∃ s u, t = s ++ u ∧ Relaid xs s ∧ Relaid ys u := by
  induction xs generalizing t with
  | nil => exact ⟨[], t, rfl, .nil, h⟩
  | cons cell xs ih =>
    cases h with
    | cell other rest =>
      obtain ⟨s, u, rfl, front, back⟩ := ih rest
      exact ⟨_, u, by rw [List.append_assoc], .cell other front, back⟩
    | lineEnd n rest =>
      obtain ⟨s, u, rfl, front, back⟩ := ih rest
      exact ⟨_, u, by simp, .lineEnd n front, back⟩

theorem eq_of_chars {w : Text} (inLine : '\n' ∉ w) (h : Relaid (w.map Cell.char) t) : t = w := by
  induction w generalizing t with
  | nil =>
    cases h
    rfl
  | cons c w ih =>
    simp only [List.mem_cons, not_or] at inLine
    cases h with
    | cell other rest =>
      rw [ih inLine.2 rest]
      rfl
    | lineEnd n rest => exact absurd rfl inLine.1

theorem without_spaces {n : Nat}
    (h : Relaid (.char '\n' :: ((Text.spaces n).map Cell.char ++ ys)) t) :
    Relaid (.char '\n' :: ys) t := by
  cases h with
  | cell other => exact absurd rfl other
  | lineEnd m rest =>
    obtain ⟨s, u, rfl, front, back⟩ := rest.exists_append
    obtain rfl := front.eq_of_chars (inLine_spaces n)
    have more : Text.spaces m ++ (Text.spaces n ++ u) = Text.spaces (m + n) ++ u := by
      rw [← List.append_assoc, Text.spaces, Text.spaces, List.replicate_append_replicate]
      rfl
    rw [more]
    exact .lineEnd (m + n) back

end Relaid

def rowMarks (cells : List Cell) : Nat :=
  (markerPositions cells).length

@[simp] theorem rowMarks_append (xs ys : List Cell) :
    rowMarks (xs ++ ys) = rowMarks xs + rowMarks ys := by
  simp [rowMarks]

/-- At any indentation, the row adds its placeholders in front of a text that is admitted. -/
def RowContinues (cells : List Cell) (f : Follow) : Prop :=
  ∀ s, Relaid cells s → Continues s (rowMarks cells) f

namespace RowContinues

variable {xs ys : List Cell} {f f' : Follow} {s : Text}

theorem nil : RowContinues [] f := by
  intro s h
  cases h
  exact .nil

theorem of_anything (h : RowContinues xs .anything) : RowContinues xs f :=
  fun s g => (h s g).of_anything

theorem line_of_soft (h : RowContinues xs .soft) : RowContinues xs .line :=
  fun s g => (h s g).line_of_soft

theorem append (h : RowContinues xs f) (g : RowContinues ys f')
    (fits : ∀ t, Relaid ys t → ∀ rest, f'.Admits rest → f.Admits (t ++ rest)) :
    RowContinues (xs ++ ys) f' := by
  intro u laid
  obtain ⟨s, t, rfl, front, back⟩ := laid.exists_append
  rw [rowMarks_append]
  exact (h s front).append (g t back) (fits t back)

theorem anything_append (h : RowContinues xs .anything) (g : RowContinues ys f) :
    RowContinues (xs ++ ys) f :=
  h.append g fun _ _ _ _ => trivial

theorem chars (inLine : '\n' ∉ s) (h : Continues s 0 f) : RowContinues (s.map Cell.char) f := by
  intro t laid
  rw [laid.eq_of_chars inLine, rowMarks, markerPositions_chars]
  exact h

theorem lineEnd : RowContinues [.char '\n'] .anything := by
  intro t laid
  cases laid with
  | cell other => exact absurd rfl other
  | lineEnd n rest =>
    cases rest
    have blanks : Text.isAllBlank ('\n' :: (Text.spaces n ++ [])) = true := by
      have lineEnd : isBlank '\n' = true := by decide
      rw [List.append_nil, Text.isAllBlank, List.all_cons, lineEnd]
      exact isAllBlank_spaces n
    exact continues_blanks blanks

theorem append_lineEnd (h : RowContinues xs f) (line : f = .soft ∨ f = .line) :
    RowContinues (xs ++ [.char '\n']) .anything := by
  refine h.append lineEnd fun t laid rest _ => ?_
  have admitted : Follow.line.Admits (t ++ rest) := by
    cases laid with
    | cell other => exact absurd rfl other
    | lineEnd n _ =>
      intro d head
      exact (Option.some.inj head).symm
  rcases line with rfl | rfl
  · exact admitted.soft_of_line
  · exact admitted

theorem of_lineEnd (h : RowContinues (.char '\n' :: xs) f) : RowContinues xs f := by
  intro s laid rest k admitted marks
  have whole := h _ (.lineEnd 0 laid) rest k admitted marks
  have blank : Text.isAllBlank ['\n'] = true := by decide
  exact (marks_append_blanks_iff blank).mp whole

theorem spaces {n : Nat} (h : RowContinues (xs ++ .char '\n' :: ys) f) :
    RowContinues (xs ++ .char '\n' :: ((Text.spaces n).map Cell.char ++ ys)) f := by
  intro u laid
  obtain ⟨s, t, rfl, front, back⟩ := laid.exists_append
  have whole := h _ (front.append back.without_spaces)
  have count : rowMarks (xs ++ .char '\n' :: ((Text.spaces n).map Cell.char ++ ys)) =
      rowMarks (xs ++ .char '\n' :: ys) := by
    simp [rowMarks, markerPositions_cons]
  rw [count]
  exact whole

theorem renumber {p q : Nat} (h : RowContinues (xs ++ .marker p :: ys) f) :
    RowContinues (xs ++ .marker q :: ys) f := by
  intro u laid
  obtain ⟨s, t, rfl, front, back⟩ := laid.exists_append
  have other : Cell.marker p ≠ .char '\n' := by simp
  cases back with
  | cell _ rest =>
    have whole := h _ (front.append (.cell other rest))
    have count : rowMarks (xs ++ .marker q :: ys) = rowMarks (xs ++ .marker p :: ys) := by
      simp [rowMarks, markerPositions_cons, Cell.position?]
    rw [count]
    exact whole

end RowContinues

end SqlCompose
