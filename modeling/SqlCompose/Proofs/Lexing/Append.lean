import SqlCompose.Proofs.Lexing.Inside

/-! Texts written one behind the other. A text that splits into tokens keeps them in front of
another text, if that one begins with a blank, a parenthesis, a comma or a bar, and on a new line
if a line comment stands before it. The placeholders add up. -/

namespace SqlCompose

open LexMode

def markCount (o : List TokenShape) : Nat :=
  (o.filter fun t => t.1 = .placeholder).length

/-- The text splits into tokens, and `n` of them are placeholders. -/
def Marks (s : Text) (n : Nat) : Prop :=
  ∃ o, Lexes s o ∧ markCount o = n

/-- What no token runs into. -/
def isSoft (c : Char) : Bool :=
  isBlank c || c == '(' || c == ')' || c == ',' || c == '|'

inductive Follow where
  | anything
  | soft
  | line

def Follow.Admits : Follow → Text → Prop
  | anything, _ => True
  | soft, t => ∀ d ∈ t.head?, isSoft d = true
  | line, t => ∀ d ∈ t.head?, d = '\n'

theorem Follow.Admits.soft_of_line {t : Text} (h : Follow.line.Admits t) :
    Follow.soft.Admits t := by
  intro d head
  rw [h d head]
  decide

namespace Lexeme

variable {c : Char} {s rest : Text} {k : TokenKind} {n : Nat}

theorem commentLength_append (h : commentLength s = some n) :
    commentLength (s ++ rest) = some n := by
  fun_induction commentLength s generalizing n with
  | case1 => cases h
  | case2 => cases h
  | case3 c d s closed =>
    rw [List.cons_append, List.cons_append, commentLength, if_pos closed]
    exact h
  | case4 c d s going ih =>
    obtain ⟨k, later, rfl⟩ := Option.map_eq_some_iff.mp h
    have found := ih later
    rw [List.cons_append] at found
    rw [List.cons_append, List.cons_append, commentLength, if_neg going, found]
    rfl

theorem quotedLength_append {q : Char} {allowed : Char → Bool}
    (h : quotedLength q allowed s = some n) (other : ∀ d ∈ rest.head?, d ≠ q) :
    quotedLength q allowed (s ++ rest) = some n := by
  fun_induction quotedLength q allowed s generalizing n with
  | case1 => cases h
  | case2 =>
    cases rest with
    | nil => simpa [quotedLength] using h
    | cons d rest => simpa [quotedLength, other d rfl] using h
  | case3 s ih =>
    obtain ⟨k, later, rfl⟩ := Option.map_eq_some_iff.mp h
    simp [quotedLength, ih later]
  | case4 d s noQuote => simpa [quotedLength, noQuote] using h
  | case5 c s noQuote permitted ih =>
    obtain ⟨k, later, rfl⟩ := Option.map_eq_some_iff.mp h
    rw [List.cons_append, quotedLength_of_ne _ noQuote, if_pos permitted, ih later]
    rfl
  | case6 => cases h

theorem takeWhile_line_append (h : '\n' ∈ s ∨ Follow.line.Admits rest) :
    (s ++ rest).takeWhile (· ≠ '\n') = s.takeWhile (· ≠ '\n') := by
  induction s with
  | nil =>
    cases rest with
    | nil => rfl
    | cons d rest =>
      have lineEnd := h.resolve_left (by simp) d rfl
      simp [lineEnd]
  | cons c s ih =>
    by_cases here : c = '\n'
    · simp [here]
    · have later : '\n' ∈ s ∨ Follow.line.Admits rest :=
        h.imp_left fun mem => (List.mem_cons.mp mem).resolve_left (Ne.symm here)
      simp only [List.cons_append, List.takeWhile_cons, ih later]

theorem inert_of_isSoft {d : Char} (soft : isSoft d = true) (noBar : c ≠ '|') :
    inert c d = true := by
  simp only [isSoft, Bool.or_eq_true, beq_iff_eq] at soft
  rcases soft with (((blank | rfl) | rfl) | rfl) | rfl
  · exact inert_of_isBlank c blank
  all_goals
    simp only [inert, pairSymbols, List.contains_eq_mem]
    simp [noBar]
    decide

theorem Reads.append (read : Reads c s k n) (soft : Follow.soft.Admits rest)
    (inLine : Follow.line.Admits rest ∨ code.run (c :: s) ≠ .lineComment) :
    Reads c (s ++ rest) k n := by
  have noQuote : ∀ d ∈ rest.head?, d ≠ '\'' := by
    rintro d head rfl
    exact absurd (soft _ head) (by decide)
  have noDoubleQuote : ∀ d ∈ rest.head?, d ≠ '"' := by
    rintro d head rfl
    exact absurd (soft _ head) (by decide)
  cases read with
  | lineComment s =>
    have ends : '\n' ∈ '-' :: s ∨ Follow.line.Admits rest := by
      by_cases lineEnd : '\n' ∈ s
      · exact .inl (List.mem_cons_of_mem _ lineEnd)
      · refine .inr (inLine.resolve_right fun other => other ?_)
        exact run_lineComment lineEnd
    rw [← takeWhile_line_append ends]
    exact .lineComment (s ++ rest)
  | blockComment closed => exact .blockComment (commentLength_append closed)
  | string closed => exact .string (quotedLength_append closed noQuote)
  | quotedName closed => exact .quotedName (quotedLength_append closed noDoubleQuote)
  | plain start found =>
    by_cases bar : c = '|'
    · -- a bar stands only in a pair, so its token is complete
      subst bar
      cases s with
      | nil => cases found
      | cons d s => exact .plain ⟨by decide, by decide, by simp, by simp⟩ found
    · have ends : Ends c rest := fun d head => inert_of_isSoft (soft d head) bar
      refine .plain ((startsPlain_append ends).mpr start) ?_
      rw [plain_append ends, found]

theorem Reads.run_drop_ne_lineComment (read : Reads c s k n)
    (other : code.run (c :: s) ≠ .lineComment) : code.run (s.drop n) ≠ .lineComment := by
  cases more : s.drop n with
  | nil => simp
  | cons d s' =>
    have resumes := resumes_of_reads read
    have split : c :: s = (c :: s.take n) ++ s.drop n := by simp
    rw [split, run_append, more] at other
    rw [more] at resumes
    rwa [resumes.run_cons] at other

end Lexeme

theorem markCount_append (o o' : List TokenShape) :
    markCount (o ++ o') = markCount o + markCount o' := by
  simp [markCount]

theorem Lexes.append {s rest : Text} {o o' : List TokenShape} (h : Lexes s o) (g : Lexes rest o')
    (soft : Follow.soft.Admits rest)
    (inLine : Follow.line.Admits rest ∨ code.run s ≠ .lineComment) :
    Lexes (s ++ rest) (o ++ o') := by
  induction h with
  | nil => exact g
  | @blank c s o blank _ ih =>
    rw [run_cons, step, opening_of_isBlank blank] at inLine
    exact .blank blank (ih inLine)
  | @token c s k n o visible read _ ih =>
    have bound := Lexeme.le_length_of_reads read
    have read' := read.append soft inLine
    have rest' := ih (inLine.imp_right read.run_drop_ne_lineComment)
    rw [← List.drop_append_of_le_length bound] at rest'
    have whole := Lexes.token visible read' rest'
    rw [List.take_append_of_le_length bound] at whole
    exact whole

end SqlCompose
