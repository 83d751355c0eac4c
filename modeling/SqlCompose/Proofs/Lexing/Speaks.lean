import SqlCompose.Proofs.Lexing.Respaced
import SqlCompose.Proofs.Lexing.Rows

/-! Texts that say something: they do not consist of blanks and comments. What is said stays said
in front of any other text, so a sign that may begin a comment counts only together with the
character behind it. A text that is read as tokens says something, behind a soft character at the
latest, exactly if one of its tokens is not a comment. -/

namespace SqlCompose

/-- Whether it is certain that a token other than a comment begins with `c`. -/
def isSettled (c : Char) (next : Option Char) : Bool :=
  if c = '-' then next.any (· ≠ '-')
  else if c = '/' then next.any (· ≠ '*')
  else true

/-- Behind blanks and comments, a token of another kind begins. -/
inductive Speaks : Text → Prop
  | here {c : Char} {s : Text} (visible : isBlank c = false)
    (settled : isSettled c s.head? = true) : Speaks (c :: s)
  | blank {c : Char} {s : Text} (blank : isBlank c = true) (behind : Speaks s) : Speaks (c :: s)
  | comment {c : Char} {s : Text} {n : Nat} (read : Lexeme.Reads c s .comment n)
    (behind : Speaks (s.drop n)) : Speaks (c :: s)

namespace Lexeme

variable {c : Char} {s rest : Text} {k : TokenKind} {n : Nat}

theorem Reads.kind_ne_comment (read : Reads c s k n) (settled : isSettled c s.head? = true) :
    k ≠ .comment := by
  cases read with
  | lineComment s => simp [isSettled] at settled
  | blockComment closed => simp [isSettled] at settled
  | string closed => decide
  | quotedName closed => decide
  | plain start found =>
    rintro rfl
    simp only [Lexeme.plain] at found
    split_ifs at found <;> cases found

theorem Reads.isBlank_of_comment (read : Reads c s .comment n) : isBlank c = false := by
  cases read with
  | lineComment s => decide
  | blockComment closed => decide
  | plain start found =>
    simp only [Lexeme.plain] at found
    split_ifs at found <;> cases found

theorem Reads.unique {k' : TokenKind} {n' : Nat} (read : Reads c s k n) (read' : Reads c s k' n') :
    k = k' ∧ n = n' := by
  have same := (read_eq_ok_iff.mpr read).symm.trans (read_eq_ok_iff.mpr read')
  exact Prod.mk.inj (Except.ok.inj same)

theorem Reads.append_comment (read : Reads c s .comment n) (more : s.drop n ≠ []) (rest : Text) :
    Reads c (s ++ rest) .comment n := by
  cases read with
  | lineComment s =>
    have lineEnd : '\n' ∈ '-' :: s := by
      by_contra inLine
      have whole : ('-' :: s).takeWhile (· ≠ '\n') = '-' :: s := by
        rw [List.takeWhile_eq_self_iff]
        intro d mem
        simpa using fun same : d = '\n' => inLine (same ▸ mem)
      rw [whole] at more
      simp at more
    have longer : ('-' :: (s ++ rest)).takeWhile (· ≠ '\n') = ('-' :: s).takeWhile (· ≠ '\n') :=
      takeWhile_line_append (.inl lineEnd)
    rw [← longer]
    exact .lineComment (s ++ rest)
  | blockComment closed => exact .blockComment (commentLength_append closed)
  | plain start found =>
    simp only [Lexeme.plain] at found
    split_ifs at found <;> cases found

theorem Reads.isSettled_append (read : Reads c s k n) (other : k ≠ .comment) (some : rest ≠ [])
    (soft : Follow.soft.Admits rest) : isSettled c (s ++ rest).head? = true := by
  obtain ⟨d, rest, rfl⟩ := List.exists_cons_of_ne_nil some
  have softly : isSoft d = true := soft d rfl
  have next : (s ++ d :: rest).head? = s.head?.getD d := by cases s <;> rfl
  have dash : c = '-' → s.head?.getD d ≠ '-' := by
    rintro rfl
    cases s with
    | nil => rintro rfl; exact absurd softly (by decide)
    | cons e s =>
      rintro (rfl : e = '-')
      exact other (read.unique (.lineComment s)).1
  have slash : c = '/' → s.head?.getD d ≠ '*' := by
    rintro rfl
    cases s with
    | nil => rintro rfl; exact absurd softly (by decide)
    | cons e s =>
      rintro (rfl : e = '*')
      cases read with
      | blockComment closed => exact other rfl
      | plain start found => exact start.slash ⟨rfl, rfl⟩
  rw [next, isSettled]
  split
  · next first => simpa using dash first
  · split
    · next first => simpa using slash first
    · rfl

end Lexeme

namespace Speaks

variable {s : Text} {o : List TokenShape}

theorem ne_nil (h : Speaks s) : s ≠ [] := by
  cases h <;> simp

theorem append (h : Speaks s) (t : Text) : Speaks (s ++ t) := by
  induction h with
  | @here c s visible settled =>
    refine .here visible ?_
    cases s with
    | nil =>
      have plain : c ≠ '-' ∧ c ≠ '/' := by
        constructor <;> rintro rfl <;> simp [isSettled] at settled
      simp [isSettled, plain]
    | cons d s => exact settled
  | blank blank _ ih => exact .blank blank ih
  | @comment c s n read behind ih =>
    have bound := Lexeme.le_length_of_reads read
    rw [← List.drop_append_of_le_length bound] at ih
    exact .comment (read.append_comment behind.ne_nil t) ih

theorem exists_of_lexes (h : Speaks s) (lexes : Lexes s o) : ∃ x ∈ o, x.1 ≠ .comment := by
  induction h generalizing o with
  | here visible settled =>
    cases lexes with
    | blank blank => simp [visible] at blank
    | token _ read behind => exact ⟨_, List.mem_cons_self, read.kind_ne_comment settled⟩
  | blank blank _ ih =>
    cases lexes with
    | blank _ behind => exact ih behind
    | token visible => simp [visible] at blank
  | comment read _ ih =>
    cases lexes with
    | blank blank => simp [read.isBlank_of_comment] at blank
    | token visible read' behind =>
      obtain ⟨rfl, rfl⟩ := read.unique read'
      obtain ⟨x, mem, other⟩ := ih behind
      exact ⟨x, List.mem_cons_of_mem _ mem, other⟩

end Speaks

open LexMode

theorem Lexes.speaks_append {s rest : Text} {o : List TokenShape} (h : Lexes s o)
    (some : rest ≠ []) (soft : Follow.soft.Admits rest)
    (inLine : Follow.line.Admits rest ∨ code.run s ≠ .lineComment)
    (said : Speaks rest ∨ ∃ x ∈ o, x.1 ≠ .comment) : Speaks (s ++ rest) := by
  induction h with
  | nil => simpa using said
  | @blank c s o blank _ ih =>
    rw [run_cons, step, opening_of_isBlank blank] at inLine
    exact .blank blank (ih inLine said)
  | @token c s k n o visible read _ ih =>
    by_cases comment : k = .comment
    · subst comment
      have bound := Lexeme.le_length_of_reads read
      have later : Speaks rest ∨ ∃ x ∈ o, x.1 ≠ .comment := by
        rcases said with behind | ⟨x, mem, other⟩
        · exact .inl behind
        · rcases List.mem_cons.mp mem with rfl | mem
          · exact absurd rfl other
          · exact .inr ⟨x, mem, other⟩
      have behind := ih (inLine.imp_right read.run_drop_ne_lineComment) later
      rw [← List.drop_append_of_le_length bound] at behind
      exact .comment (read.append soft inLine) behind
    · exact .here visible (read.isSettled_append comment some soft)

theorem Lexes.speaks_line_iff {s : Text} {o : List TokenShape} (h : Lexes s o) :
    Speaks (s ++ ['\n']) ↔ ∃ x ∈ o, x.1 ≠ .comment := by
  have line : Follow.line.Admits ['\n'] := by simp [Follow.Admits]
  refine ⟨fun speaks => ?_, fun token => ?_⟩
  · have lexes := h.append (.blank (by decide) .nil) line.soft_of_line (.inl line)
    simpa using speaks.exists_of_lexes lexes
  · exact h.speaks_append (by simp) line.soft_of_line (.inl line) (.inr token)

theorem Lexes.speaks_tokens_iff {s : Text} {ts : List Token} (h : Lexes s (ts.map Token.shape)) :
    Speaks (s ++ ['\n']) ↔ ∃ t ∈ ts, t.kind ≠ .comment := by
  have kind : ∀ t : Token, t.shape.1 = t.kind := fun _ => rfl
  simp [h.speaks_line_iff, kind]

def RowSpeaks (cells : List Cell) : Prop :=
  ∀ s, Relaid cells s → Speaks s

def RowPasses (cells : List Cell) (f : Follow) : Prop :=
  ∀ s, Relaid cells s → ∀ rest, f.Admits rest → Speaks rest → Speaks (s ++ rest)

def RowLexes (cells : List Cell) (o : List TokenShape) : Prop :=
  ∀ s, Relaid cells s → Lexes s o

section Rows

variable {xs ys : List Cell} {f : Follow} {s : Text} {o : List TokenShape}

theorem RowSpeaks.append (h : RowSpeaks xs) (ys : List Cell) : RowSpeaks (xs ++ ys) := by
  intro u laid
  obtain ⟨s, t, rfl, front, -⟩ := laid.exists_append
  exact (h s front).append t

theorem RowPasses.append (h : RowPasses xs f) (g : RowSpeaks ys)
    (fits : ∀ t, Relaid ys t → f.Admits t) : RowSpeaks (xs ++ ys) := by
  intro u laid
  obtain ⟨s, t, rfl, front, back⟩ := laid.exists_append
  exact h s front t (fits t back) (g t back)

theorem RowSpeaks.passes (h : RowSpeaks xs) : RowPasses xs f :=
  fun s laid rest _ _ => (h s laid).append rest

theorem RowLexes.passes (h : RowLexes xs o) (noComment : ∀ s, Relaid xs s →
    code.run s ≠ .lineComment) : RowPasses xs .soft :=
  fun s laid _ soft speaks =>
    (h s laid).speaks_append speaks.ne_nil soft (.inr (noComment s laid)) (.inl speaks)

theorem RowLexes.passes_line (h : RowLexes xs o) : RowPasses xs .line :=
  fun s laid _ line speaks =>
    (h s laid).speaks_append speaks.ne_nil line.soft_of_line (.inl line) (.inl speaks)

/-- Whether a text says something where its first line begins. -/
def isVoice : Text → Bool
  | [] => false
  | c :: s => if c = ' ' then isVoice s else !isBlank c && isSettled c s.head?

def isSoftVoice (s : Text) : Bool :=
  s.head?.any isSoft && isVoice s

theorem Relaid.head? {t : Text} (laid : Relaid (s.map Cell.char) t) : t.head? = s.head? := by
  cases s with
  | nil =>
    cases laid
    rfl
  | cons c s =>
    cases laid with
    | cell _ _ => rfl
    | lineEnd n _ => rfl

theorem rowSpeaks_of_isVoice (voice : isVoice s = true) : RowSpeaks (s.map Cell.char) := by
  induction s with
  | nil => cases voice
  | cons c s ih =>
    intro t laid
    rw [isVoice] at voice
    split at voice
    · next space =>
      subst space
      cases laid with
      | cell _ rest => exact .blank (by decide) (ih voice _ rest)
    · obtain ⟨visible, settled⟩ := (Bool.and_eq_true _ _).mp voice
      have visible : isBlank c = false := by simpa using visible
      cases laid with
      | cell _ rest => exact .here visible (rest.head?.symm ▸ settled)
      | lineEnd => exact absurd visible (by decide)

end Rows

end SqlCompose
