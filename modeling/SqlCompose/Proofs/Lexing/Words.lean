import SqlCompose.Proofs.Lexing.Continues

/-! Words: texts that stay on their line, split into tokens that are no placeholders, and can be
followed by any soft character. Names are words, and so are paths of names. -/

namespace SqlCompose

open LexMode

/-- A text of one line without placeholders that can be followed by any soft character. -/
structure IsWord (s : Text) : Prop where
  inLine : '\n' ∉ s
  continues : Continues s 0 .soft

theorem Doubled.mem_encode_iff {q d : Char} {s : Text} :
    d ∈ Doubled.encode q s ↔ d ∈ s := by
  simp only [Doubled.encode, List.mem_flatMap]
  constructor
  · rintro ⟨c, mem, found⟩
    split at found
    · next same =>
      subst same
      simp only [List.mem_cons, List.not_mem_nil, or_false, or_self] at found
      rwa [found]
    · rwa [List.mem_singleton.mp found]
  · intro mem
    refine ⟨d, mem, ?_⟩
    split
    · next same => simp [same]
    · simp

theorem Doubled.encode_of_not_mem {q : Char} {s : Text} (none : q ∉ s) :
    Doubled.encode q s = s := by
  induction s with
  | nil => rfl
  | cons c s ih =>
    simp only [List.mem_cons, not_or] at none
    have rest := ih none.2
    simp only [Doubled.encode] at rest ⊢
    rw [List.flatMap_cons, rest, if_neg (Ne.symm none.1)]
    rfl

theorem Lexeme.quotedLength_encode {q : Char} {allowed : Char → Bool} {s rest : Text}
    (permitted : ∀ c ∈ s, c ≠ q → allowed c = true) (other : ∀ d ∈ rest.head?, d ≠ q) :
    quotedLength q allowed (Doubled.encode q s ++ q :: rest) =
      some ((Doubled.encode q s).length + 1) := by
  induction s with
  | nil => exact quotedLength_closed other
  | cons c s ih =>
    have later := ih fun d mem => permitted d (List.mem_cons_of_mem c mem)
    simp only [Doubled.encode] at later
    simp only [Doubled.encode, List.flatMap_cons]
    by_cases same : c = q
    · simp [same, quotedLength, later]
    · have allowed := permitted c (by simp) same
      simp only [same, if_false, List.cons_append, List.nil_append]
      rw [quotedLength_of_ne _ same, if_pos allowed, later]
      rfl

theorem drop_encode (s rest : Text) (q : Char) :
    (Doubled.encode q s ++ q :: rest).drop ((Doubled.encode q s).length + 1) = rest := by
  rw [List.drop_length_add_append]
  rfl

theorem isBlank_of_isNameChar {c : Char} (h : isNameChar c = true) : isBlank c = false := by
  cases blank : isBlank c with
  | false => rfl
  | true =>
    rw [Lexeme.isNameChar_of_isBlank blank] at h
    cases h

theorem reads_name {c : Char} {s rest : Text} (start : isNameStart c = true)
    (name : s.all isNameChar = true) (ends : ∀ d ∈ rest.head?, isNameChar d = false) :
    Lexeme.Reads c (s ++ rest) .name s.length := by
  have other : ∀ d : Char, isNameStart d = false → c ≠ d := by
    rintro d noStart rfl
    simp [noStart] at start
  have quote := other '\'' (by decide)
  have doubleQuote := other '"' (by decide)
  have dash := other '-' (by decide)
  have slash := other '/' (by decide)
  have mark := other '?' (by decide)
  have whole : (s ++ rest).takeWhile isNameChar = s := by
    rw [List.takeWhile_append_of_pos (List.all_eq_true.mp name)]
    cases rest with
    | nil => simp
    | cons d rest => simp [ends d rfl]
  refine .plain ⟨quote, doubleQuote, fun h => dash h.1, fun h => slash h.1⟩ ?_
  rw [Lexeme.plain, if_neg mark, if_pos start, whole]

namespace SimpleName

variable {n : SimpleName} {rest : Text} {k : Nat}

theorem marks_sql (inLine : '\n' ∉ n.text)
    (ends : ∀ d ∈ rest.head?, isNameChar d = false ∧ d ≠ '"') (h : Marks rest k) :
    Marks (n.sql ++ rest) k := by
  cases n with
  | unquoted s folded =>
    cases s with
    | nil => cases folded
    | cons c s =>
      simp only [isFoldedName, isPlainName, Bool.and_eq_true] at folded
      obtain ⟨⟨start, name⟩, -⟩ := folded
      have read := reads_name start name fun d head => (ends d head).1
      exact .word (isBlank_of_isNameChar (Lexeme.isNameChar_of_isNameStart start)) read (by decide)
        (by rw [List.append_eq, List.drop_left]; exact h)
  | quoted s printable =>
    have permitted : ∀ c ∈ s, c ≠ '"' → decide (c ≠ '\n') = true := by
      rintro c mem -
      simp only [decide_eq_true_eq]
      rintro rfl
      exact inLine mem
    have closed := Lexeme.quotedLength_encode permitted fun d head => (ends d head).2
    have text : (quoted s printable).sql ++ rest =
        '"' :: (Doubled.encode '"' s ++ '"' :: rest) := by
      simp [sql, Doubled.enclose]
    rw [text]
    refine .word (by decide) (.quotedName closed) (by decide) ?_
    rwa [drop_encode]

theorem inLine_sql (inLine : '\n' ∉ n.text) : '\n' ∉ n.sql := by
  cases n with
  | unquoted s folded => exact inLine
  | quoted s printable =>
    simp only [sql, Doubled.enclose, List.cons_append, List.mem_cons, List.mem_append,
      Doubled.mem_encode_iff, List.not_mem_nil, or_false, not_or]
    exact ⟨by decide, inLine, by decide⟩

end SimpleName

theorem ends_of_isSoft {d : Char} (soft : isSoft d = true) : isNameChar d = false ∧ d ≠ '"' := by
  simp only [isSoft, Bool.or_eq_true, beq_iff_eq] at soft
  rcases soft with (((blank | rfl) | rfl) | rfl) | rfl
  · refine ⟨Lexeme.isNameChar_of_isBlank blank, ?_⟩
    rintro rfl
    exact absurd blank (by decide)
  all_goals decide

theorem SimpleName.isWord_sql {n : SimpleName} (inLine : '\n' ∉ n.text) : IsWord n.sql := by
  refine ⟨inLine_sql inLine, fun rest k soft marks => ?_⟩
  rw [Nat.zero_add]
  exact marks_sql inLine (fun d head => ends_of_isSoft (soft d head)) marks

theorem marks_joinWith_dot {ns : List SimpleName} (inLine : ∀ n ∈ ns, '\n' ∉ n.text)
    {rest : Text} {k : Nat} (soft : Follow.soft.Admits rest) (h : Marks rest k) :
    Marks (Text.joinWith ['.'] (ns.map SimpleName.sql) ++ rest) k := by
  induction ns with
  | nil => exact h
  | cons n ns ih =>
    have first := inLine n (by simp)
    have later := ih fun m mem => inLine m (List.mem_cons_of_mem n mem)
    cases ns with
    | nil => exact SimpleName.marks_sql first (fun d head => ends_of_isSoft (soft d head)) h
    | cons m ns =>
      have dot := continues_single (c := '.') (by decide) _ _ trivial later
      rw [Nat.zero_add] at dot
      have ends : ∀ d ∈ (['.'] ++ (Text.joinWith ['.'] ((m :: ns).map SimpleName.sql) ++
          rest)).head?, isNameChar d = false ∧ d ≠ '"' := by
        intro d head
        obtain rfl := Option.some.inj head
        decide
      have whole := SimpleName.marks_sql first ends dot
      simpa [Text.joinWith] using whole

theorem inLine_joinWith_dot {ns : List SimpleName} (inLine : ∀ n ∈ ns, '\n' ∉ n.text) :
    '\n' ∉ Text.joinWith ['.'] (ns.map SimpleName.sql) := by
  induction ns with
  | nil => simp [Text.joinWith]
  | cons n ns ih =>
    have first := SimpleName.inLine_sql (inLine n (by simp))
    have later := ih fun m mem => inLine m (List.mem_cons_of_mem n mem)
    cases ns with
    | nil => exact first
    | cons m ns => simpa [Text.joinWith, first] using later

theorem isWord_joinWith_dot {ns : List SimpleName} (inLine : ∀ n ∈ ns, '\n' ∉ n.text) :
    IsWord (Text.joinWith ['.'] (ns.map SimpleName.sql)) := by
  refine ⟨inLine_joinWith_dot inLine, fun rest k soft marks => ?_⟩
  rw [Nat.zero_add]
  exact marks_joinWith_dot inLine soft marks

end SqlCompose
