import SqlCompose.Token.Scan
import Mathlib.Data.List.Basic

/-! Reading one token. A comment or a text in quotes runs up to its closing, over blanks and line
ends. All other tokens are plain: they stop before the first blank, and before every other
character that cannot continue them. -/

namespace SqlCompose.Lexeme

def plain (c : Char) (s : Text) : Option (TokenKind × Nat) :=
  if c = '?' then some (.placeholder, 0)
  else if isNameStart c then some (.name, (s.takeWhile isNameChar).length)
  else if Numeral.isDigit c then some (.number, numberLength s)
  else if s.head?.any fun d => pairSymbols.contains (c, d) then some (.symbol, 1)
  else if singleSymbols.contains c then some (.symbol, 0)
  else none

structure StartsPlain (c : Char) (s : Text) : Prop where
  quote : c ≠ '\''
  doubleQuote : c ≠ '"'
  dash : ¬(c = '-' ∧ s.head? = some '-')
  slash : ¬(c = '/' ∧ s.head? = some '*')

/-- The ways to read a token, by what it is. -/
inductive Reads : Char → Text → TokenKind → Nat → Prop
  | lineComment (s : Text) :
    Reads '-' ('-' :: s) .comment (('-' :: s).takeWhile (· ≠ '\n')).length
  | blockComment {s : Text} {n : Nat} (closed : commentLength s = some n) :
    Reads '/' ('*' :: s) .comment (n + 1)
  | string {s : Text} {n : Nat} (closed : quotedLength '\'' (fun _ => true) s = some n) :
    Reads '\'' s .string n
  | quotedName {s : Text} {n : Nat} (closed : quotedLength '"' (· ≠ '\n') s = some n) :
    Reads '"' s .quotedName n
  | plain {c : Char} {s : Text} {k : TokenKind} {n : Nat} (start : StartsPlain c s)
    (found : plain c s = some (k, n)) : Reads c s k n

theorem read_of_startsPlain {c : Char} {s : Text} (h : StartsPlain c s) :
    read c s = match plain c s with
      | some token => .ok token
      | none => .error (.strange c) := by
  simp only [read, if_neg h.dash, if_neg h.slash, if_neg h.quote, if_neg h.doubleQuote, plain]
  split_ifs <;> rfl

theorem read_dash (s : Text) : read '-' ('-' :: s) =
    .ok (.comment, (('-' :: s).takeWhile (· ≠ '\n')).length) := rfl

theorem read_slash (s : Text) : read '/' ('*' :: s) =
    match commentLength s with
    | some n => .ok (.comment, n + 1)
    | none => .error .openComment := rfl

theorem read_quote (s : Text) : read '\'' s =
    match quotedLength '\'' (fun _ => true) s with
    | some n => .ok (.string, n)
    | none => .error .openString := rfl

theorem read_doubleQuote (s : Text) : read '"' s =
    match quotedLength '"' (· ≠ '\n') s with
    | some n => .ok (.quotedName, n)
    | none => .error (.strange '"') := rfl

theorem read_eq_ok_iff {c : Char} {s : Text} {k : TokenKind} {n : Nat} :
    read c s = .ok (k, n) ↔ Reads c s k n := by
  constructor
  · intro h
    by_cases dash : c = '-' ∧ s.head? = some '-'
    · obtain ⟨rfl, head⟩ := dash
      obtain ⟨s, rfl⟩ := List.head?_eq_some_iff.mp head
      rw [read_dash] at h
      cases h
      exact .lineComment s
    by_cases slash : c = '/' ∧ s.head? = some '*'
    · obtain ⟨rfl, head⟩ := slash
      obtain ⟨s, rfl⟩ := List.head?_eq_some_iff.mp head
      rw [read_slash] at h
      split at h <;> cases h
      next closed => exact .blockComment closed
    by_cases quote : c = '\''
    · subst quote
      rw [read_quote] at h
      split at h <;> cases h
      next closed => exact .string closed
    by_cases doubleQuote : c = '"'
    · subst doubleQuote
      rw [read_doubleQuote] at h
      split at h <;> cases h
      next closed => exact .quotedName closed
    have start : StartsPlain c s := ⟨quote, doubleQuote, dash, slash⟩
    rw [read_of_startsPlain start] at h
    split at h <;> cases h
    next found => exact .plain start found
  · intro h
    cases h with
    | lineComment s => exact read_dash s
    | blockComment closed => rw [read_slash, closed]
    | string closed => rw [read_quote, closed]
    | quotedName closed => rw [read_doubleQuote, closed]
    | plain start found => rw [read_of_startsPlain start, found]

theorem eq_of_reads_placeholder {c : Char} {s : Text} {n : Nat} (h : Reads c s .placeholder n) :
    c = '?' ∧ n = 0 := by
  cases h with
  | plain start found =>
    unfold plain at found
    split_ifs at found with mark <;> simp only [Option.some.injEq, Prod.mk.injEq] at found
    · exact ⟨mark, found.2.symm⟩
    all_goals cases found.1

theorem quotedLength_of_ne {q c : Char} (allowed : Char → Bool) (other : c ≠ q) (s : Text) :
    quotedLength q allowed (c :: s) =
      if allowed c then (quotedLength q allowed s).map (· + 1) else none := by
  cases s <;> simp [quotedLength, other]

theorem quotedLength_closed {q : Char} {allowed : Char → Bool} {s : Text}
    (other : ∀ d ∈ s.head?, d ≠ q) : quotedLength q allowed (q :: s) = some 1 := by
  cases s with
  | nil => simp [quotedLength]
  | cons d s => simp [quotedLength, other d rfl]

theorem isAlpha_iff {c : Char} :
    c.isAlpha = true ↔ (65 ≤ c.toNat ∧ c.toNat ≤ 90) ∨ (97 ≤ c.toNat ∧ c.toNat ≤ 122) := by
  have upper : c.isUpper = decide (65 ≤ c.toNat ∧ c.toNat ≤ 90) := rfl
  have lower : c.isLower = (decide (97 ≤ c.toNat) && decide (c.toNat ≤ 122)) := rfl
  have letter : c.isAlpha = (c.isUpper || c.isLower) := rfl
  simp [letter, upper, lower]

theorem isNameChar_of_isDigit {d : Char} (h : Numeral.isDigit d = true) :
    isNameChar d = true := by
  have digit : d.isDigit = true := by
    simpa [Numeral.isDigit, Char.le_def, Char.isDigit] using h
  simp [isNameChar, Char.isAlphanum, digit]

theorem isNameChar_of_isNameStart {d : Char} (h : isNameStart d = true) :
    isNameChar d = true := by
  simp only [isNameStart, Bool.or_eq_true] at h
  rcases h with h | h <;> simp [isNameChar, Char.isAlphanum, h]

theorem isNameChar_of_isBlank {d : Char} (h : isBlank d = true) : isNameChar d = false := by
  have dollar : d ≠ '$' := by rintro rfl; exact absurd h (by decide)
  have hash : d ≠ '#' := by rintro rfl; exact absurd h (by decide)
  have underscore : d ≠ '_' := by rintro rfl; exact absurd h (by decide)
  have number : d.val.toNat = d.toNat := rfl
  simp only [isBlank, Bool.or_eq_true, Bool.and_eq_true, beq_iff_eq, decide_eq_true_eq] at h
  have letter : ¬d.isAlpha = true := by rw [isAlpha_iff]; omega
  have digit : d.isDigit = false := by
    simp [Char.isDigit, UInt32.le_iff_toNat_le, number]
    omega
  simp [isNameChar, Char.isAlphanum, letter, digit, dollar, hash, underscore]

theorem digitsLength_le (s : Text) : digitsLength s ≤ s.length :=
  (List.takeWhile_sublist _).length_le

theorem fractionLength_le (s : Text) : fractionLength s ≤ s.length := by
  unfold fractionLength
  split
  · next s =>
    have digits := digitsLength_le s
    split <;> simp only [List.length_cons] <;> omega
  · omega

theorem exponentLength_le (s : Text) : exponentLength s ≤ s.length := by
  unfold exponentLength
  split
  · omega
  · next e s =>
    split
    · split
      · omega
      · next d rest =>
        have signed := digitsLength_le rest
        have unsigned := digitsLength_le (d :: rest)
        simp only [List.length_cons] at unsigned ⊢
        split <;> split <;> omega
    · omega

theorem numberLength_le (s : Text) : numberLength s ≤ s.length := by
  have whole := digitsLength_le s
  have fraction := fractionLength_le (s.drop (digitsLength s))
  have exponent := exponentLength_le
    (s.drop (digitsLength s + fractionLength (s.drop (digitsLength s))))
  simp only [List.length_drop] at fraction exponent
  simp only [numberLength]
  omega

theorem le_length_of_plain {c : Char} {s : Text} {k : TokenKind} {n : Nat}
    (h : plain c s = some (k, n)) : n ≤ s.length := by
  unfold plain at h
  split_ifs at h with mark name digit pair single
  · obtain ⟨-, rfl⟩ := Prod.mk.inj (Option.some.inj h)
    exact Nat.zero_le _
  · obtain ⟨-, rfl⟩ := Prod.mk.inj (Option.some.inj h)
    exact (List.takeWhile_sublist _).length_le
  · obtain ⟨-, rfl⟩ := Prod.mk.inj (Option.some.inj h)
    exact numberLength_le s
  · obtain ⟨-, rfl⟩ := Prod.mk.inj (Option.some.inj h)
    cases s with
    | nil => simp at pair
    | cons d s => simp
  · obtain ⟨-, rfl⟩ := Prod.mk.inj (Option.some.inj h)
    exact Nat.zero_le _

/-- Whether `d` cannot continue a plain token that starts with `c`, nor make it the start of a
comment. -/
def inert (c d : Char) : Bool :=
  !isNameChar d && d != '.' && d != '+' && d != '-' && d != '*' && !pairSymbols.contains (c, d)

theorem inert_of_isBlank (c : Char) {d : Char} (h : isBlank d = true) : inert c d = true := by
  have word := isNameChar_of_isBlank h
  have other : ∀ e : Char, isBlank e = false → d ≠ e := by
    rintro e visible rfl
    simp [visible] at h
  have point := other '.' (by decide)
  have plus := other '+' (by decide)
  have minus := other '-' (by decide)
  have star := other '*' (by decide)
  have bar := other '|' (by decide)
  have above := other '>' (by decide)
  have same := other '=' (by decide)
  simp [inert, word, point, plus, minus, star, bar, above, same, pairSymbols]

def Ends (c : Char) (t : Text) : Prop :=
  ∀ d ∈ t.head?, inert c d = true

section Append

variable {c : Char} {t : Text} (ends : Ends c t)
include ends

theorem Ends.cases : t = [] ∨ ∃ d rest, t = d :: rest ∧ isNameChar d = false ∧ d ≠ '.' ∧ d ≠ '+' ∧
    d ≠ '-' ∧ d ≠ '*' ∧ pairSymbols.contains (c, d) = false := by
  cases t with
  | nil => exact .inl rfl
  | cons d rest =>
    have inert := ends d rfl
    simp only [Lexeme.inert, Bool.and_eq_true, Bool.not_eq_true', bne_iff_ne] at inert
    obtain ⟨⟨⟨⟨⟨word, point⟩, plus⟩, minus⟩, star⟩, pair⟩ := inert
    exact .inr ⟨d, rest, rfl, word, point, plus, minus, star, pair⟩

theorem digitsLength_append (w : Text) : digitsLength (w ++ t) = digitsLength w := by
  induction w with
  | nil =>
    rcases ends.cases with rfl | ⟨d, rest, rfl, word, -⟩
    · rfl
    · have other : ¬Numeral.isDigit d = true := by
        intro digit
        simp [isNameChar_of_isDigit digit] at word
      simp [digitsLength, other]
  | cons d w ih =>
    simp only [digitsLength, List.cons_append, List.takeWhile_cons] at ih ⊢
    split <;> simp [ih]

theorem fractionLength_append (w : Text) : fractionLength (w ++ t) = fractionLength w := by
  cases w with
  | nil =>
    rcases ends.cases with rfl | ⟨d, rest, rfl, -, point, -⟩
    · rfl
    · simp [fractionLength, point]
  | cons d w =>
    by_cases point : d = '.'
    · simp [point, fractionLength, digitsLength_append ends]
    · simp [point, fractionLength]

theorem exponentLength_append (w : Text) : exponentLength (w ++ t) = exponentLength w := by
  have first : digitsLength t = 0 := digitsLength_append ends []
  match w with
  | [] =>
    rcases ends.cases with rfl | ⟨d, rest, rfl, word, -⟩
    · rfl
    · have small : d ≠ 'e' := by rintro rfl; exact absurd word (by decide)
      have big : d ≠ 'E' := by rintro rfl; exact absurd word (by decide)
      simp [exponentLength, small, big]
  | [e] =>
    rcases ends.cases with rfl | ⟨d, rest, rfl, -, -, plus, minus, -⟩
    · rfl
    · simp [exponentLength, plus, minus, first]
  | e :: d :: w =>
    have signed := digitsLength_append ends w
    have unsigned := digitsLength_append ends (d :: w)
    simp only [List.cons_append] at unsigned
    simp only [exponentLength, List.cons_append, signed, unsigned]

theorem numberLength_append (w : Text) : numberLength (w ++ t) = numberLength w := by
  have whole := digitsLength_le w
  have fraction := fractionLength_le (w.drop (digitsLength w))
  rw [List.length_drop] at fraction
  have inside : digitsLength w + fractionLength (w.drop (digitsLength w)) ≤ w.length := by omega
  simp only [numberLength, digitsLength_append ends, List.drop_append_of_le_length whole,
    fractionLength_append ends, List.drop_append_of_le_length inside, exponentLength_append ends]

theorem takeWhile_isNameChar_append (w : Text) :
    (w ++ t).takeWhile isNameChar = w.takeWhile isNameChar := by
  induction w with
  | nil =>
    rcases ends.cases with rfl | ⟨d, rest, rfl, word, -⟩
    · rfl
    · simp [word]
  | cons d w ih =>
    simp only [List.cons_append, List.takeWhile_cons, ih]

theorem any_pair_append (w : Text) :
    ((w ++ t).head?.any fun d => pairSymbols.contains (c, d)) =
      w.head?.any fun d => pairSymbols.contains (c, d) := by
  cases w with
  | nil =>
    rcases ends.cases with rfl | ⟨d, rest, rfl, -, -, -, -, -, pair⟩
    · rfl
    · simpa using pair
  | cons d w => rfl

theorem plain_append (w : Text) : plain c (w ++ t) = plain c w := by
  simp only [plain, takeWhile_isNameChar_append ends, numberLength_append ends,
    any_pair_append ends]

theorem startsPlain_append {w : Text} : StartsPlain c (w ++ t) ↔ StartsPlain c w := by
  have heads : ∀ e : Char, e = '-' ∨ e = '*' →
      ((w ++ t).head? = some e ↔ w.head? = some e) := by
    intro e sign
    cases w with
    | nil =>
      rcases ends.cases with rfl | ⟨d, rest, rfl, -, -, -, minus, star, -⟩
      · rfl
      · rcases sign with rfl | rfl <;> simp [minus, star]
    | cons d w => rfl
  constructor
  · rintro ⟨quote, doubleQuote, dash, slash⟩
    rw [heads '-' (.inl rfl)] at dash
    rw [heads '*' (.inr rfl)] at slash
    exact ⟨quote, doubleQuote, dash, slash⟩
  · rintro ⟨quote, doubleQuote, dash, slash⟩
    rw [← heads '-' (.inl rfl)] at dash
    rw [← heads '*' (.inr rfl)] at slash
    exact ⟨quote, doubleQuote, dash, slash⟩

end Append

end SqlCompose.Lexeme
