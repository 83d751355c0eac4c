import SqlCompose.Literal.Registry
import SqlCompose.Proofs.Binding
import SqlCompose.Proofs.Lexing.Words

/-! Literals are words: numbers because of the few characters they are written with, and texts
because a quote inside is doubled and a line end is spliced in by its number. -/

namespace SqlCompose

open LexMode

def isNumeral (c : Char) : Bool :=
  Numeral.isDigit c || c == '.'

theorem not_isNameStart_of_isDigit {c : Char} (digit : Numeral.isDigit c = true) :
    isNameStart c = false := by
  have underscore : c ≠ '_' := by rintro rfl; exact absurd digit (by decide)
  have number : c.val.toNat = c.toNat := rfl
  simp only [Numeral.isDigit, Bool.and_eq_true, decide_eq_true_eq, Char.le_def,
    UInt32.le_iff_toNat_le, number] at digit
  have letter : ¬c.isAlpha = true := by
    rw [Lexeme.isAlpha_iff]
    simp at digit
    omega
  simp [isNameStart, letter, underscore]

theorem isQuiet_of_isNumeral {c : Char} (h : isNumeral c = true) : isQuiet c = true := by
  rcases (Bool.or_eq_true _ _).mp h with digit | dot
  · exact isQuiet_of_isDigit digit
  · rw [beq_iff_eq.mp dot]
    decide

theorem reads_number {c : Char} (digit : Numeral.isDigit c = true) (s : Text) :
    Lexeme.Reads c s .number (Lexeme.numberLength s) := by
  have other : ∀ d : Char, Numeral.isDigit d = false → c ≠ d := by
    rintro d noDigit rfl
    simp [noDigit] at digit
  have quote := other '\'' (by decide)
  have doubleQuote := other '"' (by decide)
  have dash := other '-' (by decide)
  have slash := other '/' (by decide)
  have mark := other '?' (by decide)
  refine .plain ⟨quote, doubleQuote, fun h => dash h.1, fun h => slash h.1⟩ ?_
  have noName : ¬isNameStart c = true := by simp [not_isNameStart_of_isDigit digit]
  rw [Lexeme.plain, if_neg mark, if_neg noName, if_pos digit]

theorem marks_numeral {s : Text} (h : s.all isNumeral = true) : Marks s 0 := by
  induction size : s.length using Nat.strongRecOn generalizing s with
  | ind size ih =>
    cases s with
    | nil => exact marks_nil
    | cons c s =>
      simp only [List.all_cons, Bool.and_eq_true] at h
      rcases (Bool.or_eq_true _ _).mp h.1 with digit | dot
      · have visible := isBlank_of_isNameChar (Lexeme.isNameChar_of_isDigit digit)
        refine .word visible (reads_number digit s) (by decide) ?_
        refine ih _ ?_ ?_ rfl
        · simp only [List.length_drop, ← size, List.length_cons]
          omega
        · exact List.all_eq_true.mpr fun d mem =>
            List.all_eq_true.mp h.2 d (List.mem_of_mem_drop mem)
      · rw [beq_iff_eq.mp dot]
        have later := ih s.length (by simp [← size]) h.2 rfl
        have whole := continues_single (c := '.') (by decide) s 0 trivial later
        exact whole

theorem isWord_number (sign : Text) {s : Text} (signed : sign = [] ∨ sign = ['-'])
    (h : s.all isNumeral = true) : IsWord (sign ++ s) := by
  have numeral := List.all_eq_true.mp h
  have quiet : ∀ c ∈ s, isQuiet c = true := fun c mem => isQuiet_of_isNumeral (numeral c mem)
  have inLine : '\n' ∉ s := fun mem => absurd (numeral _ mem) (by decide)
  have marks := marks_numeral h
  rcases signed with rfl | rfl
  · refine ⟨inLine, marks.continues_soft ?_⟩
    rw [run_of_isQuiet quiet]
    decide
  · have noDash : ∀ d ∈ s.head?, d ≠ '-' := by
      rintro d head rfl
      exact absurd (numeral _ (List.mem_of_head? head)) (by decide)
    have read : Lexeme.Reads '-' s .symbol 0 := by
      rw [← Lexeme.read_eq_ok_iff]
      cases s with
      | nil => rfl
      | cons d s => simp [Lexeme.read, noDash d rfl, Lexeme.pairSymbols, Lexeme.singleSymbols,
          isNameStart, Numeral.isDigit, Char.le_def]
    have whole := Marks.word (by decide) read (by decide) marks
    refine ⟨by simpa using inLine, whole.continues_soft ?_⟩
    cases s with
    | nil => decide
    | cons d s =>
      have first : dash.step d = code := by
        rw [step, if_neg (noDash d rfl), opening_of_isQuiet (quiet d (by simp))]
      have rest := run_of_isQuiet fun c mem => quiet c (List.mem_cons_of_mem d mem)
      have same : code.run ('-' :: d :: s) = (dash.step d).run s := rfl
      rw [same, first, rest]
      decide

theorem isDigit_ofNat {c : Char} {n : Nat} (mem : c ∈ Numeral.ofNat n) :
    Numeral.isDigit c = true := by
  have digit := Nat.isDigit_of_mem_toDigits (by decide) (by decide) mem
  simpa [Numeral.isDigit, Char.isDigit, Char.le_def] using digit

theorem isDigit_padded (width n : Nat) {c : Char} (mem : c ∈ Numeral.padded width n) :
    Numeral.isDigit c = true := by
  rcases List.mem_append.mp mem with zero | digit
  · rw [List.eq_of_mem_replicate zero]
    decide
  · exact isDigit_ofNat digit

theorem isNumeral_of_isDigit {s : Text} (h : ∀ c ∈ s, Numeral.isDigit c = true) :
    s.all isNumeral = true :=
  List.all_eq_true.mpr fun c mem => by rw [isNumeral, h c mem, Bool.true_or]

theorem isNumeral_sublist {s t : Text} (h : t.all isNumeral = true) (sub : s.Sublist t) :
    s.all isNumeral = true :=
  List.all_eq_true.mpr fun c mem => List.all_eq_true.mp h c (sub.subset mem)

theorem isWord_ofInt (n : Int) : IsWord (Numeral.ofInt n) := by
  have digits := isNumeral_of_isDigit fun c => isDigit_ofNat (c := c) (n := n.natAbs)
  rw [Numeral.ofInt]
  split
  · exact isWord_number ['-'] (.inr rfl) digits
  · exact isWord_number [] (.inl rfl) digits

theorem FixedDecimal.isWord_text (x : FixedDecimal) : IsWord x.text := by
  have digits := isNumeral_of_isDigit fun c =>
    isDigit_padded (x.scale + 1) x.coefficient.natAbs (c := c)
  simp only [FixedDecimal.text, List.append_assoc]
  refine isWord_number _ ?_ ?_
  · split <;> simp
  · rw [List.all_append, Bool.and_eq_true]
    refine ⟨isNumeral_sublist digits (List.take_sublist _ _), ?_⟩
    split
    · rfl
    · rw [List.all_cons, isNumeral_sublist digits (List.drop_sublist _ _)]
      rfl

theorem Decimal.isDigit_shortest (t : Decimal.Target) :
    ∀ c ∈ t.shortest.digits, Numeral.isDigit c = true := by
  have onGrid : ∀ n d, t.onGrid n = some d → ∀ c ∈ d.digits, Numeral.isDigit c = true := by
    intro n d found c mem
    obtain ⟨k, -, rfl⟩ := Option.map_eq_some_iff.mp found
    have inside : c ∈ (Numeral.ofNat k).reverse := by
      simp only [Decimal.dropTrailingZeros, List.mem_reverse] at mem
      exact (List.dropWhile_sublist _).subset mem
    exact isDigit_ofNat (List.mem_reverse.mp inside)
  intro c mem
  unfold Target.shortest at mem
  cases found : (List.range 17).findSome? fun i => t.onGrid (i + 1) with
  | none =>
    rw [found] at mem
    exact isDigit_ofNat mem
  | some d =>
    rw [found] at mem
    obtain ⟨i, -, here⟩ := List.exists_of_findSome?_eq_some found
    exact onGrid _ d here c mem

theorem Decimal.Digits.isNumeral_positional {d : Decimal.Digits}
    (digits : ∀ c ∈ d.digits, Numeral.isDigit c = true) :
    (d.positional []).all isNumeral = true := by
  have numerals := isNumeral_of_isDigit digits
  have zeros : ∀ n, (Decimal.zeros n).all isNumeral = true := by
    intro n
    refine isNumeral_of_isDigit fun c mem => ?_
    rw [List.eq_of_mem_replicate mem]
    decide
  have point : "0.".toList.all isNumeral = true := by decide
  unfold positional
  split_ifs
  · simp only [List.all_append, numerals, zeros, point, Bool.and_self]
  · simp only [List.all_append, numerals, zeros, List.all_nil, Bool.and_self]
  · rw [List.all_append, List.all_cons, isNumeral_sublist numerals (List.take_sublist _ _),
      isNumeral_sublist numerals (List.drop_sublist _ _)]
    rfl

theorem Binary64.isWord_text {x : Binary64} (finite : x.isFinite = true) : IsWord x.text := by
  have signed : x.sign = [] ∨ x.sign = ['-'] := by
    unfold sign
    split <;> simp
  have number : x.isNaN = false := by simp [isNaN, finite]
  simp only [text, number, finite, Bool.not_true, Bool.false_eq_true, if_false]
  split
  · exact isWord_number x.sign (s := ['0']) signed (by decide)
  · exact isWord_number x.sign signed
      (Decimal.Digits.isNumeral_positional (Decimal.isDigit_shortest x.target))

theorem isWord_quoted {s : Text} (noQuote : '\'' ∉ s) (inLine : '\n' ∉ s) :
    IsWord ('\'' :: s ++ ['\'']) := by
  refine ⟨by simpa using inLine, fun rest k soft marks => ?_⟩
  have other : ∀ d ∈ rest.head?, d ≠ '\'' := by
    rintro d head rfl
    exact absurd (soft _ head) (by decide)
  have closed : Lexeme.quotedLength '\'' (fun _ => true) (Doubled.encode '\'' s ++ '\'' :: rest) =
      some ((Doubled.encode '\'' s).length + 1) :=
    Lexeme.quotedLength_encode (fun _ _ _ => rfl) other
  have behind := drop_encode s rest '\''
  rw [Doubled.encode_of_not_mem noQuote] at closed behind
  have text : '\'' :: s ++ ['\''] ++ rest = '\'' :: (s ++ '\'' :: rest) := by simp
  rw [text, Nat.zero_add]
  refine .word (by decide) (.string closed) (by decide) ?_
  rwa [behind]

theorem IsWord.behind {lead s : Text} (h : IsWord s) (separator : isSeparator lead = true)
    (inLine : '\n' ∉ lead) : IsWord (lead ++ s) := by
  refine ⟨by simp [inLine, h.inLine], ?_⟩
  exact (continues_separator separator).anything_append h.continues

def isDateChar (c : Char) : Bool :=
  Numeral.isDigit c || c == '-' || c == '+' || c == ':' || c == '.' || c == ' '

theorem isDateChar_of_isDigit {s : Text} (h : ∀ c ∈ s, Numeral.isDigit c = true) :
    s.all isDateChar = true :=
  List.all_eq_true.mpr fun c mem => by simp [isDateChar, h c mem]

theorem isDateChar_padded (width n : Nat) : (Numeral.padded width n).all isDateChar = true :=
  isDateChar_of_isDigit fun _ => isDigit_padded width n

theorem Date.isDateChar_text (d : Date) : d.text.all isDateChar = true := by
  have year : d.yearText.all isDateChar = true := by
    unfold yearText
    split_ifs
    · rw [List.all_cons, isDateChar_padded]
      rfl
    · exact isDateChar_padded _ _
    · rw [List.all_cons, isDateChar_of_isDigit fun _ => isDigit_ofNat]
      rfl
  have dash : isDateChar '-' = true := by decide
  simp [text, year, isDateChar_padded, dash]

theorem Time.isDateChar_text (t : Time) : t.text.all isDateChar = true := by
  have fraction : ∀ n, (Time.fractionText n).all isDateChar = true := by
    intro n
    have dot : isDateChar '.' = true := by decide
    unfold fractionText
    split_ifs <;> simp [isDateChar_padded, dot]
  have colon : isDateChar ':' = true := by decide
  simp only [text, List.all_append, List.all_cons, isDateChar_padded, fraction, colon,
    Bool.and_self]

theorem isWord_dateTime (lead : Text) {s : Text} (separator : isSeparator lead = true)
    (inLine : '\n' ∉ lead) (date : s.all isDateChar = true) :
    IsWord (lead ++ ('\'' :: s ++ ['\''])) := by
  have chars := List.all_eq_true.mp date
  have noQuote : '\'' ∉ s := fun mem => absurd (chars _ mem) (by decide)
  have noLineEnd : '\n' ∉ s := fun mem => absurd (chars _ mem) (by decide)
  exact (isWord_quoted noQuote noLineEnd).behind separator inLine

theorem eq_digitChar_of_mem_hex {c : Char} {n : Nat} (mem : c ∈ Numeral.hex n) :
    ∃ k, c = Nat.digitChar k := by
  induction n using Nat.strongRecOn with
  | ind n ih =>
    rw [Numeral.hex] at mem
    by_cases small : n < 16
    · rw [Nat.toDigits_of_lt_base small] at mem
      exact ⟨n, List.mem_singleton.mp mem⟩
    · rw [Nat.toDigits_of_base_le (by decide) (Nat.le_of_not_lt small)] at mem
      rcases List.mem_append.mp mem with front | last
      · exact ih (n / 16) (by omega) front
      · exact ⟨_, List.mem_singleton.mp last⟩

theorem Uuid.isWord_literal (u : Uuid) : IsWord ('\'' :: u.text ++ ['\'']) := by
  have absent : ∀ d : Char, d ≠ '0' → d ≠ '-' → (∀ k, Nat.digitChar k ≠ d) → d ∉ u.text := by
    intro d zero dash noDigit mem
    have digits : d ∉ Numeral.paddedHex 32 u.bits.toNat := by
      intro mem
      rcases List.mem_append.mp mem with front | digit
      · exact zero (List.eq_of_mem_replicate front)
      · obtain ⟨k, rfl⟩ := eq_digitChar_of_mem_hex digit
        exact noDigit k rfl
    simp only [text, List.mem_append, List.mem_cons, dash, false_or] at mem
    have part : ∀ i j, d ∉ ((Numeral.paddedHex 32 u.bits.toNat).drop i).take j :=
      fun i j mem => digits (List.mem_of_mem_drop (List.mem_of_mem_take mem))
    have first : d ∉ (Numeral.paddedHex 32 u.bits.toNat).take 8 :=
      fun mem => digits (List.mem_of_mem_take mem)
    have last : d ∉ (Numeral.paddedHex 32 u.bits.toNat).drop 20 :=
      fun mem => digits (List.mem_of_mem_drop mem)
    simp [first, part, last] at mem
  refine isWord_quoted ?_ ?_
  · exact absent _ (by decide) (by decide) fun k => Nat.digitChar_ne _ (by decide)
  · exact absent _ (by decide) (by decide) fun k => Nat.digitChar_ne _ (by decide)

theorem TextLiteral.inLine_encode (s : Text) : '\n' ∉ encode s := by
  have chars : ∀ c, '\n' ∉ encodeChar c := by
    intro c
    unfold encodeChar
    split_ifs with quote lineEnd
    · decide
    · decide
    · simpa using Ne.symm lineEnd
  simp only [encode, List.mem_append, List.mem_cons, List.mem_flatMap, List.not_mem_nil,
    or_false, not_or]
  exact ⟨⟨by decide, fun ⟨c, _, mem⟩ => chars c mem⟩, by decide⟩

def TextLiteral.interruption : Text :=
  "||CHR(10)||"

theorem TextLiteral.lineEnd_eq : lineEnd = '\'' :: (interruption ++ ['\'']) := by
  decide +kernel

theorem TextLiteral.continues_interruption : Continues interruption 0 .anything := by
  have parts : interruption = "||".toList ++ "CHR(10)".toList ++ "||".toList := by decide +kernel
  have words : Continues "CHR(10)" 0 .soft := continues_wording (by decide +kernel)
  have soft : ∀ rest, Follow.soft.Admits ("||".toList ++ rest) := by
    intro rest d head
    obtain rfl := Option.some.inj head
    decide
  rw [parts]
  exact (continues_bars.anything_append words).append continues_bars fun rest _ => soft rest

theorem TextLiteral.quotedLength_flatMap (s : Text) {rest : Text} {k : Nat}
    (other : ∀ d ∈ rest.head?, d ≠ '\'') (h : Marks rest k) :
    ∃ n, Lexeme.quotedLength '\'' (fun _ => true) (s.flatMap encodeChar ++ '\'' :: rest) =
        some n ∧ Marks ((s.flatMap encodeChar ++ '\'' :: rest).drop n) k := by
  induction s with
  | nil => exact ⟨1, Lexeme.quotedLength_closed other, h⟩
  | cons c s ih =>
    obtain ⟨n, closed, marks⟩ := ih
    rw [List.flatMap_cons, List.append_assoc]
    generalize s.flatMap encodeChar ++ '\'' :: rest = tail at closed marks
    unfold encodeChar
    split_ifs with quote newline
    · exact ⟨n + 2, by simp [Lexeme.quotedLength, closed], by simpa using marks⟩
    · -- the literal is closed, and opened again behind the number of the line end
      have opened : Marks ('\'' :: tail) k :=
        .word (by decide) (.string closed) (by decide) marks
      have front := continues_interruption _ _ trivial opened
      rw [Nat.zero_add] at front
      have text : lineEnd ++ tail = '\'' :: (interruption ++ '\'' :: tail) := by
        rw [lineEnd_eq]
        simp
      have first : (interruption ++ '\'' :: tail).head? = some '|' := by
        have bar : interruption.head? = some '|' := by decide +kernel
        rw [List.head?_append, bar]
        rfl
      rw [text]
      refine ⟨1, Lexeme.quotedLength_closed fun d head => ?_, front⟩
      rw [first] at head
      obtain rfl := Option.some.inj head
      decide
    · refine ⟨n + 1, ?_, marks⟩
      rw [List.singleton_append, Lexeme.quotedLength_of_ne _ quote, if_pos rfl, closed]
      rfl

theorem TextLiteral.isWord_encode (s : Text) : IsWord (encode s) := by
  refine ⟨inLine_encode s, fun rest k soft marks => ?_⟩
  have other : ∀ d ∈ rest.head?, d ≠ '\'' := by
    rintro d head rfl
    exact absurd (soft _ head) (by decide)
  obtain ⟨n, closed, behind⟩ := quotedLength_flatMap s other marks
  have text : encode s ++ rest = '\'' :: (s.flatMap encodeChar ++ '\'' :: rest) := by
    simp [encode]
  rw [text, Nat.zero_add]
  exact .word (by decide) (.string closed) (by decide) behind

theorem Handler.isWord_literal {h : Handler} {v : Value} {s : Text}
    (ok : h.literal v = .ok s) : IsWord s := by
  induction h generalizing v s with
  | domain t base ih => cases v <;> exact ih ok
  | bool =>
    cases v <;> cases ok
    next b => cases b <;> exact ⟨by decide, continues_wording (by decide +kernel)⟩
  | int =>
    cases v <;> cases ok
    exact isWord_ofInt _
  | float =>
    cases v <;> simp only [literal, reduceCtorEq] at ok
    split at ok
    · next finite =>
      obtain rfl := Except.ok.inj ok
      exact Binary64.isWord_text finite
    · cases ok
  | decimal =>
    cases v <;> cases ok
    exact FixedDecimal.isWord_text _
  | text =>
    cases v <;> cases ok
    exact TextLiteral.isWord_encode _
  | date =>
    cases v <;> cases ok
    next d =>
      exact isWord_dateTime "DATE " (by decide +kernel) (by decide) d.isDateChar_text
  | time =>
    cases v <;> cases ok
    next t =>
      exact isWord_dateTime "TIME " (by decide +kernel) (by decide) t.isDateChar_text
  | timestamp =>
    cases v <;> cases ok
    next t =>
      have space : isDateChar ' ' = true := by decide
      refine isWord_dateTime "TIMESTAMP " (by decide +kernel) (by decide) ?_
      simp [Timestamp.text, Timestamp.textWith, t.date.isDateChar_text, t.time.isDateChar_text,
        space]
  | uuid =>
    cases v <;> cases ok
    next u => exact u.isWord_literal

theorem Registry.isWord_literal {r : Registry} {v : Value} {s : Text}
    (ok : r.literal v = .ok s) : IsWord s := by
  obtain ⟨h, -, literal⟩ := Except.bind_eq_ok_iff.mp ok
  exact h.isWord_literal literal

end SqlCompose
