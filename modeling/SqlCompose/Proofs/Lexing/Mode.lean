import Mathlib.Data.List.TakeWhile
import SqlCompose.Proofs.Lexing.Lexes

/-! Where a position of a text lies: between tokens, in a comment, or in quotes. A machine that
looks at one character at a time knows it. At the end of every token the machine is ready to go on
as from the start, so it agrees with the scanner on all of a text. -/

namespace SqlCompose

inductive LexMode where
  | code
  /-- Behind a dash or a slash, which may turn out to begin a comment. -/
  | dash
  | slash
  | lineComment
  | blockComment
  /-- In a block comment behind a star, which may turn out to end it. -/
  | star
  | string
  | quoted
  deriving DecidableEq

namespace LexMode

def opening (c : Char) : LexMode :=
  if c = '-' then dash
  else if c = '/' then slash
  else if c = '\'' then string
  else if c = '"' then quoted
  else code

def step : LexMode → Char → LexMode
  | code, c => opening c
  | dash, c => if c = '-' then lineComment else opening c
  | slash, c => if c = '*' then blockComment else opening c
  | lineComment, c => if c = '\n' then code else lineComment
  | blockComment, c => if c = '*' then star else blockComment
  | star, c => if c = '/' then code else if c = '*' then star else blockComment
  | string, c => if c = '\'' then code else string
  | quoted, c => if c = '"' then code else quoted

def run (m : LexMode) (s : Text) : LexMode :=
  s.foldl step m

@[simp] theorem run_nil (m : LexMode) : m.run [] = m := rfl

@[simp] theorem run_cons (m : LexMode) (c : Char) (s : Text) : m.run (c :: s) = (m.step c).run s :=
  rfl

@[simp] theorem run_append (m : LexMode) (s t : Text) : m.run (s ++ t) = (m.run s).run t :=
  List.foldl_append

/-- In front of a token, or in a line comment, which ends with its line anyway. -/
def isOutside : LexMode → Bool
  | code | dash | slash | lineComment => true
  | blockComment | star | string | quoted => false

def isBreakable : LexMode → Bool
  | string | quoted => false
  | code | dash | slash | lineComment | blockComment | star => true

def isInComment : LexMode → Bool
  | blockComment | star => true
  | code | dash | slash | lineComment | string | quoted => false

theorem isBreakable_of_isOutside {m : LexMode} (h : m.isOutside = true) : m.isBreakable = true := by
  cases m <;> first | rfl | cases h

structure Resumes (m : LexMode) (s : Text) : Prop where
  outside : m.isOutside = true
  step : ∀ d ∈ s.head?, m.step d = code.step d

theorem resumes_code (s : Text) : Resumes code s :=
  ⟨rfl, fun _ _ => rfl⟩

theorem resumes_of_code {m : LexMode} (h : m = code) (s : Text) : m.Resumes s :=
  h ▸ resumes_code s

theorem Resumes.run_cons {m : LexMode} {c : Char} {s : Text} (h : m.Resumes (c :: s)) (t : Text) :
    m.run (c :: t) = code.run (c :: t) := by
  rw [LexMode.run_cons, LexMode.run_cons, h.step c rfl]

def isQuiet (c : Char) : Bool :=
  c != '-' && c != '/' && c != '\'' && c != '"'

theorem opening_of_isQuiet {c : Char} (h : isQuiet c = true) : opening c = code := by
  simp only [isQuiet, Bool.and_eq_true, bne_iff_ne] at h
  obtain ⟨⟨⟨dash, slash⟩, quote⟩, doubleQuote⟩ := h
  simp [opening, dash, slash, quote, doubleQuote]

theorem run_of_isQuiet {w : Text} (quiet : ∀ c ∈ w, isQuiet c = true) : code.run w = code := by
  induction w with
  | nil => rfl
  | cons c w ih =>
    rw [run_cons, step, opening_of_isQuiet (quiet c (by simp))]
    exact ih fun d mem => quiet d (List.mem_cons_of_mem c mem)

theorem isQuiet_of_isNameChar {c : Char} (h : isNameChar c = true) : isQuiet c = true := by
  have other : ∀ e : Char, isNameChar e = false → c ≠ e := by
    rintro e noName rfl
    simp [noName] at h
  have dash := other '-' (by decide)
  have slash := other '/' (by decide)
  have quote := other '\'' (by decide)
  have doubleQuote := other '"' (by decide)
  simp [isQuiet, dash, slash, quote, doubleQuote]

theorem opening_of_isBlank {c : Char} (h : isBlank c = true) : opening c = code := by
  have other : ∀ e : Char, isBlank e = false → c ≠ e := by
    rintro e visible rfl
    simp [visible] at h
  have dash := other '-' (by decide)
  have slash := other '/' (by decide)
  have quote := other '\'' (by decide)
  have doubleQuote := other '"' (by decide)
  simp [opening, dash, slash, quote, doubleQuote]

theorem take_length_takeWhile (p : Char → Bool) (s : Text) :
    s.take (s.takeWhile p).length = s.takeWhile p :=
  (List.prefix_iff_eq_take.mp (List.takeWhile_prefix p)).symm

theorem drop_length_takeWhile (p : Char → Bool) (s : Text) :
    s.drop (s.takeWhile p).length = s.dropWhile p := by
  have split : s.take (s.takeWhile p).length ++ s.drop (s.takeWhile p).length =
      s.takeWhile p ++ s.dropWhile p := by
    rw [List.take_append_drop, List.takeWhile_append_dropWhile]
  rw [take_length_takeWhile] at split
  exact List.append_cancel_left split

theorem run_lineComment {w : Text} (inLine : '\n' ∉ w) : lineComment.run w = lineComment := by
  induction w with
  | nil => rfl
  | cons c w ih =>
    simp only [List.mem_cons, not_or] at inLine
    rw [run_cons, step, if_neg (Ne.symm inLine.1), ih inLine.2]

def lengthToCode (m : LexMode) : Text → Option Nat
  | [] => none
  | c :: s => if m.step c = code then some 1 else (lengthToCode (m.step c) s).map (· + 1)

theorem run_lengthToCode {m : LexMode} {s : Text} {n : Nat} (h : m.lengthToCode s = some n) :
    m.run (s.take n) = code := by
  induction s generalizing m n with
  | nil => cases h
  | cons c s ih =>
    rw [lengthToCode] at h
    split at h
    · next closed =>
      obtain rfl := Option.some.inj h
      exact closed
    · obtain ⟨k, rest, rfl⟩ := Option.map_eq_some_iff.mp h
      exact ih rest

theorem isInComment_step {m : LexMode} {c : Char} (inside : m.isInComment = true)
    (going : m.step c ≠ code) : (m.step c).isInComment = true := by
  revert going inside
  cases m <;> simp only [step] <;> grind [isInComment]

theorem commentLength_eq (s : Text) :
    Lexeme.commentLength s = blockComment.lengthToCode s ∧
      Lexeme.commentLength ('*' :: s) = (star.lengthToCode s).map (· + 1) := by
  induction s with
  | nil => exact ⟨rfl, rfl⟩
  | cons c s ih =>
    have plain : c ≠ '*' →
        Lexeme.commentLength (c :: s) = (Lexeme.commentLength s).map (· + 1) := by
      intro other
      cases s <;> simp [Lexeme.commentLength, other]
    refine ⟨?_, ?_⟩
    · by_cases isStar : c = '*'
      · subst isStar
        rw [ih.2]
        rfl
      · rw [plain isStar, ih.1]
        simp [lengthToCode, step, isStar]
    · by_cases slash : c = '/'
      · subst slash
        rfl
      · have longer : Lexeme.commentLength ('*' :: c :: s) =
            (Lexeme.commentLength (c :: s)).map (· + 1) := by
          simp [Lexeme.commentLength, slash]
        rw [longer]
        by_cases isStar : c = '*'
        · subst isStar
          rw [ih.2]
          rfl
        · rw [plain isStar, ih.1]
          simp [lengthToCode, step, slash, isStar]

structure IsQuote (q : Char) (m : LexMode) : Prop where
  opens : code.step q = m
  inside : ∀ c, m.step c = if c = q then code else m

theorem isQuote_single : IsQuote '\'' string :=
  ⟨rfl, fun _ => rfl⟩

theorem isQuote_double : IsQuote '"' quoted :=
  ⟨rfl, fun _ => rfl⟩

section Quote

variable {q : Char} {m : LexMode} {allowed : Char → Bool} {s : Text} {n : Nat}

theorem run_quotedLength (quote : IsQuote q m) (h : Lexeme.quotedLength q allowed s = some n) :
    m.run (s.take n) = code := by
  fun_induction Lexeme.quotedLength q allowed s generalizing n with
  | case1 => cases h
  | case2 =>
    obtain rfl := Option.some.inj h
    simp [quote.inside]
  | case3 rest ih =>
    obtain ⟨k, closed, rfl⟩ := Option.map_eq_some_iff.mp h
    simp [quote.inside, quote.opens, ih closed]
  | case4 =>
    obtain rfl := Option.some.inj h
    simp [quote.inside]
  | case5 c s other _ ih =>
    obtain ⟨k, closed, rfl⟩ := Option.map_eq_some_iff.mp h
    simp [quote.inside, other, ih closed]
  | case6 => cases h

theorem eq_nil_of_singleton {c : Char} {u v : Text} (split : [c] = u ++ v) (more : v ≠ []) :
    u = [] := by
  rcases List.append_eq_cons_iff.mp split.symm with ⟨empty, -⟩ | ⟨rest, -, tail⟩
  · exact empty
  · exact absurd (List.append_eq_nil_iff.mp tail.symm).2 more

theorem run_inside_quotes (quote : IsQuote q m)
    (h : Lexeme.quotedLength q allowed s = some n) {u v : Text} (split : s.take n = u ++ v)
    (more : v ≠ []) : m.run u = m ∨ u.getLast? = some q ∧ v.head? = some q := by
  fun_induction Lexeme.quotedLength q allowed s generalizing n u with
  | case1 => cases h
  | case2 =>
    obtain rfl := Option.some.inj h
    rw [eq_nil_of_singleton split more]
    exact .inl rfl
  | case3 rest ih =>
    obtain ⟨k, closed, rfl⟩ := Option.map_eq_some_iff.mp h
    match u with
    | [] => exact .inl rfl
    | [d] =>
      simp only [List.take_succ_cons, List.cons_append, List.cons.injEq] at split
      exact .inr ⟨by simp [split.1], by simpa using congrArg List.head? split.2.symm⟩
    | d :: e :: u =>
      simp only [List.take_succ_cons, List.cons_append, List.cons.injEq] at split
      obtain ⟨rfl, rfl, split⟩ := split
      simp only [run_cons, quote.inside, if_true, quote.opens]
      refine (ih closed split).imp id fun between => ⟨?_, between.2⟩
      simp [List.getLast?_cons, between.1]
  | case4 =>
    obtain rfl := Option.some.inj h
    rw [eq_nil_of_singleton split more]
    exact .inl rfl
  | case5 c s other _ ih =>
    obtain ⟨k, closed, rfl⟩ := Option.map_eq_some_iff.mp h
    cases u with
    | nil => exact .inl rfl
    | cons d u =>
      simp only [List.take_succ_cons, List.cons_append, List.cons.injEq] at split
      obtain ⟨rfl, split⟩ := split
      simp only [run_cons, quote.inside, other, if_false]
      refine (ih closed split).imp id fun between => ⟨?_, between.2⟩
      simp [List.getLast?_cons, between.1]
  | case6 => cases h

end Quote

section Plain

variable {c : Char} {s : Text} {k : TokenKind} {n : Nat}

theorem isQuiet_of_isDigit (h : Numeral.isDigit c = true) : isQuiet c = true :=
  isQuiet_of_isNameChar (Lexeme.isNameChar_of_isDigit h)

theorem run_digits (s : Text) : code.run (s.take (Lexeme.digitsLength s)) = code := by
  rw [Lexeme.digitsLength, take_length_takeWhile]
  exact run_of_isQuiet fun c mem => isQuiet_of_isDigit (List.mem_takeWhile_imp mem)

theorem run_fraction (s : Text) : code.run (s.take (Lexeme.fractionLength s)) = code := by
  unfold Lexeme.fractionLength
  split
  · next s =>
    split
    · rfl
    · rw [List.take_succ_cons, run_cons]
      exact run_digits s
  · rfl

theorem run_signed {d : Char} {s : Text} (sign : d = '+' ∨ d = '-')
    (some : Lexeme.digitsLength s ≠ 0) :
    (code.step d).run (s.take (Lexeme.digitsLength s)) = code := by
  cases s with
  | nil => exact absurd rfl some
  | cons x s =>
    have digit : Numeral.isDigit x = true := by
      by_contra other
      simp [Lexeme.digitsLength, other] at some
    have length : Lexeme.digitsLength (x :: s) = Lexeme.digitsLength s + 1 := by
      simp [Lexeme.digitsLength, digit]
    have quiet := opening_of_isQuiet (isQuiet_of_isDigit digit)
    have noDash : x ≠ '-' := by rintro rfl; exact absurd digit (by decide)
    have first : (code.step d).step x = code := by
      rcases sign with rfl | rfl
      · exact quiet
      · have dash : (code.step '-').step x = opening x := if_neg noDash
        rw [dash, quiet]
    rw [length, List.take_succ_cons, run_cons, first, run_digits]

theorem run_exponent (s : Text) : code.run (s.take (Lexeme.exponentLength s)) = code := by
  unfold Lexeme.exponentLength
  split
  · rfl
  · next e s =>
    split
    · next letter =>
      have start : code.step e = code := by rcases letter with rfl | rfl <;> rfl
      split
      · rfl
      · next d rest =>
        split
        · next sign =>
          split
          · rfl
          · next some =>
            -- the sign may be a dash, but a digit follows it
            rw [List.take_succ_cons, List.take_succ_cons, run_cons, run_cons, start]
            exact run_signed sign some
        · split
          · rfl
          · rw [List.take_succ_cons, run_cons, start]
            exact run_digits (d :: rest)
    · rfl

theorem run_number (s : Text) : code.run (s.take (Lexeme.numberLength s)) = code := by
  simp only [Lexeme.numberLength, List.take_add, run_append, run_digits, run_fraction,
    run_exponent]

theorem resumes_single (start : Lexeme.StartsPlain c s) (single : c ∈ Lexeme.singleSymbols) :
    (code.step c).Resumes s := by
  by_cases dash : c = '-'
  · subst dash
    refine ⟨rfl, fun d head => ?_⟩
    have other : d ≠ '-' := by
      rintro rfl
      exact start.dash ⟨rfl, head⟩
    simp [step, opening, other]
  · by_cases slash : c = '/'
    · subst slash
      refine ⟨rfl, fun d head => ?_⟩
      have other : d ≠ '*' := by
        rintro rfl
        exact start.slash ⟨rfl, head⟩
      simp [step, opening, other]
    · have quiet : isQuiet c = true := by
        simp [isQuiet, dash, slash, start.quote, start.doubleQuote]
      rw [step, opening_of_isQuiet quiet]
      exact resumes_code s

theorem run_plain (found : Lexeme.plain c s = some (k, n)) :
    code.run (c :: s.take n) = code ∨ n = 0 ∧ c ∈ Lexeme.singleSymbols := by
  unfold Lexeme.plain at found
  split_ifs at found with mark name digit pair single
  · obtain ⟨-, rfl⟩ := Prod.mk.inj (Option.some.inj found)
    rw [mark]
    exact .inl rfl
  · obtain ⟨-, rfl⟩ := Prod.mk.inj (Option.some.inj found)
    refine .inl (run_of_isQuiet fun d mem => isQuiet_of_isNameChar ?_)
    rcases List.mem_cons.mp mem with rfl | later
    · exact Lexeme.isNameChar_of_isNameStart name
    · rw [take_length_takeWhile] at later
      exact List.mem_takeWhile_imp later
  · obtain ⟨-, rfl⟩ := Prod.mk.inj (Option.some.inj found)
    rw [run_cons, step, opening_of_isQuiet (isQuiet_of_isDigit digit), run_number]
    exact .inl rfl
  · obtain ⟨-, rfl⟩ := Prod.mk.inj (Option.some.inj found)
    cases s with
    | nil => simp at pair
    | cons d s =>
      have pair : (c, d) ∈ Lexeme.pairSymbols := by simpa using pair
      simp only [Lexeme.pairSymbols, List.mem_cons, Prod.mk.injEq, List.not_mem_nil,
        or_false] at pair
      left
      rcases pair with ⟨rfl, rfl⟩ | ⟨rfl, rfl⟩ | ⟨rfl, rfl⟩ | ⟨rfl, rfl⟩ | ⟨rfl, rfl⟩ |
        ⟨rfl, rfl⟩ | ⟨rfl, rfl⟩ <;> rfl
  · obtain ⟨-, rfl⟩ := Prod.mk.inj (Option.some.inj found)
    exact .inr ⟨rfl, by simpa using single⟩

theorem resumes_plain (start : Lexeme.StartsPlain c s) (found : Lexeme.plain c s = some (k, n)) :
    (code.run (c :: s.take n)).Resumes (s.drop n) := by
  rcases run_plain found with inCode | ⟨rfl, single⟩
  · exact resumes_of_code inCode _
  · exact resumes_single start single

theorem opening_ne_lineComment (c : Char) : opening c ≠ lineComment := by
  unfold opening
  split_ifs <;> decide

theorem run_plain_ne_lineComment (found : Lexeme.plain c s = some (k, n)) :
    code.run (c :: s.take n) ≠ lineComment := by
  rcases run_plain found with inCode | ⟨rfl, -⟩
  · rw [inCode]
    decide
  · exact opening_ne_lineComment c

end Plain

theorem resumes_of_reads {c : Char} {s : Text} {k : TokenKind} {n : Nat}
    (read : Lexeme.Reads c s k n) : (code.run (c :: s.take n)).Resumes (s.drop n) := by
  cases read with
  | lineComment s =>
    have text : code.run ('-' :: ('-' :: s).takeWhile (· ≠ '\n')) = lineComment := by
      refine run_lineComment (w := s.takeWhile (· ≠ '\n')) fun newline => ?_
      simpa using List.mem_takeWhile_imp newline
    rw [take_length_takeWhile, drop_length_takeWhile, text]
    refine ⟨rfl, fun d head => ?_⟩
    have newline := List.head?_dropWhile_not (· ≠ '\n') ('-' :: s)
    rw [Option.mem_def.mp head] at newline
    obtain rfl : d = '\n' := by simpa using newline
    rfl
  | blockComment closed =>
    have back := run_lengthToCode ((commentLength_eq _).1.symm.trans closed)
    exact resumes_of_code back _
  | string closed => exact resumes_of_code (run_quotedLength isQuote_single closed) _
  | quotedName closed => exact resumes_of_code (run_quotedLength isQuote_double closed) _
  | plain start found => exact resumes_plain start found

end LexMode

theorem Lexes.isOutside_run {s : Text} {o : List TokenShape} (h : Lexes s o) {m : LexMode}
    (resumes : m.Resumes s) : (m.run s).isOutside = true := by
  induction h generalizing m with
  | nil => exact resumes.outside
  | blank blank _ ih =>
    rw [resumes.run_cons, LexMode.run_cons, LexMode.step, LexMode.opening_of_isBlank blank]
    exact ih (LexMode.resumes_code _)
  | @token c s k n o _ read _ ih =>
    have split : c :: s = (c :: s.take n) ++ s.drop n := by simp
    rw [resumes.run_cons, split, LexMode.run_append]
    exact ih (LexMode.resumes_of_reads read)

end SqlCompose
