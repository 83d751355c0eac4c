import SqlCompose.Proofs.Lexing.Append
import SqlCompose.Proofs.Lexing.Positions

/-! Texts on lines of their own. What a token is depends on its own characters alone, so it is read
again from its text, and behind a line end a scan goes on as from the start. Hence the tokens of two
texts, one below the other, are those of the first and then those of the second, further down. -/

namespace SqlCompose

namespace Lexeme

variable {c : Char} {s : Text} {k : TokenKind} {n : Nat}

theorem takeWhile_take {p : Char → Bool} (bound : (s.takeWhile p).length ≤ n) :
    (s.take n).takeWhile p = s.takeWhile p := by
  induction s generalizing n with
  | nil => simp
  | cons c s ih =>
    cases n with
    | zero => simpa using (List.length_eq_zero_iff.mp (Nat.le_zero.mp bound)).symm
    | succ n =>
      rw [List.take_succ_cons, List.takeWhile_cons, List.takeWhile_cons]
      split
      · next here =>
        rw [List.takeWhile_cons, if_pos here] at bound
        rw [ih (Nat.le_of_succ_le_succ bound)]
      · rfl

theorem digitsLength_take (bound : digitsLength s ≤ n) :
    digitsLength (s.take n) = digitsLength s := by
  rw [digitsLength, digitsLength, takeWhile_take bound]

theorem fractionLength_take (bound : fractionLength s ≤ n) :
    fractionLength (s.take n) = fractionLength s := by
  cases s with
  | nil => simp
  | cons c s =>
    cases n with
    | zero => exact (Nat.le_zero.mp bound).symm
    | succ n =>
      by_cases point : c = '.'
      · subst point
        have digits : digitsLength s ≤ n := by
          simp only [fractionLength] at bound
          split at bound <;> omega
        rw [List.take_succ_cons, fractionLength, fractionLength, digitsLength_take digits]
      · simp [fractionLength, point]

theorem exponentLength_take (bound : exponentLength s ≤ n) :
    exponentLength (s.take n) = exponentLength s := by
  match s, n with
  | [], _ => simp
  | _ :: _, 0 => exact (Nat.le_zero.mp bound).symm
  | [e], _ + 1 => simp
  | e :: d :: s, 1 =>
    -- an exponent has at least two characters
    have none : exponentLength (e :: d :: s) = 0 := by
      simp only [exponentLength] at bound ⊢
      split_ifs at bound ⊢ <;> omega
    rw [none]
    simp [exponentLength]
  | e :: d :: s, n + 2 =>
    by_cases letter : e = 'e' ∨ e = 'E'
    · simp only [exponentLength, letter, if_true] at bound
      simp only [List.take_succ_cons, exponentLength, letter, if_true]
      by_cases sign : d = '+' ∨ d = '-'
      · simp only [sign, if_true] at bound ⊢
        have digits : digitsLength s ≤ n := by split at bound <;> omega
        rw [digitsLength_take digits]
      · simp only [sign, if_false] at bound ⊢
        have digits : digitsLength (d :: s) ≤ n + 1 := by split at bound <;> omega
        rw [← List.take_succ_cons, digitsLength_take digits]
    · simp [exponentLength, letter]

theorem numberLength_take (s : Text) : numberLength (s.take (numberLength s)) = numberLength s := by
  have length : numberLength s = digitsLength s + fractionLength (s.drop (digitsLength s)) +
      exponentLength (s.drop (digitsLength s + fractionLength (s.drop (digitsLength s)))) := rfl
  generalize numberLength s = n at length
  have digits : digitsLength (s.take n) = digitsLength s := digitsLength_take (by omega)
  have fraction : fractionLength ((s.take n).drop (digitsLength s)) =
      fractionLength (s.drop (digitsLength s)) := by
    rw [List.drop_take]
    exact fractionLength_take (by omega)
  simp only [numberLength, digits, fraction]
  rw [List.drop_take, exponentLength_take (by omega), length]

theorem plain_take (h : plain c s = some (k, n)) : plain c (s.take n) = some (k, n) := by
  unfold plain at h ⊢
  split_ifs at h with mark name digit pair single
  · rw [if_pos mark, h]
  · obtain ⟨-, rfl⟩ := Prod.mk.inj (Option.some.inj h)
    rw [if_neg mark, if_pos name, takeWhile_take (Nat.le_refl _), h]
  · obtain ⟨-, rfl⟩ := Prod.mk.inj (Option.some.inj h)
    rw [if_neg mark, if_neg name, if_pos digit, numberLength_take, h]
  · obtain ⟨-, rfl⟩ := Prod.mk.inj (Option.some.inj h)
    have head : (s.take 1).head? = s.head? := by cases s <;> rfl
    rw [if_neg mark, if_neg name, if_neg digit, head, if_pos pair, h]
  · obtain ⟨-, rfl⟩ := Prod.mk.inj (Option.some.inj h)
    rw [if_neg mark, if_neg name, if_neg digit, List.take_zero, if_neg (by simp), if_pos single, h]

theorem StartsPlain.take (h : StartsPlain c s) (n : Nat) : StartsPlain c (s.take n) := by
  have head : ∀ d, (s.take n).head? = some d → s.head? = some d := by
    intro d found
    cases s with
    | nil => simp at found
    | cons e s => cases n <;> simp_all
  exact ⟨h.quote, h.doubleQuote, fun dash => h.dash ⟨dash.1, head _ dash.2⟩,
    fun slash => h.slash ⟨slash.1, head _ slash.2⟩⟩

theorem commentLength_take (h : commentLength s = some n) :
    commentLength (s.take n) = some n := by
  fun_induction commentLength s generalizing n with
  | case1 => cases h
  | case2 => cases h
  | case3 c d s closed =>
    obtain rfl := Option.some.inj h
    rw [List.take_succ_cons, List.take_succ_cons, commentLength, if_pos closed]
  | case4 c d s going ih =>
    obtain ⟨k, later, rfl⟩ := Option.map_eq_some_iff.mp h
    have found := ih later
    cases k with
    | zero => cases found
    | succ k =>
      rw [List.take_succ_cons] at found
      rw [List.take_succ_cons, List.take_succ_cons, commentLength, if_neg going, found]
      rfl

theorem quotedLength_take {q : Char} {allowed : Char → Bool}
    (h : quotedLength q allowed s = some n) : quotedLength q allowed (s.take n) = some n := by
  fun_induction quotedLength q allowed s generalizing n with
  | case1 => cases h
  | case2 =>
    obtain rfl := Option.some.inj h
    simp [quotedLength]
  | case3 s ih =>
    obtain ⟨k, later, rfl⟩ := Option.map_eq_some_iff.mp h
    simp [quotedLength, ih later]
  | case4 d s other =>
    obtain rfl := Option.some.inj h
    simp [quotedLength]
  | case5 c s other permitted ih =>
    obtain ⟨k, later, rfl⟩ := Option.map_eq_some_iff.mp h
    rw [List.take_succ_cons, quotedLength_of_ne _ other, if_pos permitted, ih later]
    rfl
  | case6 => cases h

theorem Reads.take (read : Reads c s k n) : Reads c (s.take n) k n := by
  cases read with
  | lineComment s =>
    have first : ('-' :: s).takeWhile (· ≠ '\n') = '-' :: s.takeWhile (· ≠ '\n') := rfl
    have again : ('-' :: s.takeWhile (· ≠ '\n')).takeWhile (· ≠ '\n') =
        '-' :: s.takeWhile (· ≠ '\n') := by
      rw [← first, List.takeWhile_takeWhile]
      simp
    have whole := Reads.lineComment (s.takeWhile (· ≠ '\n'))
    rw [again] at whole
    rwa [LexMode.take_length_takeWhile, first]
  | blockComment closed => exact .blockComment (commentLength_take closed)
  | string closed => exact .string (quotedLength_take closed)
  | quotedName closed => exact .quotedName (quotedLength_take closed)
  | plain start found => exact .plain (start.take n) (plain_take found)

end Lexeme

theorem scan_text {p : Place} {s : Text} (ok : (scanAt p s).fault = none) :
    ∀ t ∈ (scanAt p s).tokens, scan t.text = ⟨[⟨t.kind, t.text, Place.start⟩], none⟩ :=
  scanAt_induction
    (motive := fun _ _ ts => ∀ t ∈ ts, scan t.text = ⟨[⟨t.kind, t.text, Place.start⟩], none⟩)
    (fun _ => by simp) (fun _ _ _ _ _ behind => behind)
    (fun p c s k n ts visible read behind t mem => by
      rcases List.mem_cons.mp mem with rfl | later
      · have whole : (s.take n).take n = s.take n := by rw [List.take_take, Nat.min_self]
        have rest : (s.take n).drop n = [] := List.drop_eq_nil_of_le (List.length_take_le n s)
        rw [scan, scanAt_cons_of_reads visible read.take, whole, rest, scanAt]
      · exact behind t later) ok

def Place.moved (lines bytes : Nat) (p : Place) : Place :=
  ⟨p.line + lines, p.column, p.offset + bytes⟩

def Token.moved (lines bytes : Nat) (t : Token) : Token :=
  { t with place := t.place.moved lines bytes }

namespace Place

variable {lines bytes : Nat}

theorem next_moved (p : Place) (c : Char) :
    (p.moved lines bytes).next c = (p.next c).moved lines bytes := by
  by_cases lineEnd : c = '\n' <;> simp [next, moved, lineEnd, Nat.add_right_comm]

theorem after_moved (p : Place) (s : Text) :
    (p.moved lines bytes).after s = (p.after s).moved lines bytes := by
  induction s generalizing p with
  | nil => rfl
  | cons c s ih => rw [after_cons, after_cons, next_moved, ih]

theorem after_lineEnd (s : Text) :
    start.after (s ++ ['\n']) = start.moved (s.count '\n' + 1) (s.byteSize + 1) := by
  obtain ⟨line, column, offset⟩ := isBehind_after (s ++ ['\n'])
  have size : '\n'.utf8Size = 1 := by decide
  generalize start.after (s ++ ['\n']) = p at line column offset
  cases p
  simp_all [moved, start]

end Place

theorem scanAt_moved (lines bytes : Nat) {p : Place} {s : Text} (ok : (scanAt p s).fault = none) :
    scanAt (p.moved lines bytes) s = ⟨(scanAt p s).tokens.map (Token.moved lines bytes), none⟩ :=
  scanAt_induction
    (motive := fun p s ts =>
      scanAt (p.moved lines bytes) s = ⟨ts.map (Token.moved lines bytes), none⟩)
    (fun p => by rw [scanAt]; rfl)
    (fun p c s ts blank behind => by rw [scanAt_cons_of_isBlank blank, Place.next_moved, behind])
    (fun p c s k n ts visible read behind => by
      rw [scanAt_cons_of_reads visible read, Place.after_moved, behind]
      rfl) ok

theorem scanAt_line {p : Place} {a : Text} (ok : (scanAt p a).fault = none) (b : Text) :
    scanAt p (a ++ '\n' :: b) =
      ⟨(scanAt p a).tokens ++ (scanAt (p.after (a ++ ['\n'])) b).tokens,
        (scanAt (p.after (a ++ ['\n'])) b).fault⟩ :=
  scanAt_induction
    (motive := fun p a ts => scanAt p (a ++ '\n' :: b) =
      ⟨ts ++ (scanAt (p.after (a ++ ['\n'])) b).tokens, (scanAt (p.after (a ++ ['\n'])) b).fault⟩)
    (fun p => scanAt_cons_of_isBlank (by decide))
    (fun p c a ts blank behind => by
      rw [List.cons_append, scanAt_cons_of_isBlank blank, behind]
      rfl)
    (fun p c a k n ts visible read behind => by
      have line : Follow.line.Admits ('\n' :: b) := by simp [Follow.Admits]
      have bound := Lexeme.le_length_of_reads read
      have split : p.after (c :: a ++ ['\n']) =
          (p.after (c :: a.take n)).after (a.drop n ++ ['\n']) := by
        have same : c :: a ++ ['\n'] = c :: a.take n ++ (a.drop n ++ ['\n']) := by
          rw [List.cons_append, List.cons_append, ← List.append_assoc, List.take_append_drop]
        rw [same, Place.after_append]
      have whole := read.append line.soft_of_line (.inl line)
      rw [List.cons_append, scanAt_cons_of_reads visible whole,
        List.take_append_of_le_length bound, List.drop_append_of_le_length bound, behind, split]
      rfl) ok

theorem scan_below {a b : Text} (above : (scan a).fault = none) (below : (scan b).fault = none) :
    scan (a ++ '\n' :: b) =
      ⟨(scan a).tokens ++ (scan b).tokens.map (Token.moved (a.count '\n' + 1) (a.byteSize + 1)),
        none⟩ := by
  have behind := scanAt_moved (a.count '\n' + 1) (a.byteSize + 1) below
  rw [← Place.after_lineEnd] at behind
  have whole := scanAt_line above b
  rw [behind] at whole
  exact whole

theorem scan_joined {ts : List Token}
    (each : ∀ t ∈ ts, scan t.text = ⟨[⟨t.kind, t.text, Place.start⟩], none⟩) :
    (scan (Text.joinWith ['\n'] (ts.map Token.text))).fault = none ∧
    (scan (Text.joinWith ['\n'] (ts.map Token.text))).tokens.map (fun t => (t.kind, t.text)) =
      ts.map fun t => (t.kind, t.text) := by
  induction ts with
  | nil => simp [Text.joinWith, scan, scanAt]
  | cons t ts ih =>
    have alone := each t (by simp)
    cases ts with
    | nil =>
      simp only [List.map_cons, List.map_nil, Text.joinWith, alone]
      exact ⟨trivial, trivial⟩
    | cons u ts =>
      obtain ⟨ok, same⟩ := ih fun v mem => each v (List.mem_cons_of_mem t mem)
      have first : (scan t.text).fault = none := by rw [alone]
      have whole := scan_below first ok
      rw [alone] at whole
      have split : Text.joinWith ['\n'] ((t :: u :: ts).map Token.text) =
          t.text ++ '\n' :: Text.joinWith ['\n'] ((u :: ts).map Token.text) := by
        simp [Text.joinWith]
      rw [split, whole]
      refine ⟨rfl, ?_⟩
      rw [List.map_append, List.map_map, List.map_cons (l := u :: ts), ← same]
      rfl

/-- Texts on lines of their own split into the tokens of the first and those of the second, which
stand further down; each token is the only one of its own text; and the texts of the tokens, on
lines of their own, split into the same tokens again. -/
theorem tokenize_below {limitA limitB : Nat} {a b : Text} {ts us : List Token}
    (above : tokenize limitA a = .ok ts) (below : tokenize limitB b = .ok us) :
    (∀ limit, ts.length + us.length ≤ limit →
      tokenize limit (a ++ '\n' :: b) =
        .ok (ts ++ us.map (Token.moved (a.count '\n' + 1) (a.byteSize + 1)))) ∧
    (∀ t ∈ ts, ∀ limit, 1 ≤ limit →
      tokenize limit t.text = .ok [⟨t.kind, t.text, Place.start⟩]) ∧
    ∀ limit, ts.length ≤ limit →
      ∃ vs, tokenize limit (Text.joinWith ['\n'] (ts.map Token.text)) = .ok vs ∧
        vs.map (fun v => (v.kind, v.text)) = ts.map fun t => (t.kind, t.text) := by
  obtain ⟨okA, rfl, -⟩ := tokenize_eq_ok_iff.mp above
  obtain ⟨okB, rfl, -⟩ := tokenize_eq_ok_iff.mp below
  refine ⟨fun limit enough => ?_, fun t mem limit enough => ?_, fun limit enough => ?_⟩
  · refine tokenize_eq_ok_iff.mpr ?_
    rw [scan_below okA okB]
    exact ⟨rfl, rfl, by simpa using enough⟩
  · refine tokenize_eq_ok_iff.mpr ?_
    rw [scan_text okA t mem]
    exact ⟨rfl, rfl, enough⟩
  · obtain ⟨ok, same⟩ := scan_joined (scan_text okA)
    have count := congrArg List.length same
    simp only [List.length_map] at count
    exact ⟨_, tokenize_eq_ok_iff.mpr ⟨ok, rfl, count ▸ enough⟩, same⟩

def upperSample : Text :=
  "x<=1.5e-3\n--?"

def lowerSample : Text :=
  "'it''s' ?"

theorem tokenize_below_sample :
    tokenize 4 upperSample = .ok [⟨.name, "x", ⟨1, 1, 0⟩⟩, ⟨.symbol, "<=", ⟨1, 2, 1⟩⟩,
      ⟨.number, "1.5e-3", ⟨1, 4, 3⟩⟩, ⟨.comment, "--?", ⟨2, 1, 10⟩⟩] ∧
    tokenize 2 lowerSample = .ok [⟨.string, "'it''s'", ⟨1, 1, 0⟩⟩, ⟨.placeholder, "?", ⟨1, 9, 8⟩⟩] ∧
    tokenize 6 (upperSample ++ '\n' :: lowerSample) = .ok [⟨.name, "x", ⟨1, 1, 0⟩⟩,
      ⟨.symbol, "<=", ⟨1, 2, 1⟩⟩, ⟨.number, "1.5e-3", ⟨1, 4, 3⟩⟩, ⟨.comment, "--?", ⟨2, 1, 10⟩⟩,
      ⟨.string, "'it''s'", ⟨3, 1, 14⟩⟩, ⟨.placeholder, "?", ⟨3, 9, 22⟩⟩] ∧
    tokenize 1 "1.5e-3" = .ok [⟨.number, "1.5e-3", ⟨1, 1, 0⟩⟩] := by
  have above : tokenize 4 upperSample = .ok [⟨.name, "x", ⟨1, 1, 0⟩⟩, ⟨.symbol, "<=", ⟨1, 2, 1⟩⟩,
      ⟨.number, "1.5e-3", ⟨1, 4, 3⟩⟩, ⟨.comment, "--?", ⟨2, 1, 10⟩⟩] := by decide +kernel
  have below : tokenize 2 lowerSample =
      .ok [⟨.string, "'it''s'", ⟨1, 1, 0⟩⟩, ⟨.placeholder, "?", ⟨1, 9, 8⟩⟩] := by decide +kernel
  obtain ⟨both, alone, -⟩ := tokenize_below above below
  exact ⟨above, below, both 6 (by decide),
    alone ⟨.number, "1.5e-3", ⟨1, 4, 3⟩⟩ (by simp) 1 (by decide)⟩

end SqlCompose
