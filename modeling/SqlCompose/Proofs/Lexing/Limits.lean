import SqlCompose.Proofs.Lexing.Lexes

/-! Limits on the number of tokens. A reader that counts as it goes reads a token to its end before
it counts it, and stops at the first one that the limit does not admit. It finds what the scan of
the whole text finds, so a limit decides whether there is a result and never what the result is. -/

namespace SqlCompose

/-- Reads tokens one after the other while there is `room` for them. What is wrong with a token
is told before it is counted. -/
def readWithin (limit room : Nat) (p : Place) : Text → Except SqlError (List Token)
  | [] => .ok []
  | c :: s =>
    if isBlank c then readWithin limit room (p.next c) s
    else
      match Lexeme.read c s with
      | .error fault => .error (fault.toError p)
      | .ok (kind, n) =>
        match room with
        | 0 => .error (.tooManyTokens limit)
        | room + 1 =>
          let text := c :: s.take n
          (readWithin limit room (p.after text) (s.drop n)).map (⟨kind, text, p⟩ :: ·)
  termination_by s => s.length
  decreasing_by
    · simp
    · simp only [List.length_drop, List.length_cons]
      omega

namespace Scan

def within (limit room : Nat) (found : Scan) : Except SqlError (List Token) :=
  if room < found.tokens.length then .error (.tooManyTokens limit)
  else
    match found.fault with
    | some e => .error e
    | none => .ok found.tokens

variable {limit room : Nat} {t : Token} {found : Scan}

theorem within_of_lt (many : room < found.tokens.length) :
    found.within limit room = .error (.tooManyTokens limit) :=
  if_pos many

theorem within_of_le (few : found.tokens.length ≤ room) : found.within limit room =
    match found.fault with
    | some e => .error e
    | none => .ok found.tokens :=
  if_neg (Nat.not_lt.mpr few)

theorem within_cons : within limit (room + 1) ⟨t :: found.tokens, found.fault⟩ =
    (found.within limit room).map (t :: ·) := by
  by_cases many : room < found.tokens.length
  · have more : room + 1 < (t :: found.tokens).length := Nat.succ_lt_succ many
    rw [within_of_lt many, within_of_lt more]
    rfl
  · have few := Nat.le_of_not_lt many
    have fewer : (t :: found.tokens).length ≤ room + 1 := Nat.succ_le_succ few
    rw [within_of_le few, within_of_le fewer]
    cases found.fault <;> rfl

end Scan

theorem readWithin_eq (limit room : Nat) (p : Place) (s : Text) :
    readWithin limit room p s = (scanAt p s).within limit room := by
  fun_induction readWithin limit room p s with
  | case1 room p =>
    rw [scanAt]
    rfl
  | case2 room p c s blank ih => rw [ih, scanAt_cons_of_isBlank blank]
  | case3 room p c s visible fault read =>
    rw [scanAt, if_neg visible, read]
    rfl
  | case4 p c s visible kind n read =>
    have reads := Lexeme.read_eq_ok_iff.mp read
    rw [scanAt_cons_of_reads (Bool.eq_false_iff.mpr visible) reads]
    exact (Scan.within_of_lt (Nat.succ_pos _)).symm
  | case5 p c s visible kind n read room text ih =>
    have reads := Lexeme.read_eq_ok_iff.mp read
    rw [ih, scanAt_cons_of_reads (Bool.eq_false_iff.mpr visible) reads, Scan.within_cons]

theorem tokenize_eq_within (limit : Nat) (s : Text) :
    tokenize limit s = (scan s).within limit limit := rfl

/-- The error tells of a text that does not split into tokens, and not of their number. -/
def SqlError.isLexical : SqlError → Bool
  | .unterminatedComment .. | .unterminatedString .. | .invalidCharacter .. => true
  | _ => false

theorem tokenize_eq_lexical_iff {limit : Nat} {s : Text} {e : SqlError}
    (lexical : e.isLexical = true) :
    tokenize limit s = .error e ↔
      (scan s).fault = some e ∧ (scan s).tokens.length ≤ limit := by
  rw [tokenize_eq_within]
  by_cases many : limit < (scan s).tokens.length
  · rw [Scan.within_of_lt many]
    constructor
    · intro same
      obtain rfl := Except.error.inj same
      cases lexical
    · exact fun ⟨_, few⟩ => absurd few (Nat.not_le.mpr many)
  · have few := Nat.le_of_not_lt many
    rw [Scan.within_of_le few]
    cases (scan s).fault <;> simp [few]

/-- A limit admits the tokens of a text or refuses their number. It changes neither the tokens nor
what is wrong with a text: if that is found under one limit, it is found under all larger ones, and
under a smaller one at most the number of tokens is refused first. Whether tokens are counted while
they are read or afterwards makes no difference. -/
theorem tokenize_limits (sql : Text) (m : Nat) :
    (∀ ts, tokenize m sql = .ok ts → ∀ n,
      tokenize n sql = if ts.length ≤ n then .ok ts else .error (.tooManyTokens n)) ∧
    (∀ e, e.isLexical = true → tokenize m sql = .error e →
      (∀ n, tokenize n sql = .error e ∨ tokenize n sql = .error (.tooManyTokens n)) ∧
      ∀ n, m ≤ n → tokenize n sql = .error e) ∧
    ∀ n, readWithin n n Place.start sql = tokenize n sql := by
  refine ⟨fun ts found n => ?_, fun e lexical found => ?_, fun n => readWithin_eq n n _ sql⟩
  · obtain ⟨ok, rfl, -⟩ := tokenize_eq_ok_iff.mp found
    split
    · next few => exact tokenize_eq_ok_iff.mpr ⟨ok, rfl, few⟩
    · next many => exact Scan.within_of_lt (Nat.lt_of_not_le many)
  · obtain ⟨fault, few⟩ := (tokenize_eq_lexical_iff lexical).mp found
    refine ⟨fun n => ?_, fun n more => ?_⟩
    · by_cases many : n < (scan sql).tokens.length
      · exact .inr (Scan.within_of_lt many)
      · exact .inl ((tokenize_eq_lexical_iff lexical).mpr ⟨fault, Nat.le_of_not_lt many⟩)
    · exact (tokenize_eq_lexical_iff lexical).mpr ⟨fault, Nat.le_trans few more⟩

/-- The third token is no token; under a limit of one, the second is refused before it is
reached. -/
theorem tokenize_limits_sample :
    tokenize 2 "a ? b" = .error (.tooManyTokens 2) ∧
    tokenize 1 "a ? @" = .error (.tooManyTokens 1) ∧
    tokenize 2 "a ? @" = .error (.invalidCharacter 1 5 '@') ∧
    tokenize 9 "a ? @" = .error (.invalidCharacter 1 5 '@') ∧
    readWithin 2 2 Place.start "a ? @" = .error (.invalidCharacter 1 5 '@') := by
  have whole : tokenize 3 "a ? b" = .ok [⟨.name, ['a'], ⟨1, 1, 0⟩⟩,
      ⟨.placeholder, ['?'], ⟨1, 3, 2⟩⟩, ⟨.name, ['b'], ⟨1, 5, 4⟩⟩] := by decide +kernel
  have broken : tokenize 2 "a ? @" = .error (.invalidCharacter 1 5 '@') := by decide +kernel
  obtain ⟨-, faulty, counted⟩ := tokenize_limits "a ? @" 2
  obtain ⟨either, larger⟩ := faulty _ rfl broken
  have small : tokenize 1 "a ? @" ≠ .error (.invalidCharacter 1 5 '@') := by decide +kernel
  exact ⟨(tokenize_limits "a ? b" 3).1 _ whole 2, (either 1).resolve_left small, broken,
    larger 9 (by decide), (counted 2).trans broken⟩

end SqlCompose
