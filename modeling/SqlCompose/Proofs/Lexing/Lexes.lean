import SqlCompose.Proofs.Lexing.Reads

/-! Scanning as a relation between a text and the shapes of its tokens, without places. The shape
of a token is its kind and its text; the text of a comment does not count. -/

namespace SqlCompose

/-- The kind of a token and its text, if it is not a comment. -/
abbrev TokenShape := TokenKind × Text

def TokenKind.shape (k : TokenKind) (text : Text) : TokenShape :=
  (k, if k = .comment then [] else text)

def Token.shape (t : Token) : TokenShape :=
  t.kind.shape t.text

inductive Lexes : Text → List TokenShape → Prop
  | nil : Lexes [] []
  | blank {c : Char} {s : Text} {o : List TokenShape} (blank : isBlank c = true)
    (behind : Lexes s o) : Lexes (c :: s) o
  | token {c : Char} {s : Text} {k : TokenKind} {n : Nat} {o : List TokenShape}
    (visible : isBlank c = false) (read : Lexeme.Reads c s k n) (behind : Lexes (s.drop n) o) :
    Lexes (c :: s) (k.shape (c :: s.take n) :: o)

theorem scanAt_cons_of_isBlank {p : Place} {c : Char} {s : Text} (blank : isBlank c = true) :
    scanAt p (c :: s) = scanAt (p.next c) s := by
  rw [scanAt, if_pos blank]

theorem scanAt_cons_of_reads {p : Place} {c : Char} {s : Text} {k : TokenKind} {n : Nat}
    (visible : isBlank c = false) (read : Lexeme.Reads c s k n) :
    scanAt p (c :: s) =
      ⟨⟨k, c :: s.take n, p⟩ :: (scanAt (p.after (c :: s.take n)) (s.drop n)).tokens,
        (scanAt (p.after (c :: s.take n)) (s.drop n)).fault⟩ := by
  rw [scanAt, if_neg (by simp [visible]), Lexeme.read_eq_ok_iff.mpr read]

namespace Lexes

variable {s : Text} {o : List TokenShape}

theorem scanAt (h : Lexes s o) (p : Place) :
    (scanAt p s).fault = none ∧ (SqlCompose.scanAt p s).tokens.map Token.shape = o := by
  induction h generalizing p with
  | nil => simp [SqlCompose.scanAt]
  | blank blank _ ih =>
    rw [scanAt_cons_of_isBlank blank]
    exact ih _
  | token visible read _ ih =>
    rw [scanAt_cons_of_reads visible read]
    obtain ⟨fault, shapes⟩ := ih (p.after _)
    exact ⟨fault, by rw [List.map_cons, shapes]; rfl⟩

end Lexes

theorem scanAt_induction {motive : Place → Text → List Token → Prop}
    (nil : ∀ p, motive p [] [])
    (blank : ∀ p c s ts, isBlank c = true → motive (p.next c) s ts → motive p (c :: s) ts)
    (token : ∀ p c s k n ts, isBlank c = false → Lexeme.Reads c s k n →
      motive (p.after (c :: s.take n)) (s.drop n) ts →
      motive p (c :: s) (⟨k, c :: s.take n, p⟩ :: ts))
    {p : Place} {s : Text} (ok : (scanAt p s).fault = none) :
    motive p s (scanAt p s).tokens := by
  induction h : s.length using Nat.strongRecOn generalizing p s with
  | ind size ih =>
    cases s with
    | nil =>
      rw [scanAt]
      exact nil p
    | cons c s =>
      cases isBlankEq : isBlank c with
      | true =>
        rw [scanAt_cons_of_isBlank isBlankEq] at ok ⊢
        exact blank p c s _ isBlankEq (ih s.length (by simp [← h]) ok rfl)
      | false =>
        cases readEq : Lexeme.read c s with
        | error fault =>
          rw [scanAt, if_neg (by simp [isBlankEq]), readEq] at ok
          simp at ok
        | ok found =>
          obtain ⟨k, n⟩ := found
          have read := Lexeme.read_eq_ok_iff.mp readEq
          rw [scanAt_cons_of_reads isBlankEq read] at ok ⊢
          refine token p c s k n _ isBlankEq read (ih (s.drop n).length ?_ ok rfl)
          simp only [List.length_drop, ← h, List.length_cons]
          omega

theorem lexes_of_scanAt {p : Place} {s : Text} (ok : (scanAt p s).fault = none) :
    Lexes s ((scanAt p s).tokens.map Token.shape) :=
  scanAt_induction (motive := fun _ s ts => Lexes s (ts.map Token.shape))
    (fun _ => .nil) (fun _ _ _ _ blank behind => .blank blank behind)
    (fun _ _ _ _ _ _ visible read behind => .token visible read behind) ok

theorem tokenize_eq_ok_iff {limit : Nat} {s : Text} {ts : List Token} :
    tokenize limit s = .ok ts ↔
      (scan s).fault = none ∧ (scan s).tokens = ts ∧ ts.length ≤ limit := by
  simp only [tokenize]
  split
  · next many =>
    simp only [reduceCtorEq, false_iff, not_and]
    rintro - rfl
    omega
  · next few =>
    split
    · next fault => simp [fault]
    · next fault =>
      simp only [Except.ok.injEq, fault, true_and]
      constructor
      · rintro rfl
        exact ⟨rfl, by omega⟩
      · exact fun h => h.1

theorem Lexes.tokenize {s : Text} {o : List TokenShape} (h : Lexes s o) :
    ∃ ts : List Token, ts.map Token.shape = o ∧
      ∀ limit, ts.length ≤ limit → SqlCompose.tokenize limit s = .ok ts := by
  obtain ⟨fault, shapes⟩ := h.scanAt Place.start
  exact ⟨_, shapes, fun limit enough => tokenize_eq_ok_iff.mpr ⟨fault, rfl, enough⟩⟩

theorem lexes_of_tokenize {limit : Nat} {s : Text} {ts : List Token}
    (h : tokenize limit s = .ok ts) : Lexes s (ts.map Token.shape) := by
  obtain ⟨ok, rfl, -⟩ := tokenize_eq_ok_iff.mp h
  exact lexes_of_scanAt ok

namespace Lexes

variable {s b : Text} {o : List TokenShape}

theorem append_blanks_iff (blanks : b.isAllBlank = true) : Lexes (b ++ s) o ↔ Lexes s o := by
  induction b with
  | nil => rfl
  | cons c b ih =>
    simp only [Text.isAllBlank, List.all_cons, Bool.and_eq_true] at blanks
    rw [← ih blanks.2]
    constructor
    · intro h
      cases h with
      | blank _ behind => exact behind
      | token visible => simp [blanks.1] at visible
    · exact .blank blanks.1

theorem eq_nil_of_blanks (blanks : b.isAllBlank = true) (h : Lexes b o) : o = [] := by
  rw [← List.append_nil b, append_blanks_iff blanks] at h
  cases h
  rfl

end Lexes

end SqlCompose
