import SqlCompose.Proofs.Lexing.Append

/-! What a text adds to the placeholders of the text that it is written in front of. Separators
admit any text behind them; words, numbers and literals admit those that they do not run into. -/

namespace SqlCompose

open LexMode

/-- In front of any text that is admitted, the text adds `n` placeholders. -/
def Continues (s : Text) (n : Nat) (f : Follow) : Prop :=
  ∀ (rest : Text) (k : Nat), f.Admits rest → Marks rest k → Marks (s ++ rest) (n + k)

theorem marks_nil : Marks [] 0 :=
  ⟨[], .nil, rfl⟩

theorem marks_append_blanks_iff {b s : Text} {n : Nat} (blanks : b.isAllBlank = true) :
    Marks (b ++ s) n ↔ Marks s n := by
  simp only [Marks, Lexes.append_blanks_iff blanks]

theorem Marks.token {c : Char} {s : Text} {kind : TokenKind} {n k : Nat}
    (visible : isBlank c = false) (read : Lexeme.Reads c s kind n) (behind : Marks (s.drop n) k) :
    Marks (c :: s) ((if kind = .placeholder then 1 else 0) + k) := by
  obtain ⟨o, lexes, rfl⟩ := behind
  refine ⟨_, .token visible read lexes, ?_⟩
  rw [← List.singleton_append, markCount_append]
  by_cases mark : kind = .placeholder <;> simp [markCount, TokenKind.shape, mark]

theorem Marks.word {c : Char} {s : Text} {kind : TokenKind} {n k : Nat}
    (visible : isBlank c = false) (read : Lexeme.Reads c s kind n) (other : kind ≠ .placeholder)
    (behind : Marks (s.drop n) k) : Marks (c :: s) k := by
  have whole := Marks.token visible read behind
  rwa [if_neg other, Nat.zero_add] at whole

namespace Continues

variable {s t : Text} {n k : Nat} {f f' : Follow}

theorem nil : Continues [] 0 f := by
  intro rest k _ marks
  simpa using marks

theorem append (h : Continues s n f) (g : Continues t k f')
    (fits : ∀ rest, f'.Admits rest → f.Admits (t ++ rest)) : Continues (s ++ t) (n + k) f' := by
  intro rest m admitted marks
  have whole := h (t ++ rest) (k + m) (fits rest admitted) (g rest m admitted marks)
  rwa [← List.append_assoc, ← Nat.add_assoc] at whole

theorem of_anything (h : Continues s n .anything) : Continues s n f :=
  fun rest k _ marks => h rest k trivial marks

theorem line_of_soft (h : Continues s n .soft) : Continues s n .line :=
  fun rest k line marks => h rest k line.soft_of_line marks

theorem anything_append (h : Continues s n .anything) (g : Continues t k f) :
    Continues (s ++ t) (n + k) f :=
  h.append g fun _ _ => trivial

theorem soft_append {c : Char} (h : Continues s n .soft) (g : Continues (c :: t) k f)
    (soft : isSoft c = true) : Continues (s ++ c :: t) (n + k) f := by
  refine h.append g fun rest _ d head => ?_
  obtain rfl := Option.some.inj head
  exact soft

theorem marks (h : Continues s n f) (empty : f.Admits []) : Marks s n := by
  simpa using h [] 0 empty marks_nil

end Continues

theorem Marks.continues_line {s : Text} {n : Nat} (h : Marks s n) : Continues s n .line := by
  obtain ⟨o, lexes, rfl⟩ := h
  rintro rest k line ⟨o', lexes', rfl⟩
  exact ⟨o ++ o', lexes.append lexes' line.soft_of_line (.inl line), markCount_append o o'⟩

theorem Marks.continues_soft {s : Text} {n : Nat} (h : Marks s n)
    (noComment : code.run s ≠ .lineComment) : Continues s n .soft := by
  obtain ⟨o, lexes, rfl⟩ := h
  rintro rest k soft ⟨o', lexes', rfl⟩
  exact ⟨o ++ o', lexes.append lexes' soft (.inr noComment), markCount_append o o'⟩

/-- Characters that admit anything behind them and are soft themselves. -/
def isFirm (c : Char) : Bool :=
  isBlank c || c == '(' || c == ')' || c == ','

theorem isSoft_of_isFirm {c : Char} (h : isFirm c = true) : isSoft c = true := by
  rw [isSoft, Bool.or_eq_true]
  exact .inl h

theorem continues_single {c : Char} (single : c ∈ ['(', ')', ',', '.']) :
    Continues [c] 0 .anything := by
  intro rest k _ marks
  have read : Lexeme.Reads c rest .symbol 0 := by
    rw [← Lexeme.read_eq_ok_iff]
    simp only [List.mem_cons, List.not_mem_nil, or_false] at single
    rcases single with rfl | rfl | rfl | rfl <;> cases rest <;> rfl
  have visible : isBlank c = false := by
    simp only [List.mem_cons, List.not_mem_nil, or_false] at single
    rcases single with rfl | rfl | rfl | rfl <;> decide
  rw [Nat.zero_add]
  exact .word visible read (by decide) marks

theorem continues_blanks {b : Text} (blanks : b.isAllBlank = true) :
    Continues b 0 .anything := by
  intro rest k _ marks
  rw [Nat.zero_add]
  exact (marks_append_blanks_iff blanks).mpr marks

theorem continues_firm {c : Char} (firm : isFirm c = true) : Continues [c] 0 .anything := by
  simp only [isFirm, Bool.or_eq_true, beq_iff_eq] at firm
  rcases firm with ((blank | rfl) | rfl) | rfl
  · exact continues_blanks (by simp [Text.isAllBlank, blank])
  all_goals exact continues_single (by decide)

theorem continues_bars : Continues "||" 0 .anything := by
  intro rest k _ marks
  have read : Lexeme.Reads '|' ('|' :: rest) .symbol 1 := Lexeme.read_eq_ok_iff.mp rfl
  rw [Nat.zero_add]
  exact .word (by decide) read (by decide) marks

theorem continues_marker : Continues ['?'] 1 .anything := by
  intro rest k _ marks
  have read : Lexeme.Reads '?' rest .placeholder 0 := Lexeme.read_eq_ok_iff.mp rfl
  exact Marks.token (by decide) read marks

/-- Whether a text splits into tokens other than placeholders and does not end in a line
comment. -/
def isWording (s : Text) : Bool :=
  (scan s).fault.isNone && (scan s).tokens.all (fun t => t.kind ≠ .placeholder)
    && code.run s != .lineComment

theorem continues_wording {s : Text} (h : isWording s = true) : Continues s 0 .soft := by
  simp only [isWording, Bool.and_eq_true, Option.isNone_iff_eq_none, bne_iff_ne] at h
  obtain ⟨⟨ok, others⟩, noComment⟩ := h
  have none : markCount ((scan s).tokens.map Token.shape) = 0 := by
    rw [markCount, List.length_eq_zero_iff, List.filter_eq_nil_iff]
    intro shape mem
    obtain ⟨t, found, rfl⟩ := List.mem_map.mp mem
    exact fun mark => of_decide_eq_true (List.all_eq_true.mp others t found)
      (of_decide_eq_true mark)
  exact Marks.continues_soft ⟨_, lexes_of_scanAt ok, none⟩ noComment

def isSeparator (s : Text) : Bool :=
  s.getLast?.any isFirm && isWording s.dropLast

theorem continues_separator {s : Text} (h : isSeparator s = true) :
    Continues s 0 .anything := by
  obtain ⟨ends, words⟩ := (Bool.and_eq_true _ _).mp h
  obtain ⟨c, last, firm⟩ := (Option.any_eq_true _ _).mp ends
  rw [← List.dropLast_append_getLast? c last]
  exact (continues_wording words).soft_append (continues_firm firm) (isSoft_of_isFirm firm)

end SqlCompose
