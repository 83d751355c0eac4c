import SqlCompose.Proofs.Lexing.Mode
import SqlCompose.RawSql

/-! Kept ranges and modes. Beside a line end, a position lies inside of a string literal that runs
over several lines exactly if the machine is in a string there. -/

namespace SqlCompose

open LexMode

namespace Lexeme

variable {c : Char} {s : Text} {k : TokenKind} {n : Nat}

theorem commentLength_le (h : commentLength s = some n) : n ≤ s.length := by
  fun_induction commentLength s generalizing n with
  | case1 => cases h
  | case2 => cases h
  | case3 =>
    obtain rfl := Option.some.inj h
    simp
  | case4 c d s _ ih =>
    obtain ⟨k, later, rfl⟩ := Option.map_eq_some_iff.mp h
    have bound := ih later
    simp only [List.length_cons] at bound ⊢
    omega

theorem quotedLength_le {q : Char} {allowed : Char → Bool}
    (h : quotedLength q allowed s = some n) : n ≤ s.length := by
  fun_induction quotedLength q allowed s generalizing n with
  | case1 => cases h
  | case2 =>
    obtain rfl := Option.some.inj h
    simp
  | case3 rest ih =>
    obtain ⟨k, later, rfl⟩ := Option.map_eq_some_iff.mp h
    have bound := ih later
    simp only [List.length_cons]
    omega
  | case4 =>
    obtain rfl := Option.some.inj h
    simp
  | case5 c s _ _ ih =>
    obtain ⟨k, later, rfl⟩ := Option.map_eq_some_iff.mp h
    have bound := ih later
    simp only [List.length_cons]
    omega
  | case6 => cases h

theorem le_length_of_reads (h : Reads c s k n) : n ≤ s.length := by
  cases h with
  | lineComment s => exact (List.takeWhile_sublist _).length_le
  | blockComment closed =>
    have bound := commentLength_le closed
    simp only [List.length_cons]
    omega
  | string closed => exact quotedLength_le closed
  | quotedName closed => exact quotedLength_le closed
  | plain _ found => exact le_length_of_plain found

theorem allowed_of_quotedLength {q : Char} {allowed : Char → Bool}
    (h : quotedLength q allowed s = some n) : ∀ d ∈ s.take n, d = q ∨ allowed d = true := by
  fun_induction quotedLength q allowed s generalizing n with
  | case1 => cases h
  | case2 =>
    obtain rfl := Option.some.inj h
    simp
  | case3 rest ih =>
    obtain ⟨k, later, rfl⟩ := Option.map_eq_some_iff.mp h
    simpa using ih later
  | case4 =>
    obtain rfl := Option.some.inj h
    simp
  | case5 c s _ permitted ih =>
    obtain ⟨k, later, rfl⟩ := Option.map_eq_some_iff.mp h
    simpa [permitted] using ih later
  | case6 => cases h

theorem visible_of_plain (h : plain c s = some (k, n)) : ∀ d ∈ s.take n, isBlank d = false := by
  have split : s = s.takeWhile (fun d => !isBlank d) ++ s.dropWhile fun d => !isBlank d :=
    List.takeWhile_append_dropWhile.symm
  have ends : Ends c (s.dropWhile fun d => !isBlank d) := by
    intro d head
    have blank := List.head?_dropWhile_not (fun d => !isBlank d) s
    rw [Option.mem_def.mp head] at blank
    exact inert_of_isBlank c (by simpa using blank)
  rw [split, plain_append ends] at h
  have bound := le_length_of_plain h
  intro d mem
  rw [split, List.take_append_of_le_length bound] at mem
  simpa using List.mem_takeWhile_imp (List.mem_of_mem_take mem)

theorem kind_of_lineEnd (h : Reads c s k n) (lineEnd : '\n' ∈ c :: s.take n)
    (visible : isBlank c = false) :
    (c = '/' ∧ k = .comment ∧ ∃ r i, s = '*' :: r ∧ n = i + 1 ∧ commentLength r = some i) ∨
      c = '\'' ∧ k = .string ∧ quotedLength '\'' (fun _ => true) s = some n := by
  have inside : '\n' ∈ s.take n := by
    refine (List.mem_cons.mp lineEnd).resolve_left ?_
    rintro rfl
    exact absurd visible (by decide)
  cases h with
  | lineComment s =>
    rw [LexMode.take_length_takeWhile] at inside
    simpa using List.mem_takeWhile_imp inside
  | blockComment closed => exact .inl ⟨rfl, rfl, _, _, rfl, rfl, closed⟩
  | string closed => exact .inr ⟨rfl, rfl, closed⟩
  | quotedName closed =>
    have only := allowed_of_quotedLength closed _ inside
    simp at only
  | plain _ found =>
    have other := visible_of_plain found _ inside
    exact absurd other (by decide)

end Lexeme

theorem LexMode.isInComment_run {m : LexMode} {s u v : Text} {n : Nat}
    (inside : m.isInComment = true) (closed : m.lengthToCode s = some n)
    (split : s.take n = u ++ v) (more : v ≠ []) : (m.run u).isInComment = true := by
  induction u generalizing m s n with
  | nil => exact inside
  | cons c u ih =>
    cases s with
    | nil => cases closed
    | cons d s =>
      rw [LexMode.lengthToCode] at closed
      split at closed
      · obtain rfl := Option.some.inj closed
        have none : [] = u ++ v := (List.cons.inj split).2
        exact absurd (List.append_eq_nil_iff.mp none.symm).2 more
      · next going =>
        obtain ⟨k, later, rfl⟩ := Option.map_eq_some_iff.mp closed
        obtain ⟨rfl, tail⟩ := List.cons.inj split
        exact ih (isInComment_step inside going) later tail

theorem isInside_longLiterals_cons (t : Token) (ts : List Token) (offset : Nat) :
    isInside (longLiterals (t :: ts)) offset =
      (t.isLongLiteral && (t.start < offset && offset < t.stop) ||
        isInside (longLiterals ts) offset) := by
  cases long : t.isLongLiteral <;> simp [isInside, longLiterals, long]

theorem isInside_of_le {ts : List Token} {offset : Nat} (behind : ∀ t ∈ ts, offset ≤ t.start) :
    isInside (longLiterals ts) offset = false := by
  induction ts with
  | nil => rfl
  | cons t ts ih =>
    have first : ¬t.start < offset := Nat.not_lt.mpr (behind t (by simp))
    rw [isInside_longLiterals_cons, ih fun u mem => behind u (List.mem_cons_of_mem t mem)]
    simp [first]

theorem offset_next (p : Place) (c : Char) : (p.next c).offset = p.offset + c.utf8Size := by
  unfold Place.next
  split <;> rfl

/-- A line ends or begins between the two texts, or one of them is empty. -/
def BesideLineEnd (pre post : Text) : Prop :=
  pre = [] ∨ pre.getLast? = some '\n' ∨ post = [] ∨ post.head? = some '\n'

theorem BesideLineEnd.of_append {w pre post : Text} (h : BesideLineEnd (w ++ pre) post) :
    BesideLineEnd pre post := by
  by_cases empty : pre = []
  · exact .inl empty
  · have last : (w ++ pre).getLast? = pre.getLast? := by
      rw [List.getLast?_append]
      cases known : pre.getLast? with
      | none => exact absurd (List.getLast?_eq_none_iff.mp known) empty
      | some d => rfl
    rcases h with none | lineEnd | rest
    · exact absurd (List.append_eq_nil_iff.mp none).2 empty
    · exact .inr (.inl (last ▸ lineEnd))
    · exact .inr (.inr rest)

theorem run_inside_token {c : Char} {s pre v : Text} {k : TokenKind} {n : Nat}
    (visible : isBlank c = false) (read : Lexeme.Reads c s k n) (split : s.take n = pre ++ v)
    (more : v ≠ []) (beside : (c :: pre).getLast? = some '\n' ∨ v.head? = some '\n') :
    '\n' ∈ c :: s.take n ∧ (k == .string) = (code.run (c :: pre) == .string) ∧
      code.run (c :: pre) ≠ .quoted := by
  have lineEnd : '\n' ∈ c :: s.take n := by
    rw [split, ← List.cons_append, List.mem_append]
    rcases beside with last | head
    · exact .inl (List.mem_of_getLast? last)
    · exact .inr (List.mem_of_head? head)
  refine ⟨lineEnd, ?_⟩
  rcases Lexeme.kind_of_lineEnd read lineEnd visible with
    ⟨rfl, rfl, r, i, rfl, rfl, closed⟩ | ⟨rfl, rfl, closed⟩
  · -- the machine is behind the slash or in the comment
    cases pre with
    | nil => exact ⟨rfl, by decide⟩
    | cons d pre =>
      obtain ⟨rfl, tail⟩ := List.cons.inj split
      rw [(commentLength_eq r).1] at closed
      have inside := isInComment_run rfl closed tail more
      have same : code.run ('/' :: '*' :: pre) = blockComment.run pre := rfl
      rw [same]
      revert inside
      cases blockComment.run pre <;> decide
  · have opened : code.run ('\'' :: pre) = string.run pre := rfl
    rw [opened]
    rcases run_inside_quotes isQuote_single closed split more with same | ⟨last, head⟩
    · rw [same]
      decide
    · -- between the quotes of a pair there is no line end
      rw [head, List.getLast?_cons, last] at beside
      simp at beside

def RangesAgree (p : Place) (s : Text) (ts : List Token) : Prop :=
  (∀ t ∈ ts, p.offset ≤ t.start) ∧
  ∀ pre post, s = pre ++ post → BesideLineEnd pre post → ∀ m : LexMode, m.Resumes s →
    isInside (longLiterals ts) (p.offset + pre.byteSize) = (m.run pre == .string) ∧
      m.run pre ≠ .quoted

theorem rangesAgree_here {p : Place} {s : Text} {ts : List Token} {m : LexMode}
    (starts : ∀ t ∈ ts, p.offset ≤ t.start) (resumes : m.Resumes s) :
    isInside (longLiterals ts) p.offset = (m == .string) ∧ m ≠ .quoted := by
  have outside := resumes.outside
  rw [isInside_of_le starts]
  cases m <;> first | decide | cases outside

theorem RangesAgree.blank {p : Place} {c : Char} {s : Text} {ts : List Token}
    (blank : isBlank c = true) (h : RangesAgree (p.next c) s ts) : RangesAgree p (c :: s) ts := by
  obtain ⟨starts, agree⟩ := h
  rw [offset_next] at starts agree
  have starts' : ∀ t ∈ ts, p.offset ≤ t.start := fun t mem =>
    Nat.le_trans (Nat.le_add_right _ _) (starts t mem)
  refine ⟨starts', fun pre post split beside m resumes => ?_⟩
  cases pre with
  | nil => exact rangesAgree_here starts' resumes
  | cons d pre =>
    obtain ⟨rfl, rfl⟩ := List.cons.inj split
    have later := agree pre post rfl (beside.of_append (w := [c])) code (resumes_code _)
    rw [resumes.run_cons, run_cons, step, opening_of_isBlank blank, Text.byteSize_cons,
      ← Nat.add_assoc]
    exact later

section Token

variable {p : Place} {c : Char} {k : TokenKind} {n : Nat} {ts : List Token} {pre post : Text}

theorem agree_behind (read : Lexeme.Reads c (pre ++ post) k n) (beyond : n ≤ pre.length)
    (beside : BesideLineEnd (c :: pre) post)
    (h : RangesAgree (p.after (c :: (pre ++ post).take n)) ((pre ++ post).drop n) ts) :
    isInside (longLiterals (⟨k, c :: (pre ++ post).take n, p⟩ :: ts))
        (p.offset + Text.byteSize (c :: pre)) = (code.run (c :: pre) == .string) ∧
      code.run (c :: pre) ≠ .quoted := by
  have resumes := resumes_of_reads read
  have taken : (pre ++ post).take n = pre.take n := List.take_append_of_le_length beyond
  have dropped : (pre ++ post).drop n = pre.drop n ++ post := List.drop_append_of_le_length beyond
  have whole : c :: pre = (c :: pre.take n) ++ pre.drop n := by simp
  rw [taken, dropped] at h resumes
  rw [whole] at beside ⊢
  rw [taken, isInside_longLiterals_cons, run_append, Text.byteSize_append, ← Nat.add_assoc]
  have later := h.2 (pre.drop n) post rfl beside.of_append _ resumes
  rw [Place.offset_after] at later
  have passed : ¬p.offset + Text.byteSize (c :: pre.take n) + Text.byteSize (pre.drop n) <
      (⟨k, c :: pre.take n, p⟩ : Token).stop := by
    simp only [Token.stop]
    omega
  simp only [passed, decide_false, Bool.and_false, Bool.false_or]
  exact later

theorem agree_inside (visible : isBlank c = false) (read : Lexeme.Reads c (pre ++ post) k n)
    (short : pre.length < n) (beside : BesideLineEnd (c :: pre) post)
    (starts : ∀ t ∈ ts, (p.after (c :: (pre ++ post).take n)).offset ≤ t.start) :
    isInside (longLiterals (⟨k, c :: (pre ++ post).take n, p⟩ :: ts))
        (p.offset + Text.byteSize (c :: pre)) = (code.run (c :: pre) == .string) ∧
      code.run (c :: pre) ≠ .quoted := by
  have bound := Lexeme.le_length_of_reads read
  rw [List.length_append] at bound
  have taken : (pre ++ post).take n = pre ++ post.take (n - pre.length) := by
    rw [List.take_append, List.take_of_length_le (Nat.le_of_lt short)]
  have more : post.take (n - pre.length) ≠ [] := by
    rw [Ne, List.take_eq_nil_iff, not_or, ← List.length_eq_zero_iff]
    omega
  have edge : (c :: pre).getLast? = some '\n' ∨
      (post.take (n - pre.length)).head? = some '\n' := by
    rcases beside with none | last | none | head
    · cases none
    · exact .inl last
    · simp [none] at more
    · refine .inr ?_
      rw [List.head?_take, if_neg (by omega), head]
  obtain ⟨lineEnd, inString, noQuoted⟩ := run_inside_token visible read taken more edge
  have behind : ∀ t ∈ ts, p.offset + Text.byteSize (c :: pre) ≤ t.start := by
    intro t mem
    have start := starts t mem
    rw [Place.offset_after, taken, ← List.cons_append, Text.byteSize_append] at start
    omega
  have started : p.offset < p.offset + Text.byteSize (c :: pre) := by
    have positive := c.utf8Size_pos
    rw [Text.byteSize_cons]
    omega
  have going : p.offset + Text.byteSize (c :: pre) <
      (⟨k, c :: (pre ++ post).take n, p⟩ : Token).stop := by
    obtain ⟨d, v, some⟩ := List.exists_cons_of_ne_nil more
    have positive := d.utf8Size_pos
    simp only [Token.stop, taken, some, Text.byteSize_cons, Text.byteSize_append]
    omega
  have contained : (c :: (pre ++ post).take n).contains '\n' = true := by simpa using lineEnd
  rw [isInside_longLiterals_cons, isInside_of_le behind, Bool.or_false]
  refine ⟨?_, noQuoted⟩
  simp only [Token.isLongLiteral, Token.start, contained, started, going, inString]
  simp

end Token

theorem RangesAgree.token {p : Place} {c : Char} {s : Text} {k : TokenKind} {n : Nat}
    {ts : List Token} (visible : isBlank c = false) (read : Lexeme.Reads c s k n)
    (h : RangesAgree (p.after (c :: s.take n)) (s.drop n) ts) :
    RangesAgree p (c :: s) (⟨k, c :: s.take n, p⟩ :: ts) := by
  have starts' : ∀ t ∈ (⟨k, c :: s.take n, p⟩ : Token) :: ts, p.offset ≤ t.start := by
    intro t mem
    rcases List.mem_cons.mp mem with rfl | mem
    · exact Nat.le_refl _
    · have start := h.1 t mem
      rw [Place.offset_after] at start
      omega
  refine ⟨starts', fun pre post split beside m resumes => ?_⟩
  cases pre with
  | nil => exact rangesAgree_here starts' resumes
  | cons d pre =>
    obtain ⟨rfl, rest⟩ := List.cons.inj split
    obtain rfl : s = pre ++ post := rest
    rw [resumes.run_cons]
    by_cases beyond : n ≤ pre.length
    · exact agree_behind read beyond beside h
    · exact agree_inside visible read (Nat.lt_of_not_le beyond) beside h.1

/-- Beside a line end, a position is in one of the long literals of a text exactly if the machine
is in a string there. -/
theorem isInside_longLiterals {limit : Nat} {sql pre post : Text} {ts : List Token}
    (h : tokenize limit sql = .ok ts) (split : sql = pre ++ post)
    (beside : BesideLineEnd pre post) :
    isInside (longLiterals ts) pre.byteSize = (code.run pre == .string) ∧
      code.run pre ≠ .quoted := by
  obtain ⟨ok, rfl, -⟩ := tokenize_eq_ok_iff.mp h
  have agree : RangesAgree Place.start sql (scan sql).tokens :=
    scanAt_induction (motive := RangesAgree)
      (fun p => ⟨by simp, fun pre post empty _ m resumes => by
        obtain rfl := (List.append_eq_nil_iff.mp empty.symm).1
        exact rangesAgree_here (by simp) resumes⟩)
      (fun _ _ _ _ blank later => later.blank blank)
      (fun _ _ _ _ _ _ visible read later => later.token visible read) ok
  simpa [Place.start] using agree.2 pre post split beside code (resumes_code _)

end SqlCompose
