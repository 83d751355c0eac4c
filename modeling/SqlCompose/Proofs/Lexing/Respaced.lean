import SqlCompose.Proofs.Lexing.Mode

/-! Texts that differ in the blanks around their line ends. Outside of quotes, blanks with a line
end among them can be replaced by other blanks with a line end among them, and behind the last
token blanks do not count at all. The tokens stay what they are, apart from the texts of
comments. -/

namespace SqlCompose

structure IsLineBreak (b : Text) : Prop where
  blanks : b.isAllBlank = true
  lineEnd : '\n' ∈ b

theorem IsLineBreak.exists_cons {b : Text} (h : IsLineBreak b) :
    ∃ (c : Char) (rest : Text), b = c :: rest ∧ isBlank c = true ∧ rest.isAllBlank = true := by
  obtain ⟨blanks, lineEnd⟩ := h
  cases b with
  | nil => cases lineEnd
  | cons c rest =>
    simp only [Text.isAllBlank, List.all_cons, Bool.and_eq_true] at blanks
    exact ⟨c, rest, rfl, blanks.1, blanks.2⟩

theorem isLineBreak_of_blanks {trail lead : Text} (before : trail.isAllBlank = true)
    (behind : lead.isAllBlank = true) : IsLineBreak (trail ++ '\n' :: lead) := by
  have lineEnd : isBlank '\n' = true := by decide
  refine ⟨?_, by simp⟩
  rw [Text.isAllBlank, List.all_append, List.all_cons, lineEnd, Bool.true_and, Bool.and_eq_true]
  exact ⟨before, behind⟩

namespace LexMode

def behindBreak : LexMode → LexMode
  | blockComment | star => blockComment
  | code | dash | slash | lineComment | string | quoted => code

theorem behindBreak_of_isOutside {m : LexMode} (h : m.isOutside = true) : m.behindBreak = code := by
  cases m <;> first | rfl | cases h

end LexMode

open LexMode

/-- The second text is the first one with other blanks around line ends, read from a mode on. -/
inductive Respaced : LexMode → Text → Text → Prop
  | nil (m : LexMode) : Respaced m [] []
  | char {m : LexMode} {c : Char} {s t : Text} (rest : Respaced (m.step c) s t) :
    Respaced m (c :: s) (c :: t)
  | lineBreak {m : LexMode} {b b' s t : Text} (breakable : m.isBreakable = true)
    (old : IsLineBreak b) (new : IsLineBreak b') (rest : Respaced m.behindBreak s t) :
    Respaced m (b ++ s) (b' ++ t)
  | last {m : LexMode} {b b' : Text} (outside : m.isOutside = true)
    (old : b.isAllBlank = true) (new : b'.isAllBlank = true) : Respaced m b b'

namespace Respaced

variable {m : LexMode} {c : Char} {s t : Text}

theorem exists_cons (h : Respaced m (c :: s) t) (kept : m.isBreakable = false ∨ isBlank c = false) :
    ∃ t', t = c :: t' ∧ Respaced (m.step c) s t' := by
  generalize whole : c :: s = s' at h
  cases h with
  | nil => cases whole
  | char rest =>
    obtain ⟨rfl, rfl⟩ := List.cons.inj whole
    exact ⟨_, rfl, rest⟩
  | lineBreak breakable old =>
    obtain ⟨d, rest, rfl, blank, -⟩ := old.exists_cons
    obtain ⟨rfl, -⟩ := List.cons.inj whole
    simp [breakable, blank] at kept
  | last outside old =>
    subst whole
    simp only [Text.isAllBlank, List.all_cons, Bool.and_eq_true] at old
    simp [isBreakable_of_isOutside outside, old.1] at kept

theorem lineEnd {trail lead lead' : Text} (breakable : m.isBreakable = true)
    (before : trail.isAllBlank = true) (behind : lead.isAllBlank = true)
    (behind' : lead'.isAllBlank = true) (rest : Respaced m.behindBreak s t) :
    Respaced m (trail ++ '\n' :: (lead ++ s)) ('\n' :: (lead' ++ t)) := by
  have old := isLineBreak_of_blanks before behind
  have new : IsLineBreak ([] ++ '\n' :: lead') := isLineBreak_of_blanks rfl behind'
  have broken := Respaced.lineBreak breakable old new rest
  simpa using broken

theorem append_left {w : Text} (h : Respaced (m.run w) s t) : Respaced m (w ++ s) (w ++ t) := by
  induction w generalizing m with
  | nil => exact h
  | cons c w ih => exact .char (ih h)

theorem head_ne {q : Char} (h : Respaced m s t) (visible : isBlank q = false)
    (other : ∀ e ∈ s.head?, e ≠ q) : ∀ e ∈ t.head?, e ≠ q := by
  intro e head
  have blankNe : isBlank e = true → e ≠ q := by
    rintro blank rfl
    simp [blank] at visible
  cases h with
  | nil => cases head
  | char rest => exact other e head
  | lineBreak breakable old new =>
    obtain ⟨d, rest, rfl, blank, -⟩ := new.exists_cons
    obtain rfl := Option.some.inj head
    exact blankNe blank
  | last outside old new =>
    have mem := List.mem_of_head? head
    exact blankNe (List.all_eq_true.mp new e mem)

theorem of_resumes (h : Respaced m s t) (resumes : m.Resumes s) : Respaced code s t := by
  cases h with
  | nil => exact .nil code
  | @char _ c s t rest =>
    rw [resumes.step c rfl] at rest
    exact .char rest
  | lineBreak breakable old new rest =>
    rw [behindBreak_of_isOutside resumes.outside] at rest
    exact .lineBreak rfl old new rest
  | last outside old new => exact .last rfl old new

theorem common_stem (h : Respaced m s t) :
    ∃ w r r', s = w ++ r ∧ t = w ++ r' ∧ (∀ d ∈ r.head?, isBlank d = true) ∧
      (∀ d ∈ r'.head?, isBlank d = true) ∧
      ∀ n ≤ w.length, Respaced (m.run (s.take n)) (s.drop n) (t.drop n) := by
  have whole : ∀ {m : LexMode} {s t : Text}, Respaced m s t → ∀ n ≤ ([] : Text).length,
      Respaced (m.run (s.take n)) (s.drop n) (t.drop n) := by
    intro m s t h n none
    obtain rfl := Nat.le_zero.mp none
    exact h
  induction h with
  | nil m => exact ⟨[], [], [], rfl, rfl, by simp, by simp, whole (.nil m)⟩
  | @char m c s t rest ih =>
    cases blank : isBlank c with
    | true =>
      exact ⟨[], c :: s, c :: t, rfl, rfl, by simp [blank], by simp [blank], whole (.char rest)⟩
    | false =>
      obtain ⟨w, r, r', rfl, rfl, first, second, inside⟩ := ih
      refine ⟨c :: w, r, r', rfl, rfl, first, second, fun n bound => ?_⟩
      cases n with
      | zero => exact .char rest
      | succ n => exact inside n (by simpa using bound)
  | @lineBreak m b b' s t breakable old new rest ih =>
    obtain ⟨c, b, rfl, blank, -⟩ := old.exists_cons
    obtain ⟨c', b', rfl, blank', -⟩ := new.exists_cons
    exact ⟨[], _, _, rfl, rfl, by simp [blank], by simp [blank'],
      whole (.lineBreak breakable old new rest)⟩
  | last outside old new =>
    have first : ∀ {b : Text}, b.isAllBlank = true → ∀ d ∈ b.head?, isBlank d = true :=
      fun blanks d head => List.all_eq_true.mp blanks d (List.mem_of_head? head)
    exact ⟨[], _, _, rfl, rfl, first old, first new, whole (.last outside old new)⟩

theorem reads_plain {k : TokenKind} {n : Nat} (h : Respaced (code.step c) s t)
    (start : Lexeme.StartsPlain c s) (found : Lexeme.plain c s = some (k, n)) :
    Lexeme.Reads c t k n ∧ t.take n = s.take n ∧ Respaced code (s.drop n) (t.drop n) := by
  have resumes := resumes_plain start found
  obtain ⟨w, r, r', rfl, rfl, first, second, inside⟩ := h.common_stem
  have ends : Lexeme.Ends c r := fun d head => Lexeme.inert_of_isBlank c (first d head)
  have ends' : Lexeme.Ends c r' := fun d head => Lexeme.inert_of_isBlank c (second d head)
  rw [Lexeme.plain_append ends] at found
  rw [Lexeme.startsPlain_append ends] at start
  have bound := Lexeme.le_length_of_plain found
  refine ⟨.plain ?_ ?_, ?_, (inside n bound).of_resumes resumes⟩
  · exact (Lexeme.startsPlain_append ends').mpr start
  · rw [Lexeme.plain_append ends', found]
  · rw [List.take_append_of_le_length bound, List.take_append_of_le_length bound]

theorem lengthToCode_blanks {b : Text} (inside : m.isInComment = true)
    (blanks : b.isAllBlank = true) (some : b ≠ []) :
    m.lengthToCode (b ++ s) = (blockComment.lengthToCode s).map (· + b.length) := by
  have step : ∀ c, isBlank c = true → ∀ m : LexMode, m.isInComment = true →
      m.step c = blockComment := by
    intro c blank m inside
    have star : c ≠ '*' := by rintro rfl; exact absurd blank (by decide)
    have slash : c ≠ '/' := by rintro rfl; exact absurd blank (by decide)
    cases m <;> simp only [isInComment, Bool.false_eq_true] at inside <;>
      simp [LexMode.step, star, slash]
  induction b generalizing m with
  | nil => exact absurd rfl some
  | cons c b ih =>
    simp only [Text.isAllBlank, List.all_cons, Bool.and_eq_true] at blanks
    rw [List.cons_append, lengthToCode, step c blanks.1 m inside, if_neg (by decide)]
    by_cases last : b = []
    · simp [last]
    · rw [ih rfl blanks.2 last, Option.map_map]
      simp [Function.comp_def, Nat.add_assoc]

theorem lengthToCode {n : Nat} (h : Respaced m s t) (inside : m.isInComment = true)
    (closed : m.lengthToCode s = some n) :
    ∃ n', m.lengthToCode t = some n' ∧ Respaced code (s.drop n) (t.drop n') := by
  induction h generalizing n with
  | nil => cases closed
  | @char m c s t rest ih =>
    rw [LexMode.lengthToCode] at closed
    split at closed
    · next back =>
      obtain rfl := Option.some.inj closed
      exact ⟨1, by rw [LexMode.lengthToCode, if_pos back], back ▸ rest⟩
    · next going =>
      obtain ⟨k, later, rfl⟩ := Option.map_eq_some_iff.mp closed
      obtain ⟨k', found, behind⟩ := ih (isInComment_step inside going) later
      exact ⟨k' + 1, by rw [LexMode.lengthToCode, if_neg going, found]; rfl, behind⟩
  | @lineBreak m b b' s t breakable old new rest ih =>
    have same : m.behindBreak = blockComment := by
      cases m <;> first | rfl | cases inside
    obtain ⟨c, b, rfl, -⟩ := old.exists_cons
    obtain ⟨c', b', rfl, -⟩ := new.exists_cons
    rw [lengthToCode_blanks inside old.blanks (by simp)] at closed
    obtain ⟨k, later, rfl⟩ := Option.map_eq_some_iff.mp closed
    rw [same] at ih
    obtain ⟨k', found, behind⟩ := ih rfl later
    refine ⟨k' + (c' :: b').length, ?_, ?_⟩
    · rw [lengthToCode_blanks inside new.blanks (by simp), found]
      rfl
    · rw [Nat.add_comm k, Nat.add_comm k', List.drop_length_add_append,
        List.drop_length_add_append]
      exact behind
  | @last m b b' outside =>
    have apart : m.isInComment = false := by cases m <;> simp_all [isOutside, isInComment]
    rw [apart] at inside
    cases inside

theorem dropWhile_lineBreak {b : Text} (h : IsLineBreak b) (s : Text) :
    IsLineBreak (b.dropWhile (· ≠ '\n')) ∧
      (b ++ s).dropWhile (· ≠ '\n') = b.dropWhile (· ≠ '\n') ++ s := by
  obtain ⟨blanks, lineEnd⟩ := h
  induction b with
  | nil => cases lineEnd
  | cons c b ih =>
    by_cases here : c = '\n'
    · subst here
      exact ⟨⟨blanks, by simp⟩, rfl⟩
    · simp only [Text.isAllBlank, List.all_cons, Bool.and_eq_true] at blanks
      have later : '\n' ∈ b := (List.mem_cons.mp lineEnd).resolve_left (Ne.symm here)
      simpa [here] using ih blanks.2 later

theorem isAllBlank_dropWhile {b : Text} (h : b.isAllBlank = true) (p : Char → Bool) :
    Text.isAllBlank (b.dropWhile p) = true := by
  simp only [Text.isAllBlank, List.all_eq_true] at h ⊢
  exact fun d mem => h d ((List.dropWhile_sublist p).subset mem)

theorem behind_lineComment (h : Respaced m s t) (inside : m = .lineComment) :
    Respaced code (s.dropWhile (· ≠ '\n')) (t.dropWhile (· ≠ '\n')) := by
  induction h with
  | nil => exact .nil code
  | @char m c s t rest ih =>
    subst inside
    by_cases lineEnd : c = '\n'
    · subst lineEnd
      exact .char rest
    · simp only [List.dropWhile_cons, ne_eq, lineEnd, not_false_eq_true, decide_true, if_true]
      exact ih (if_neg lineEnd)
  | @lineBreak m b b' s t breakable old new rest =>
    subst inside
    obtain ⟨old, split⟩ := dropWhile_lineBreak old s
    obtain ⟨new, split'⟩ := dropWhile_lineBreak new t
    rw [split, split']
    exact .lineBreak rfl old new rest
  | last outside old new =>
    exact .last rfl (isAllBlank_dropWhile old _) (isAllBlank_dropWhile new _)

theorem quotedLength {q : Char} {allowed : Char → Bool} {n : Nat} (quote : IsQuote q m)
    (visible : isBlank q = false) (solid : m.isBreakable = false) (h : Respaced m s t)
    (closed : Lexeme.quotedLength q allowed s = some n) :
    Lexeme.quotedLength q allowed t = some n ∧ t.take n = s.take n ∧
      Respaced code (s.drop n) (t.drop n) := by
  fun_induction Lexeme.quotedLength q allowed s generalizing t n with
  | case1 => cases closed
  | case2 =>
    obtain rfl := Option.some.inj closed
    obtain ⟨t, rfl, rest⟩ := h.exists_cons (.inl solid)
    rw [quote.inside, if_pos rfl] at rest
    exact ⟨Lexeme.quotedLength_closed (rest.head_ne visible (by simp)), rfl, rest⟩
  | case3 s ih =>
    obtain ⟨k, later, rfl⟩ := Option.map_eq_some_iff.mp closed
    obtain ⟨t, rfl, rest⟩ := h.exists_cons (.inl solid)
    rw [quote.inside, if_pos rfl] at rest
    obtain ⟨t, rfl, inside⟩ := rest.exists_cons (.inr visible)
    rw [quote.opens] at inside
    obtain ⟨same, text, behind⟩ := ih inside later
    exact ⟨by simp [Lexeme.quotedLength, same], by simp [text], behind⟩
  | case4 d s other =>
    obtain rfl := Option.some.inj closed
    obtain ⟨t, rfl, rest⟩ := h.exists_cons (.inl solid)
    rw [quote.inside, if_pos rfl] at rest
    exact ⟨Lexeme.quotedLength_closed (rest.head_ne visible (by simp [other])), rfl, rest⟩
  | case5 c s other permitted ih =>
    obtain ⟨k, later, rfl⟩ := Option.map_eq_some_iff.mp closed
    obtain ⟨t, rfl, rest⟩ := h.exists_cons (.inl solid)
    rw [quote.inside, if_neg other] at rest
    obtain ⟨same, text, behind⟩ := ih rest later
    refine ⟨?_, by simp [text], behind⟩
    rw [Lexeme.quotedLength_of_ne _ other, if_pos permitted, same]
    rfl
  | case6 => cases closed

theorem reads {k : TokenKind} {n : Nat} (h : Respaced (code.step c) s t)
    (read : Lexeme.Reads c s k n) :
    ∃ n', Lexeme.Reads c t k n' ∧ k.shape (c :: t.take n') = k.shape (c :: s.take n) ∧
      Respaced code (s.drop n) (t.drop n') := by
  cases read with
  | lineComment s =>
    obtain ⟨t, rfl, rest⟩ := h.exists_cons (.inr (by decide))
    have behind := behind_lineComment rest rfl
    refine ⟨_, .lineComment t, rfl, ?_⟩
    rw [drop_length_takeWhile, drop_length_takeWhile]
    exact behind
  | @blockComment s n closed =>
    obtain ⟨t, rfl, rest⟩ := h.exists_cons (.inr (by decide))
    have inside : Respaced blockComment s t := rest
    rw [(commentLength_eq s).1] at closed
    obtain ⟨n', found, behind⟩ := inside.lengthToCode rfl closed
    rw [← (commentLength_eq t).1] at found
    exact ⟨n' + 1, .blockComment found, rfl, behind⟩
  | string closed =>
    obtain ⟨same, text, behind⟩ := h.quotedLength isQuote_single (by decide) rfl closed
    exact ⟨n, .string same, by rw [text], behind⟩
  | quotedName closed =>
    obtain ⟨same, text, behind⟩ := h.quotedLength isQuote_double (by decide) rfl closed
    exact ⟨n, .quotedName same, by rw [text], behind⟩
  | plain start found =>
    obtain ⟨same, text, behind⟩ := h.reads_plain start found
    exact ⟨n, same, by rw [text], behind⟩

end Respaced

theorem Lexes.respaced {s t : Text} {o : List TokenShape} (h : Lexes s o)
    (g : Respaced code s t) : Lexes t o := by
  induction size : s.length using Nat.strongRecOn generalizing s t o with
  | ind n ih =>
    cases g with
    | nil => exact h
    | @char _ c s t rest =>
      cases h with
      | blank blank behind =>
        rw [LexMode.step, opening_of_isBlank blank] at rest
        exact .blank blank (ih s.length (by simp [← size]) behind rest rfl)
      | @token _ _ k n o visible read behind =>
        obtain ⟨n', read', shape, rest⟩ := rest.reads read
        rw [← shape]
        refine .token visible read' (ih (s.drop n).length ?_ behind rest rfl)
        simp only [← size, List.length_drop, List.length_cons]
        omega
    | @lineBreak _ b b' s t breakable old new rest =>
      rw [append_blanks_iff old.blanks] at h
      rw [append_blanks_iff new.blanks]
      obtain ⟨c, b, rfl, -⟩ := old.exists_cons
      refine ih s.length ?_ h rest rfl
      simp only [← size, List.length_append, List.length_cons]
      omega
    | last outside old new =>
      rw [eq_nil_of_blanks old h]
      rw [← List.append_nil t, append_blanks_iff new]
      exact .nil

end SqlCompose
