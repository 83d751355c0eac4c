import Mathlib.Data.List.Induction
import SqlCompose.Proofs.Lexing.Inside

/-! Where tokens stand. The tokens of a text are slices of it, one behind the other, with nothing
but blanks outside of them, and their lines and columns are counted from the text in front of them.
A text that is no sequence of tokens has a place where the character stands that an error names. -/

namespace SqlCompose

namespace Place

/-- The place behind the text `s`, which stands at the start: a line for each line end of `s`, and a
column for each character behind the last of them. -/
structure IsBehind (p : Place) (s : Text) : Prop where
  line : p.line = 1 + s.count '\n'
  column : p.column = 1 + (s.reverse.takeWhile (· ≠ '\n')).length
  offset : p.offset = s.byteSize

theorem isBehind_after (s : Text) : (start.after s).IsBehind s := by
  induction s using List.reverseRecOn with
  | nil => exact ⟨rfl, rfl, rfl⟩
  | append_singleton s c ih =>
    rw [after_append, after_cons, after_nil]
    by_cases lineEnd : c = '\n'
    · rw [lineEnd, next, if_pos rfl]
      exact ⟨by simp [ih.line, Nat.add_assoc], by simp, by simp [start]⟩
    · rw [next, if_neg lineEnd]
      refine ⟨?_, ?_, by simp [start]⟩
      · simp [ih.line, lineEnd]
      · simp [ih.column, lineEnd, Nat.add_assoc]

end Place

theorem Text.byteSize_pos {s : Text} (some : s ≠ []) : 0 < s.byteSize := by
  cases s with
  | nil => exact absurd rfl some
  | cons c s =>
    have positive := c.utf8Size_pos
    rw [byteSize_cons]
    omega

theorem Token.start_eq {t : Token} {before : Text} (place : t.place = Place.start.after before) :
    t.start = before.byteSize := by
  rw [Token.start, place, Place.offset_after, Place.start, Nat.zero_add]

structure Tiled (p : Place) (s : Text) (ts : List Token) : Prop where
  placed : ∀ t ∈ ts, ∃ before behind : Text, s = before ++ (t.text ++ behind) ∧
    t.place = p.after before ∧ t.text ≠ []
  ordered : ts.Pairwise fun t u => t.stop ≤ u.start
  covered : ∀ (before : Text) (c : Char) (behind : Text), s = before ++ c :: behind →
    isBlank c = true ∨
      ∃ t ∈ ts, t.start ≤ (p.after before).offset ∧ (p.after before).offset < t.stop

namespace Tiled

variable {p : Place} {s : Text} {ts : List Token}

theorem nil (p : Place) : Tiled p [] [] :=
  ⟨by simp, .nil, fun before c behind split => by simp at split⟩

theorem blank {c : Char} (blank : isBlank c = true) (h : Tiled (p.next c) s ts) :
    Tiled p (c :: s) ts := by
  refine ⟨fun t mem => ?_, h.ordered, fun before d behind split => ?_⟩
  · obtain ⟨before, behind, rfl, place, text⟩ := h.placed t mem
    exact ⟨c :: before, behind, rfl, place, text⟩
  · cases before with
    | nil =>
      obtain ⟨rfl, -⟩ := List.cons.inj split
      exact .inl blank
    | cons e before =>
      obtain ⟨rfl, rest⟩ := List.cons.inj split
      exact h.covered before d behind rest

theorem token {k : TokenKind} {text : Text} (some : text ≠ []) (h : Tiled (p.after text) s ts) :
    Tiled p (text ++ s) (⟨k, text, p⟩ :: ts) := by
  refine ⟨fun t mem => ?_, List.pairwise_cons.mpr ⟨fun t mem => ?_, h.ordered⟩,
    fun before c behind split => ?_⟩
  · rcases List.mem_cons.mp mem with rfl | later
    · exact ⟨[], s, rfl, rfl, some⟩
    · obtain ⟨before, behind, rfl, place, other⟩ := h.placed t later
      exact ⟨text ++ before, behind, by simp, by simp [place], other⟩
  · obtain ⟨before, behind, -, place, -⟩ := h.placed t mem
    simp only [Token.stop, Token.start, place, Place.offset_after]
    omega
  · -- the character lies in the token or behind it
    rcases List.append_eq_append_iff.mp split with ⟨pre, rfl, rest⟩ | ⟨pre, rfl, rest⟩
    · rcases h.covered pre c behind rest with blank | ⟨t, mem, inside⟩
      · exact .inl blank
      · rw [Place.after_append]
        exact .inr ⟨t, List.mem_cons_of_mem _ mem, inside⟩
    · cases pre with
      | nil =>
        rcases h.covered [] c behind rest.symm with blank | ⟨t, mem, inside⟩
        · exact .inl blank
        · rw [List.append_nil] at inside
          exact .inr ⟨t, List.mem_cons_of_mem _ mem, inside⟩
      | cons d pre =>
        have positive := Text.byteSize_pos (List.cons_ne_nil d pre)
        refine .inr ⟨_, List.mem_cons_self, ?_, ?_⟩
        · simp [Token.start]
        · simp only [Token.stop, Place.offset_after, Text.byteSize_append]
          omega

end Tiled

theorem tiled_scanAt {p : Place} {s : Text} (ok : (scanAt p s).fault = none) :
    Tiled p s (scanAt p s).tokens :=
  scanAt_induction (motive := Tiled) Tiled.nil (fun _ _ _ _ blank behind => .blank blank behind)
    (fun p c s k n ts _ _ behind => by
      have whole := Tiled.token (k := k) (List.cons_ne_nil c (s.take n)) behind
      rwa [List.cons_append, List.take_append_drop] at whole) ok

def LexicalFault.Begins : LexicalFault → Text → Prop
  | openComment, s => ['/', '*'] <+: s
  | openString, s => ['\''] <+: s
  | strange c, s => [c] <+: s

theorem Lexeme.begins_of_read {c : Char} {s : Text} {f : LexicalFault} (h : read c s = .error f) :
    f.Begins (c :: s) := by
  by_cases dash : c = '-' ∧ s.head? = some '-'
  · obtain ⟨rfl, head⟩ := dash
    obtain ⟨s, rfl⟩ := List.head?_eq_some_iff.mp head
    rw [read_dash] at h
    cases h
  by_cases slash : c = '/' ∧ s.head? = some '*'
  · obtain ⟨rfl, head⟩ := slash
    obtain ⟨s, rfl⟩ := List.head?_eq_some_iff.mp head
    rw [read_slash] at h
    split at h <;> cases h
    exact ⟨s, rfl⟩
  by_cases quote : c = '\''
  · subst quote
    rw [read_quote] at h
    split at h <;> cases h
    exact ⟨s, rfl⟩
  by_cases doubleQuote : c = '"'
  · subst doubleQuote
    rw [read_doubleQuote] at h
    split at h <;> cases h
    exact ⟨s, rfl⟩
  rw [read_of_startsPlain ⟨quote, doubleQuote, dash, slash⟩] at h
  split at h <;> cases h
  exact ⟨s, rfl⟩

theorem exists_fault_scanAt {p : Place} {s : Text} {e : SqlError}
    (h : (scanAt p s).fault = some e) :
    ∃ (before behind : Text) (f : LexicalFault), s = before ++ behind ∧ f.Begins behind ∧
      e = f.toError (p.after before) := by
  fun_induction scanAt p s with
  | case1 p => cases h
  | case2 p c s blank ih =>
    obtain ⟨before, behind, f, rfl, begins, error⟩ := ih h
    exact ⟨c :: before, behind, f, rfl, begins, error⟩
  | case3 p c s visible f read =>
    obtain rfl := Option.some.inj h
    exact ⟨[], c :: s, f, rfl, Lexeme.begins_of_read read, rfl⟩
  | case4 p c s visible k n read text rest ih =>
    obtain ⟨before, behind, f, split, begins, error⟩ := ih h
    refine ⟨text ++ before, behind, f, ?_, begins, by rw [error, Place.after_append]⟩
    rw [List.append_assoc, ← split]
    simp [text]

/-- The tokens `ts` and the blanks outside of them make up the text `sql`. -/
structure Covers (sql : Text) (ts : List Token) : Prop where
  nonempty : ∀ t ∈ ts, t.start < t.stop
  ordered : ts.Pairwise fun t u => t.stop ≤ u.start
  slice : ∀ t ∈ ts, sql.slice t.start t.stop = t.text
  place : ∀ t ∈ ts, t.place.IsBehind (sql.takeBytes t.start)
  outside : ∀ (before : Text) (c : Char) (behind : Text), sql = before ++ c :: behind →
    (∀ t ∈ ts, ¬(t.start ≤ before.byteSize ∧ before.byteSize < t.stop)) → isBlank c = true

/-- The error names a place of the text, and what it tells of stands there. -/
inductive Pinpoints (sql : Text) : SqlError → Prop
  | comment {before behind : Text} {p : Place} (split : sql = before ++ '/' :: '*' :: behind)
    (place : p.IsBehind before) : Pinpoints sql (.unterminatedComment p.line p.column)
  | string {before behind : Text} {p : Place} (split : sql = before ++ '\'' :: behind)
    (place : p.IsBehind before) : Pinpoints sql (.unterminatedString p.line p.column)
  | character {before behind : Text} {c : Char} {p : Place} (split : sql = before ++ c :: behind)
    (place : p.IsBehind before) : Pinpoints sql (.invalidCharacter p.line p.column c)

theorem Tiled.covers {sql : Text} {ts : List Token} (h : Tiled Place.start sql ts) :
    Covers sql ts := by
  refine ⟨fun t mem => ?_, h.ordered, fun t mem => ?_, fun t mem => ?_,
    fun before c behind split none => ?_⟩
  · obtain ⟨-, -, -, -, some⟩ := h.placed t mem
    have positive := Text.byteSize_pos some
    rw [Token.start, Token.stop]
    omega
  · obtain ⟨before, behind, rfl, place, -⟩ := h.placed t mem
    have length : t.stop - t.start = t.text.byteSize := by simp [Token.stop, Token.start]
    rw [Text.slice, length, Token.start_eq place, Text.dropBytes_byteSize, Text.takeBytes_byteSize]
  · obtain ⟨before, behind, rfl, place, -⟩ := h.placed t mem
    rw [Token.start_eq place, Text.takeBytes_byteSize, place]
    exact Place.isBehind_after before
  · refine (h.covered before c behind split).resolve_right ?_
    rintro ⟨t, mem, inside⟩
    rw [Place.offset_after, Place.start, Nat.zero_add] at inside
    exact none t mem inside

theorem pinpoints_of_fault {sql : Text} {e : SqlError} (h : (scan sql).fault = some e) :
    Pinpoints sql e := by
  obtain ⟨before, behind, f, rfl, begins, rfl⟩ := exists_fault_scanAt h
  have place := Place.isBehind_after before
  cases f with
  | openComment =>
    obtain ⟨rest, rfl⟩ := begins
    exact .comment rfl place
  | openString =>
    obtain ⟨rest, rfl⟩ := begins
    exact .string rfl place
  | strange c =>
    obtain ⟨rest, rfl⟩ := begins
    exact .character rfl place

/-- The tokens of a text are its visible slices, each with the place where it stands; and a text
that has none is refused for its number of tokens, or with the place of what is wrong in it. -/
theorem tokenize_places (limit : Nat) (sql : Text) :
    (∀ ts, tokenize limit sql = .ok ts → Covers sql ts) ∧
    ∀ e, tokenize limit sql = .error e → e = .tooManyTokens limit ∨ Pinpoints sql e := by
  constructor
  · intro ts h
    obtain ⟨ok, rfl, -⟩ := tokenize_eq_ok_iff.mp h
    exact (tiled_scanAt ok).covers
  · intro e h
    simp only [tokenize] at h
    split at h
    · exact .inl (Except.error.inj h).symm
    · split at h
      · next fault =>
        obtain rfl := Except.error.inj h
        exact .inr (pinpoints_of_fault fault)
      · cases h

def spreadSample : Text :=
  "/* \u00e9\n*/ x"

def openSample : Text :=
  "a\n  /* b"

theorem tokenize_places_sample :
    tokenize 2 spreadSample =
      .ok [⟨.comment, "/* \u00e9\n*/", ⟨1, 1, 0⟩⟩, ⟨.name, "x", ⟨2, 4, 9⟩⟩] ∧
    Covers spreadSample [⟨.comment, "/* \u00e9\n*/", ⟨1, 1, 0⟩⟩, ⟨.name, "x", ⟨2, 4, 9⟩⟩] ∧
    tokenize 2 openSample = .error (.unterminatedComment 2 3) ∧
    Pinpoints openSample (.unterminatedComment 2 3) := by
  have found : tokenize 2 spreadSample =
      .ok [⟨.comment, "/* \u00e9\n*/", ⟨1, 1, 0⟩⟩, ⟨.name, "x", ⟨2, 4, 9⟩⟩] := by decide +kernel
  have broken : tokenize 2 openSample = .error (.unterminatedComment 2 3) := by decide +kernel
  exact ⟨found, (tokenize_places 2 spreadSample).1 _ found, broken,
    ((tokenize_places 2 openSample).2 _ broken).resolve_left (by decide)⟩

end SqlCompose
