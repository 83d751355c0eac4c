import SqlCompose.Proofs.Lexing.Stacked
import SqlCompose.Proofs.Lexing.Words

/-! Texts apart. Behind some texts, such as lines, blanks and separators, a scan reads any text as
it would by itself. The tokens of the whole are then those of the text in front and, at their
places, those of the text behind. -/

namespace SqlCompose

def Apart (s : Text) : Prop :=
  ∀ p t, scanAt p (s ++ t) =
    ⟨(scanAt p s).tokens ++ (scanAt (p.after s) t).tokens, (scanAt (p.after s) t).fault⟩

/-- The tokens of a text whose first pieces are `front`, `lead` and `own`: those that each piece adds
to the tokens before it, and the rest. -/
structure Pieced (front lead own whole : Text) (ts ls us vs : List Token) : Prop where
  scan_front : scan front = ⟨ts, none⟩
  scan_lead : scan (front ++ lead) = ⟨ts ++ ls, none⟩
  scan_own : scan (front ++ lead ++ own) = ⟨ts ++ ls ++ us, none⟩
  scan_whole : scan whole = ⟨ts ++ ls ++ us ++ vs, none⟩

namespace Apart

variable {c : Char} {s t : Text} {k : TokenKind} {n : Nat}

theorem nil : Apart [] := by
  intro p t
  have none : scanAt p [] = ⟨[], none⟩ := by rw [scanAt]
  rw [none]
  rfl

theorem blank (blank : isBlank c = true) (h : Apart s) : Apart (c :: s) := by
  intro p t
  rw [List.cons_append, scanAt_cons_of_isBlank blank, scanAt_cons_of_isBlank blank, h,
    Place.after_cons]

theorem token (visible : isBlank c = false) (read : ∀ t, Lexeme.Reads c (s ++ t) k n)
    (bound : n ≤ s.length) (h : Apart (s.drop n)) : Apart (c :: s) := by
  intro p t
  have alone := read []
  rw [List.append_nil] at alone
  have place : p.after (c :: s) = (p.after (c :: s.take n)).after (s.drop n) := by
    rw [← Place.after_append, List.cons_append, List.take_append_drop]
  rw [List.cons_append, scanAt_cons_of_reads visible (read t), scanAt_cons_of_reads visible alone,
    List.take_append_of_le_length bound, List.drop_append_of_le_length bound, h, place]
  rfl

theorem append (h : Apart s) (g : Apart t) : Apart (s ++ t) := by
  intro p u
  rw [List.append_assoc, h, g, h p t, Place.after_append, List.append_assoc]

theorem blanks (blanks : s.isAllBlank = true) : Apart s := by
  induction s with
  | nil => exact nil
  | cons c s ih =>
    obtain ⟨first, others⟩ := (Bool.and_eq_true _ _).mp blanks
    exact blank first (ih others)

theorem line {o : List TokenShape} (h : Lexes s o) : Apart (s ++ ['\n']) := by
  intro p t
  have ok := (h.scanAt p).1
  have alone := scanAt_line ok []
  have none : scanAt (p.after (s ++ ['\n'])) [] = ⟨[], none⟩ := by rw [scanAt]
  rw [none, List.append_nil] at alone
  rw [List.append_assoc, List.singleton_append, scanAt_line ok, alone]

theorem scan_eq (h : Apart s) (p : Place) : scanAt p s = ⟨(scanAt p s).tokens, none⟩ := by
  have none : scanAt (p.after s) [] = ⟨[], none⟩ := by rw [scanAt]
  have whole := h p []
  rw [none, List.append_nil, List.append_nil] at whole
  exact whole

theorem exists_pieced {front lead own back : Text} {o o' : List TokenShape} (above : Apart front)
    (apart : Apart lead) (here : Lexes (front ++ lead ++ own) o)
    (whole : Lexes (front ++ lead ++ own ++ '\n' :: back) o') :
    ∃ ts ls us vs, Pieced front lead own (front ++ lead ++ own ++ '\n' :: back) ts ls us vs ∧
      Lexes own (us.map Token.shape) := by
  have both := above.append apart
  have second := above Place.start lead
  rw [apart.scan_eq] at second
  have third := both Place.start own
  obtain ⟨ok, -⟩ := here.scanAt Place.start
  rw [third] at ok
  have fourth := scanAt_line (here.scanAt Place.start).1 back
  obtain ⟨done, -⟩ := whole.scanAt Place.start
  rw [fourth] at done
  rw [ok, second] at third
  rw [done, third] at fourth
  exact ⟨_, _, _, _, ⟨above.scan_eq _, second, third, fourth⟩, lexes_of_scanAt ok⟩

end Apart

theorem apart_comma : Apart ", " := by
  have read : ∀ t, Lexeme.Reads ',' ([' '] ++ t) .symbol 0 := by
    intro t
    rw [← Lexeme.read_eq_ok_iff]
    rfl
  exact .token (by decide) read (by simp) (.blank (by decide) .nil)

theorem apart_and : Apart "AND " := by
  have read : ∀ t, Lexeme.Reads 'A' (['N', 'D'] ++ ' ' :: t) .name 2 := fun t =>
    reads_name (by decide) (by decide) (by simp; decide)
  exact .token (by decide) read (by simp) (.blank (by decide) .nil)

end SqlCompose
