import SqlCompose.Proofs.Fragments.Formatting
import SqlCompose.Proofs.Fragments.Lines

/-! Formatting what has been formatted. The lines of a formatted fragment are the lines of its
normal form behind new leads. So they have the same visible texts, are kept or not as before, and
share the lead that the formatter has put in front of them: their normal form is the same, and it is
written in the same way once more. -/

namespace SqlCompose

open LexMode Fragment

namespace Text

theorem lines_cons_of_ne {c : Char} {s l : Text} {ls : List Text} (other : c ≠ '\n')
    (known : s.lines = l :: ls) : Text.lines (c :: s) = (c :: l) :: ls := by
  rw [Text.lines, if_neg other, known]

theorem lines_unlines {l : Text} {ls : List Text} (whole : ∀ t ∈ l :: ls, '\n' ∉ t) :
    (unlines (l :: ls)).lines = l :: ls := by
  induction ls generalizing l with
  | nil =>
    induction l with
    | nil => rfl
    | cons c l ih =>
      have other := whole (c :: l) (by simp)
      rw [List.mem_cons, not_or] at other
      exact lines_cons_of_ne (Ne.symm other.1) (ih (by simpa using other.2))
  | cons next ls later =>
    have rest := later fun t mem => whole t (List.mem_cons_of_mem l mem)
    rw [unlines_cons] at rest
    induction l with
    | nil =>
      rw [unlines_cons, below_cons, List.nil_append, Text.lines, if_pos rfl, rest]
    | cons c l ih =>
      have other := whole (c :: l) (by simp)
      rw [List.mem_cons, not_or] at other
      have behind := ih (by
        intro t mem
        rcases List.mem_cons.mp mem with rfl | mem
        · exact other.2
        · exact whole t (List.mem_cons_of_mem _ mem))
      rw [unlines_cons] at behind ⊢
      exact lines_cons_of_ne (Ne.symm other.1) behind

theorem not_mem_lines (s : Text) : ∀ l ∈ s.lines, '\n' ∉ l := by
  induction s with
  | nil => simp [Text.lines]
  | cons c s ih =>
    cases known : Text.lines s with
    | nil => exact absurd known (lines_ne_nil s)
    | cons l ls =>
      rw [known] at ih
      by_cases lineEnd : c = '\n'
      · rw [Text.lines, if_pos lineEnd, known]
        intro t mem
        rcases List.mem_cons.mp mem with rfl | mem
        · simp
        · exact ih t mem
      · rw [lines_cons_of_ne lineEnd known]
        intro t mem
        rcases List.mem_cons.mp mem with rfl | mem
        · rw [List.mem_cons, not_or]
          exact ⟨Ne.symm lineEnd, ih l (by simp)⟩
        · exact ih t (List.mem_cons_of_mem l mem)

end Text

/-- The lines behind a lead, apart from those that begin in a string or hold nothing. -/
def indentLines (lead : Text) (m : LexMode) : List Text → List Text
  | [] => []
  | line :: lines =>
    (if m = .string ∨ line = [] then line else lead ++ line)
      :: indentLines lead ((m.run line).step '\n') lines

theorem Cell.exists_text (cell : Cell) :
    ∃ d, cell.text .question = [d] ∧ (d = '\n' → cell = .char '\n' ∨ cell = .kept '\n') := by
  cases cell with
  | char c => exact ⟨c, rfl, by rintro rfl; exact .inl rfl⟩
  | kept c => exact ⟨c, rfl, by rintro rfl; exact .inr rfl⟩
  | marker p => exact ⟨'?', rfl, fun lineEnd => absurd lineEnd (by decide)⟩

theorem laid_eq_below {m : LexMode} {row : List Cell} (tidy : Tidy m row) (held : Held m row)
    (lead : Text) : ∃ l ls, (codeText .question row).lines = l :: ls ∧
      laid .question lead false row =
        l ++ Text.below (indentLines lead ((m.run l).step '\n') ls) ∧
      (m ≠ .string → laid .question lead true row =
        (if l = [] then [] else lead ++ l) ++
          Text.below (indentLines lead ((m.run l).step '\n') ls)) := by
  induction row generalizing m with
  | nil => exact ⟨[], [], rfl, rfl, fun _ => rfl⟩
  | cons cell row ih =>
    obtain ⟨d, single, isLineEnd⟩ := cell.exists_text
    obtain ⟨l, ls, known, inLine, started⟩ := ih tidy.2 held.2
    have text : codeText .question (cell :: row) = d :: codeText .question row := by
      rw [codeText, List.flatMap_cons, single]
      rfl
    rw [single, run_cons, run_nil] at inLine started
    by_cases lineEnd : d = '\n'
    · subst lineEnd
      have lines : (codeText .question (cell :: row)).lines = [] :: l :: ls := by
        rw [text, Text.lines, if_pos rfl, known]
      refine ⟨[], l :: ls, lines, ?_⟩
      rcases isLineEnd rfl with rfl | rfl
      · -- a line begins behind it
        have breakable := tidy.1 rfl
        have apart : m.step '\n' ≠ .string := by
          revert breakable
          cases m <;> decide
        have whole : ∀ atStart, laid .question lead atStart (.char '\n' :: row) =
            Text.below (indentLines lead (m.step '\n') (l :: ls)) := by
          intro atStart
          rw [laid, if_pos rfl, started apart, indentLines, Text.below_cons]
          by_cases empty : l = [] <;> simp [apart, empty]
        exact ⟨whole false, fun _ => whole true⟩
      · -- the line goes on
        obtain rfl : m = .string := held.1 rfl
        refine ⟨?_, fun apart => absurd rfl apart⟩
        have stays : LexMode.string.step '\n' = .string := rfl
        rw [stays] at inLine
        rw [laid, if_neg (by simp), if_neg (by simp), inLine, run_nil, stays, indentLines,
          if_pos (.inl rfl), Text.below_cons]
        rfl
    · have other : cell ≠ .char '\n' := by
        rintro rfl
        exact lineEnd (List.cons.inj single).1.symm
      refine ⟨d :: l, ls, ?_, ?_, fun _ => ?_⟩
      · rw [text, Text.lines_cons_of_ne lineEnd known]
      · rw [laid, if_neg other, inLine, single]
        rfl
      · rw [laid, if_neg other, inLine, single]
        simp

/-- The text is the text of the line behind another lead; a line that is kept has no lead. -/
inductive Realigned : SourceLine → Text → Prop
  | kept {l : SourceLine} (kept : l.kept = true) : Realigned l l.text
  | free {l : SourceLine} {lead lead' t : Text} (free : l.kept = false)
    (split : l.text = lead ++ t) (blanks : lead.isAllBlank = true)
    (blanks' : lead'.isAllBlank = true) (none : t = [] → lead' = []) : Realigned l (lead' ++ t)

def Fragment.SourceLine.withText (l : SourceLine) (t : Text) : SourceLine :=
  ⟨0, t, l.kept⟩

namespace Realigned

variable {m : LexMode} {l : SourceLine} {t : Text}

theorem run_eq (h : Realigned l t) (start : m.StartsLine) : m.run t = m.run l.text := by
  cases h with
  | kept => rfl
  | free _ split blanks blanks' => rw [split, start.run_append blanks, start.run_append blanks']

theorem isBlank_withText (h : Realigned l t) : (l.withText t).isBlank = l.isBlank := by
  cases h with
  | kept => rfl
  | free _ split blanks blanks' =>
    simp only [SourceLine.isBlank, SourceLine.withText, split, Text.isAllBlank_append, blanks,
      blanks']

theorem trimEnd_eq (h : Realigned l t) (trimmed : l.text.trimEnd = l.text) : t.trimEnd = t := by
  cases h with
  | kept => exact trimmed
  | @free lead lead' t _ split _ _ none =>
    cases t using List.reverseRecOn with
    | nil =>
      rw [none rfl]
      rfl
    | append_singleton t c =>
      rw [split, Text.trimEnd_eq_self_iff] at trimmed
      rw [Text.trimEnd_eq_self_iff]
      simpa [← List.append_assoc] using trimmed

theorem modeLines_cons (h : Realigned l t) (start : m.StartsLine) (kept : l.kept = (m == .string))
    (trimmed : m.run l.text = .string ∨ l.text.trimEnd = l.text) (lines : List Text) :
    modeLines m (t :: lines) =
      l.withText t :: modeLines ((m.run l.text).step '\n') lines := by
  have whole : (if m.run t = .string then t else t.trimEnd) = t := by
    split
    · rfl
    · next outside =>
      rw [h.run_eq start] at outside
      exact h.trimEnd_eq (trimmed.resolve_left outside)
  rw [modeLines, whole, h.run_eq start, ← kept]
  rfl

end Realigned

theorem Neat.modeLines_append {m : LexMode} {ls : List SourceLine} (h : Neat (m.step '\n') ls)
    {f : SourceLine → Text} (realigned : ∀ l ∈ ls, Realigned l (f l)) (lines : List Text) :
    modeLines (m.step '\n') (ls.map f ++ lines) = ls.map (fun l => l.withText (f l)) ++
      modeLines ((m.run (Text.below (ls.map f))).step '\n') lines := by
  induction ls generalizing m with
  | nil => rfl
  | cons l ls ih =>
    cases h with
    | cons kept trimmed rest =>
      have here := realigned l (by simp)
      have start := startsLine_step m
      have later := ih rest fun l mem => realigned l (List.mem_cons_of_mem _ mem)
      rw [List.map_cons, List.cons_append, here.modeLines_cons start kept trimmed, later,
        Text.below_cons, run_cons, LexMode.run_append, here.run_eq start]
      rfl

theorem step_ne_string_of_isOutside {m : LexMode} (outside : m.isOutside = true) :
    m.step '\n' ≠ .string := by
  revert outside
  cases m <;> decide

theorem ends_realigned {first : SourceLine} {rest : List SourceLine}
    (visible : first.isBlank = false)
    (last : ∀ l ∈ (first :: rest).getLast?, SourceLine.isBlank l = false) {t : Text}
    (here : Realigned first t) {f : SourceLine → Text}
    (realigned : ∀ l ∈ rest, Realigned l (f l)) :
    (∀ l ∈ (first.withText t :: rest.map fun l => l.withText (f l)).head?,
        SourceLine.isBlank l = false) ∧
      ∀ l ∈ (first.withText t :: rest.map fun l => l.withText (f l)).getLast?,
        SourceLine.isBlank l = false := by
  constructor
  · rintro l head
    obtain rfl := Option.some.inj head
    exact here.isBlank_withText.trans visible
  · rintro l ends
    rw [List.getLast?_cons, List.getLast?_map] at ends
    obtain rfl := Option.some.inj ends
    rw [List.getLast?_cons] at last
    cases known : rest.getLast? with
    | none =>
      rw [known] at last
      exact here.isBlank_withText.trans (last first rfl)
    | some e =>
      rw [known] at last
      have mem := List.mem_of_getLast? known
      exact (realigned e mem).isBlank_withText.trans (last e rfl)

theorem body_modeLines_realigned {first : SourceLine} {rest : List SourceLine}
    (neat : Neat code (first :: rest)) (visible : first.isBlank = false)
    (last : ∀ l ∈ (first :: rest).getLast?, SourceLine.isBlank l = false) {t : Text}
    (here : Realigned first t) {f : SourceLine → Text} (realigned : ∀ l ∈ rest, Realigned l (f l))
    (outside : (code.run (t ++ Text.below (rest.map f))).isOutside = true) :
    body (modeLines code (t :: (rest.map f ++ [[]]))) =
      first.withText t :: rest.map fun l => l.withText (f l) := by
  obtain ⟨begins, ends⟩ := ends_realigned visible last here realigned
  cases neat with
  | cons kept trimmed neat =>
    rw [LexMode.run_append, here.run_eq startsLine_code] at outside
    have apart := step_ne_string_of_isOutside outside
    have none : modeLines (((code.run first.text).run (Text.below (rest.map f))).step '\n') [[]] =
        [⟨0, [], false⟩] := by
      rw [modeLines, modeLines, beq_eq_false_iff_ne.mpr apart, run_nil, if_neg apart]
      rfl
    rw [here.modeLines_cons startsLine_code kept trimmed, neat.modeLines_append realigned, none,
      ← List.cons_append]
    exact body_append_singleton begins ends rfl

def shifted (lead : Text) (common : Nat) (l : SourceLine) : Text :=
  if l.kept ∨ l.cut common = [] then l.cut common else lead ++ l.cut common

theorem shifted_nil (common : Nat) (l : SourceLine) : shifted [] common l = l.cut common := by
  rw [shifted, List.nil_append, ite_self]

section Shifted

variable {l : SourceLine} {ls : List SourceLine} {lead : Text}

theorem realigned_cut (mem : l ∈ ls) : Realigned l (l.cut (commonIndent ls)) := by
  cases kept : l.kept with
  | true =>
    have whole : l.cut (commonIndent ls) = l.text := if_pos kept
    rw [whole]
    exact .kept kept
  | false =>
    obtain ⟨front, split, blanks⟩ := SourceLine.cut_spec mem kept
    have bare : Realigned l ([] ++ l.cut (commonIndent ls)) :=
      .free kept split blanks rfl fun _ => rfl
    exact bare

theorem realigned_shifted (blank : lead.isAllBlank = true) (mem : l ∈ ls) :
    Realigned l (shifted lead (commonIndent ls) l) := by
  rw [shifted]
  split
  · exact realigned_cut mem
  · next counts =>
    rw [not_or] at counts
    have free : l.kept = false := by simpa using counts.1
    obtain ⟨front, split, blanks⟩ := SourceLine.cut_spec mem free
    exact .free free split blanks blank fun none => absurd none counts.2

theorem indentLines_cut {m : LexMode} (h : Neat m ls) (start : m.StartsLine) (common : Nat)
    (realigned : ∀ l ∈ ls, Realigned l (l.cut common)) :
    indentLines lead m (ls.map (SourceLine.cut common)) = ls.map (shifted lead common) := by
  induction h with
  | nil => rfl
  | @cons m l ls kept trimmed rest ih =>
    have here := realigned l (by simp)
    have later := ih (startsLine_step _) fun l mem => realigned l (List.mem_cons_of_mem _ mem)
    rw [List.map_cons, indentLines, here.run_eq start, later, List.map_cons, shifted, kept]
    simp only [beq_iff_eq]

theorem reindented_shifted (bare : l.isBlank = true → l.text = []) (n : Nat) (mem : l ∈ ls) :
    Reindented (commonIndent ls) n l
      (l.withText (shifted (Text.spaces n) (commonIndent ls) l)) := by
  cases counts : l.counts with
  | false =>
    refine .same counts rfl ?_
    cases kept : l.kept with
    | true => simp [SourceLine.withText, shifted, SourceLine.cut, kept]
    | false =>
      have empty : l.text = [] := by simpa [SourceLine.counts, kept] using counts
      simp [SourceLine.withText, shifted, SourceLine.cut, kept, empty]
  | true =>
    have free : l.kept = false := by simpa using ((Bool.and_eq_true _ _).mp counts).1
    obtain ⟨lead, split, indent, size⟩ := cut_split mem counts
    have more : l.cut (commonIndent ls) ≠ [] := by
      intro none
      obtain ⟨blanks, whole, blank⟩ := SourceLine.cut_spec mem free
      rw [none, List.append_nil] at whole
      have empty := bare (by simp [SourceLine.isBlank, free, whole, blank])
      simp [SourceLine.counts, empty] at counts
    refine .moved (v := Text.spaces n) free free split ?_ more indent (fun c mem => ?_) size
      List.length_replicate
    · rw [SourceLine.withText, shifted, if_neg (by simp [free, more])]
    · rw [List.eq_of_mem_replicate mem]
      rfl

theorem forall₂_shifted (bare : ∀ l ∈ ls, SourceLine.isBlank l = true → l.text = []) (n : Nat) :
    List.Forall₂ (Reindented (commonIndent ls) n) ls
      (ls.map fun l => l.withText (shifted (Text.spaces n) (commonIndent ls) l)) := by
  rw [List.forall₂_map_right_iff, List.forall₂_same]
  exact fun l mem => reindented_shifted (bare l mem) n mem

end Shifted

theorem trimStart_behind {lead : Text} (blank : lead.isAllBlank = true) (s : Text) :
    (lead ++ s).trimStart = s.trimStart :=
  List.dropWhile_append_of_pos (List.all_eq_true.mp blank)

theorem textOf_place_shifted (first : SourceLine) {rest : List SourceLine}
    (bare : ∀ l ∈ rest, SourceLine.isBlank l = true → l.text = []) {lead : Text}
    (blank : lead.isAllBlank = true) (n : Nat) :
    textOf (place (first.withText (lead ++ first.text.trimStart) ::
        rest.map fun l => l.withText (shifted (Text.spaces n) (commonIndent rest) l))) =
      textOf (place (first :: rest)) := by
  have front : (lead ++ first.text.trimStart).trimStart = first.text.trimStart :=
    (trimStart_behind blank _).trans (List.dropWhile_idempotent isBlank first.text)
  exact textOf_place_reindented front (forall₂_shifted bare n)

theorem not_mem_modeLines {m : LexMode} {lines : List Text} (inLine : ∀ l ∈ lines, '\n' ∉ l) :
    ∀ l ∈ modeLines m lines, '\n' ∉ l.text := by
  induction lines generalizing m with
  | nil => exact fun l mem => absurd mem List.not_mem_nil
  | cons line lines ih =>
    intro l mem
    rcases List.mem_cons.mp mem with rfl | later
    · have here := inLine line (by simp)
      split
      · exact here
      · obtain ⟨trail, split, -⟩ := Text.trimEnd_append_blanks line
        rw [split, List.mem_append, not_or] at here
        exact here.1
    · exact ih (fun t mem => inLine t (List.mem_cons_of_mem line mem)) l later

theorem mem_of_mem_body {l : SourceLine} {ls : List SourceLine} (mem : l ∈ body ls) : l ∈ ls := by
  obtain ⟨tail, parts, -⟩ := body_append_blanks ls
  have dropped : l ∈ ls.dropWhile SourceLine.isBlank := parts ▸ List.mem_append_left tail mem
  exact (List.dropWhile_sublist _).subset dropped

theorem not_mem_cut {l : SourceLine} (inLine : '\n' ∉ l.text) (common : Nat) :
    '\n' ∉ l.cut common := by
  rw [SourceLine.cut]
  split
  · exact inLine
  · exact fun mem => inLine (List.mem_of_mem_drop mem)

theorem not_mem_shifted {l : SourceLine} (inLine : '\n' ∉ l.text) (n common : Nat) :
    '\n' ∉ shifted (Text.spaces n) common l := by
  have cut := not_mem_cut inLine common
  rw [shifted]
  split
  · exact cut
  · rw [List.mem_append, not_or]
    exact ⟨inLine_spaces n, cut⟩

/-- Lines that begin and end with a visible one; the first is not kept, and blank lines hold
nothing. -/
structure IsBlock (first : SourceLine) (rest : List SourceLine) : Prop where
  free : first.kept = false
  visible : first.isBlank = false
  last : ∀ l ∈ (first :: rest).getLast?, SourceLine.isBlank l = false
  bare : ∀ l ∈ rest, SourceLine.isBlank l = true → l.text = []
  inLine : ∀ l ∈ first :: rest, '\n' ∉ l.text

namespace IsBlock

variable {first : SourceLine} {rest : List SourceLine}

theorem trimStart_ne_nil (h : IsBlock first rest) : first.text.trimStart ≠ [] := by
  intro none
  have visible := h.visible
  rw [SourceLine.isBlank, h.free, Text.trimStart_eq_nil_iff.mp none] at visible
  cases visible

theorem not_mem_trimStart (h : IsBlock first rest) : '\n' ∉ first.text.trimStart :=
  fun mem => h.inLine first (by simp) ((List.dropWhile_sublist isBlank).subset mem)

theorem realigned (h : IsBlock first rest) {lead : Text} (blank : lead.isAllBlank = true) :
    Realigned first (lead ++ first.text.trimStart) := by
  obtain ⟨front, split, blanks⟩ := Text.blanks_append_trimStart first.text
  exact .free h.free split blanks blank fun none => absurd none h.trimStart_ne_nil

theorem lines_normal (h : IsBlock first rest) : (textOf (place (first :: rest))).lines =
    first.text.trimStart :: rest.map (SourceLine.cut (commonIndent rest)) := by
  rw [textOf_place, ← Text.unlines_cons]
  refine Text.lines_unlines fun t mem => ?_
  rcases List.mem_cons.mp mem with rfl | later
  · exact h.not_mem_trimStart
  · obtain ⟨l, found, rfl⟩ := List.mem_map.mp later
    exact not_mem_cut (h.inLine l (List.mem_cons_of_mem first found)) _

end IsBlock

structure IsBody (first : SourceLine) (rest : List SourceLine) : Prop extends
    IsBlock first rest where
  neat : Neat code (first :: rest)

theorem Neat.isBody {first : SourceLine} {rest : List SourceLine} (h : Neat code (first :: rest))
    (visible : first.isBlank = false)
    (last : ∀ l ∈ (first :: rest).getLast?, SourceLine.isBlank l = false)
    (inLine : ∀ l ∈ first :: rest, '\n' ∉ l.text) : IsBody first rest := by
  have whole := h
  cases h with
  | cons kept _ neat =>
    have bare := fun l mem => neat.eq_nil_of_blank (startsLine_step _) (l := l) mem
    exact ⟨⟨kept, visible, last, bare, inLine⟩, whole⟩

section Formatted

variable {limit : Nat} {sql : Text} {ts : List Token}

theorem normalText_eq_nil_or (h : tokenize limit sql = .ok ts) :
    normalText sql = [] ∨ ∃ first rest, IsBody first rest ∧
      normalText sql = textOf (place (first :: rest)) := by
  have whole := normalText_eq h
  have neat := (neat_modeLines code sql.lines).body
  have visible := head?_body (modeLines code sql.lines)
  have last := getLast?_body (modeLines code sql.lines)
  have inLine : ∀ l ∈ body (modeLines code sql.lines), '\n' ∉ l.text := fun l mem =>
    not_mem_modeLines (Text.not_mem_lines sql) l (mem_of_mem_body mem)
  generalize body (modeLines code sql.lines) = ls at whole neat visible last inLine
  cases ls with
  | nil => exact .inl whole
  | cons first rest =>
    exact .inr ⟨first, rest, neat.isBody (visible first rfl) last inLine, whole⟩

theorem normalRow_eq_nil_iff (h : tokenize limit sql = .ok ts) :
    normalRow sql = [] ↔ normalText sql = [] := by
  rw [← codeText_normalRow h]
  cases normalRow sql with
  | nil => exact iff_of_true rfl rfl
  | cons cell row =>
    obtain ⟨d, single, -⟩ := cell.exists_text
    rw [codeText, List.flatMap_cons, single]
    exact iff_of_false (List.cons_ne_nil cell row) (List.cons_ne_nil d _)

theorem IsBody.laid_normalRow {first : SourceLine} {rest : List SourceLine}
    (lines : IsBody first rest) (h : tokenize limit sql = .ok ts)
    (whole : normalText sql = textOf (place (first :: rest))) (lead : Text) :
    laid .question lead false (normalRow sql) =
      first.text.trimStart ++ Text.below (rest.map (shifted lead (commonIndent rest))) := by
  obtain ⟨-, text, tidy, held⟩ := keptRow_scan (fault_normalText h)
  obtain ⟨l, ls, known, inLine, -⟩ := laid_eq_below tidy held lead
  obtain ⟨front, split, blanks⟩ := Text.blanks_append_trimStart first.text
  have found := lines.lines_normal
  rw [← whole] at found
  rw [text, found] at known
  obtain ⟨rfl, rfl⟩ := List.cons.inj known
  cases lines.neat with
  | cons _ _ neat =>
    have same : code.run first.text = code.run first.text.trimStart := by
      conv_lhs => rw [split, startsLine_code.run_append blanks]
    rw [same] at neat
    rw [indentLines_cut neat (startsLine_step _) _ fun l mem => realigned_cut mem] at inLine
    exact inLine

theorem indentText_append_spaces (c : RenderConfig) (n : Nat) :
    c.indentText ++ Text.spaces n = Text.spaces (c.indent + n) :=
  List.replicate_append_replicate

theorem lexes_rowItem (h : tokenize limit sql = .ok ts) (c : RenderConfig) (extra : Nat) :
    Lexes (rowItem .question c extra (normalRow sql)) (ts.map Token.shape) := by
  have lexes := lexes_normalText h
  obtain ⟨-, text, tidy, -⟩ := keptRow_scan (fault_normalText h)
  rw [← text] at lexes
  rw [rowItem, indentText_append_spaces]
  split
  · next none =>
    rw [← normalRow, none] at lexes
    exact lexes
  · have respaced := ((relaid_laid (c.indent + (extra + 1)) (normalRow sql)).1.respaced tidy).1
    exact (Lexes.append_blanks_iff (isAllBlank_spaces _)).mpr (lexes.respaced respaced)

theorem tokenize_rowItem (h : tokenize limit sql = .ok ts) (c : RenderConfig) (extra : Nat) :
    ∃ us, tokenize limit (rowItem .question c extra (normalRow sql) ++ ['\n']) = .ok us := by
  have lineEnd : Lexes ['\n'] [] := .blank (by decide) .nil
  have line : Follow.line.Admits ['\n'] := by simp [Follow.Admits]
  have lexes := (lexes_rowItem h c extra).append lineEnd line.soft_of_line (.inl line)
  obtain ⟨us, shapes, found⟩ := lexes.tokenize
  rw [List.append_nil] at shapes
  refine ⟨us, found limit ?_⟩
  rw [(sameTokens_of_shapes shapes).length]
  exact (tokenize_eq_ok_iff.mp h).2.2

theorem IsBody.lines_formatted {first : SourceLine} {rest : List SourceLine}
    (body : IsBody first rest) (k n : Nat) :
    Text.lines ((Text.spaces k ++ first.text.trimStart) ++
        Text.below (rest.map (shifted (Text.spaces n) (commonIndent rest))) ++ ['\n']) =
      (Text.spaces k ++ first.text.trimStart) ::
        (rest.map (shifted (Text.spaces n) (commonIndent rest)) ++ [[]]) := by
  have joined : ∀ ls : List Text, Text.below ls ++ ['\n'] = Text.below (ls ++ [[]]) := by
    intro ls
    simp [Text.below]
  rw [List.append_assoc, joined, ← Text.unlines_cons]
  refine Text.lines_unlines fun t mem => ?_
  rcases List.mem_cons.mp mem with rfl | later
  · rw [List.mem_append, not_or]
    exact ⟨inLine_spaces k, body.not_mem_trimStart⟩
  · rcases List.mem_append.mp later with shiftedLine | last
    · obtain ⟨l, found, rfl⟩ := List.mem_map.mp shiftedLine
      exact not_mem_shifted (body.inLine l (List.mem_cons_of_mem first found)) n _
    · rw [List.mem_singleton.mp last]
      exact List.not_mem_nil

theorem normalText_rowItem (h : tokenize limit sql = .ok ts) (c : RenderConfig) (extra : Nat) :
    normalText (rowItem .question c extra (normalRow sql) ++ ['\n']) = normalText sql := by
  obtain ⟨us, again⟩ := tokenize_rowItem h c extra
  rcases normalText_eq_nil_or h with none | ⟨first, rest, lines, whole⟩
  · have empty : normalRow sql = [] := (normalRow_eq_nil_iff h).mpr none
    have item : rowItem .question c extra [] = [] := if_pos rfl
    rw [empty, none, item]
    decide +kernel
  · have some : normalRow sql ≠ [] := by
      intro empty
      have none := (normalRow_eq_nil_iff h).mp empty
      rw [whole, textOf_place] at none
      exact lines.trimStart_ne_nil (List.append_eq_nil_iff.mp none).1
    have blank : c.indentText.isAllBlank = true := isAllBlank_spaces c.indent
    have outside := (lexes_rowItem h c extra).isOutside_run (resumes_code _)
    have formatted : rowItem .question c extra (normalRow sql) =
        (c.indentText ++ first.text.trimStart) ++ Text.below
          (rest.map (shifted (Text.spaces (c.indent + (extra + 1))) (commonIndent rest))) := by
      rw [rowItem, if_neg some, lines.laid_normalRow h whole, indentText_append_spaces,
        List.append_assoc]
    rw [formatted] at again outside ⊢
    have found := lines.lines_formatted c.indent (c.indent + (extra + 1))
    have placed := body_modeLines_realigned lines.neat lines.visible lines.last
      (lines.realigned blank) (f := shifted (Text.spaces (c.indent + (extra + 1)))
        (commonIndent rest)) (fun l mem => realigned_shifted (isAllBlank_spaces _) mem) outside
    have same := textOf_place_shifted first lines.bare blank (c.indent + (extra + 1))
    rw [normalText_eq again, whole, ← same, ← placed]
    exact congrArg (fun ls => textOf (place (body (modeLines code ls)))) found

end Formatted

/-- Formatting what has been formatted changes nothing. -/
theorem formatFragment_formatFragment {c : RenderConfig} {extra : Nat} {sql out : Text}
    (h : formatFragment c extra sql = .ok out) : formatFragment c extra out = .ok out := by
  obtain ⟨⟨ts, split⟩, rfl⟩ := formatFragment_eq_ok_iff.mp h
  have same := normalText_rowItem split c extra
  refine formatFragment_eq_ok_iff.mpr ⟨tokenize_rowItem split c extra, ?_⟩
  have row : normalRow (rowItem .question c extra (normalRow sql) ++ ['\n']) = normalRow sql := by
    rw [normalRow, same]
    rfl
  rw [row]

def formattedSample : Text :=
  "    -- first ?\n       SELECT 'a\n    ''b'\n         , ? /* x\n        y */\n"

theorem formatFragment_formatFragment_sample :
    formatFragment .defaults 2 sampleFragment = .ok formattedSample ∧
      formatFragment .defaults 2 formattedSample = .ok formattedSample := by
  have formatted : formatFragment .defaults 2 sampleFragment = .ok formattedSample := by
    decide +kernel
  exact ⟨formatted, formatFragment_formatFragment formatted⟩

end SqlCompose
