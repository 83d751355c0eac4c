import SqlCompose.Proofs.Fragments.Reformatting

/-! The normal form of texts in which nothing is kept. It has the visible characters of the text, it
is its own normal form, and it is the same for the text behind any further indentation. The lines
of the text without the blanks at their ends decide it. -/

namespace SqlCompose

open Fragment

theorem Fragment.Copied.visible_eq {least p q : Nat} {s t : Text} {ls : List PlacedLine}
    (h : Copied least p q s t ls) : Text.visible t = Text.visible s := by
  induction h with
  | nil blanks => rw [Text.visible_of_blanks blanks, Text.visible_nil]
  | cons blanks _ blanks' _ _ _ ih =>
    simp only [Text.visible_append, Text.visible_of_blanks blanks, Text.visible_of_blanks blanks',
      ih]

theorem visible_normalizeKeeping (ranges : List ByteRange) (s : Text) :
    Text.visible (normalizeKeeping ranges s).1 = Text.visible s :=
  (copied_normalLines ranges s).visible_eq

def Fragment.SourceLine.ofLine (line : Text) : SourceLine :=
  ⟨0, line.trimEnd, false⟩

theorem sourceLines_nil_unplaced (offset : Nat) (lines : List Text) :
    (sourceLines [] offset lines).map SourceLine.unplaced = lines.map SourceLine.ofLine := by
  induction lines generalizing offset with
  | nil => rfl
  | cons line lines ih =>
    rw [sourceLines, List.map_cons, ih, List.map_cons]
    rfl

theorem normalize_eq (s : Text) :
    normalize s = textOf (place (body (s.lines.map SourceLine.ofLine))) := by
  rw [← sourceLines_nil_unplaced 0, body_unplaced, textOf_place_unplaced]
  rfl

section Lines

variable {line : Text} {l : SourceLine} {t : Text}

theorem isBlank_ofLine : (SourceLine.ofLine line).isBlank = line.isAllBlank := by
  obtain ⟨trail, split, blanks⟩ := Text.trimEnd_append_blanks line
  have whole : line.isAllBlank = line.trimEnd.isAllBlank := by
    conv_lhs => rw [split, Text.isAllBlank_append, blanks, Bool.and_true]
  exact whole.symm

theorem bare_ofLine (blank : (SourceLine.ofLine line).isBlank = true) :
    (SourceLine.ofLine line).text = [] :=
  Text.trimEnd_eq_nil_iff.mpr (isBlank_ofLine.symm.trans blank)

theorem Realigned.ofLine_eq (h : Realigned (.ofLine line) t) :
    SourceLine.ofLine t = (SourceLine.ofLine line).withText t := by
  rw [SourceLine.ofLine, h.trimEnd_eq (Text.trimEnd_trimEnd line)]
  rfl

theorem mem_body_ofLine {lines : List Text}
    (mem : l ∈ body (lines.map SourceLine.ofLine)) : ∃ line ∈ lines, SourceLine.ofLine line = l :=
  List.mem_map.mp (mem_of_mem_body mem)

end Lines

theorem isBlock_body {lines : List Text} {first : SourceLine} {rest : List SourceLine}
    (inLine : ∀ line ∈ lines, '\n' ∉ line)
    (known : body (lines.map SourceLine.ofLine) = first :: rest) : IsBlock first rest := by
  have found : ∀ l ∈ first :: rest, ∃ line ∈ lines, SourceLine.ofLine line = l :=
    fun l mem => mem_body_ofLine (known ▸ mem)
  have visible := head?_body (lines.map SourceLine.ofLine)
  have last := getLast?_body (lines.map SourceLine.ofLine)
  rw [known] at visible last
  refine ⟨?_, visible first rfl, last, fun l mem blank => ?_, fun l mem => ?_⟩
  · obtain ⟨line, -, rfl⟩ := found first (by simp)
    rfl
  · obtain ⟨line, -, rfl⟩ := found l (List.mem_cons_of_mem first mem)
    exact bare_ofLine blank
  · obtain ⟨line, here, rfl⟩ := found l mem
    obtain ⟨trail, split, -⟩ := Text.trimEnd_append_blanks line
    exact fun lineEnd => inLine line here (split ▸ List.mem_append_left trail lineEnd)

theorem normalize_normalize (s : Text) : normalize (normalize s) = normalize s := by
  have whole := normalize_eq s
  cases known : body (s.lines.map SourceLine.ofLine) with
  | nil =>
    rw [known] at whole
    rw [whole]
    rfl
  | cons first rest =>
    have block := isBlock_body (Text.not_mem_lines s) known
    have found : ∀ l ∈ first :: rest, ∃ line, SourceLine.ofLine line = l := fun l mem =>
      (mem_body_ofLine (known ▸ mem)).imp fun _ => And.right
    have same : ∀ l ∈ first :: rest, ∀ t, Realigned l t → SourceLine.ofLine t = l.withText t := by
      intro l mem t realigned
      obtain ⟨line, rfl⟩ := found l mem
      exact realigned.ofLine_eq
    have none : Text.isAllBlank [] = true := rfl
    have here : Realigned first first.text.trimStart := block.realigned none
    have cuts : ∀ l ∈ rest, Realigned l (l.cut (commonIndent rest)) := fun _ => realigned_cut
    obtain ⟨begins, ends⟩ := ends_realigned block.visible block.last here cuts
    -- the lines of the normal form count as the lines that it is made of, and none is dropped
    have again : (normalize s).lines.map SourceLine.ofLine = first.withText first.text.trimStart ::
        rest.map fun l => l.withText (l.cut (commonIndent rest)) := by
      rw [whole, known, block.lines_normal, List.map_cons, List.map_map]
      refine congrArg₂ List.cons (same first (by simp) _ here) ?_
      exact List.map_congr_left fun l mem => same l (List.mem_cons_of_mem first mem) _ (cuts l mem)
    have shared := textOf_place_shifted first block.bare none 0
    have spaces : Text.spaces 0 = [] := rfl
    simp only [spaces, shifted_nil, List.nil_append] at shared
    rw [normalize_eq (normalize s), again, body_eq_self begins ends, shared, whole, known]

section Behind

variable {w : Text}

/-- The line behind an indentation; a line that holds nothing stays so. -/
def Fragment.SourceLine.behind (w : Text) (l : SourceLine) : SourceLine :=
  if l.text = [] then l else l.withText (w ++ l.text)

theorem isAllBlank_of_isIndent (indent : ∀ c ∈ w, isIndent c = true) : w.isAllBlank = true := by
  refine List.all_eq_true.mpr fun c mem => ?_
  rcases (Bool.or_eq_true _ _).mp (indent c mem) with space | tab
  · rw [beq_iff_eq.mp space]
    decide
  · rw [beq_iff_eq.mp tab]
    decide

theorem trimEnd_append_of_ne_nil {s : Text} (nonempty : s.trimEnd ≠ []) :
    Text.trimEnd (w ++ s) = w ++ s.trimEnd := by
  have visible : s.reverse.dropWhile isBlank ≠ [] := by
    rwa [ne_eq, ← List.reverse_eq_nil_iff]
  rw [Text.trimEnd, Text.trimEnd, List.reverse_append, List.dropWhile_append]
  simp [visible]

theorem ofLine_append (blank : w.isAllBlank = true) (line : Text) :
    SourceLine.ofLine (w ++ line) = (SourceLine.ofLine line).behind w := by
  by_cases empty : line.trimEnd = []
  · have none : Text.trimEnd (w ++ line) = [] := by
      rw [Text.trimEnd_eq_nil_iff, Text.isAllBlank_append, blank, Text.trimEnd_eq_nil_iff.mp empty]
      rfl
    simp [SourceLine.behind, SourceLine.ofLine, none, empty]
  · rw [SourceLine.behind, if_neg (by exact empty), SourceLine.ofLine,
      trimEnd_append_of_ne_nil empty]
    rfl

theorem isBlank_behind (blank : w.isAllBlank = true) (l : SourceLine) :
    (l.behind w).isBlank = l.isBlank := by
  rw [SourceLine.behind]
  split
  · rfl
  · simp [SourceLine.isBlank, SourceLine.withText, Text.isAllBlank_append, blank]

theorem body_behind (blank : w.isAllBlank = true) (ls : List SourceLine) :
    body (ls.map (SourceLine.behind w)) = (body ls).map (SourceLine.behind w) :=
  body_map (isBlank_behind blank) ls

theorem reindented_behind (indent : ∀ c ∈ w, isIndent c = true) {l : SourceLine}
    (free : l.kept = false) : Reindented 0 w.length l (l.behind w) := by
  rw [SourceLine.behind]
  split
  · next empty => exact .same (by simp [SourceLine.counts, empty]) rfl rfl
  · next nonempty =>
    exact .moved (u := []) free free rfl rfl nonempty (by simp) indent rfl rfl

theorem normalize_behind (indent : ∀ c ∈ w, isIndent c = true) (s : Text) :
    normalize (Text.unlines (s.lines.map (w ++ ·))) = normalize s := by
  have blank := isAllBlank_of_isIndent indent
  have inLine : ∀ line ∈ s.lines.map (w ++ ·), '\n' ∉ line := by
    intro line mem
    obtain ⟨old, here, rfl⟩ := List.mem_map.mp mem
    rw [List.mem_append, not_or]
    exact ⟨fun lineEnd => absurd (indent _ lineEnd) (by decide), Text.not_mem_lines s old here⟩
  have lines : (Text.unlines (s.lines.map (w ++ ·))).lines = s.lines.map (w ++ ·) := by
    cases known : s.lines with
    | nil => exact absurd known (Text.lines_ne_nil s)
    | cons line lines =>
      rw [known] at inLine
      exact Text.lines_unlines inLine
  have moved : (s.lines.map (w ++ ·)).map SourceLine.ofLine =
      (s.lines.map SourceLine.ofLine).map (SourceLine.behind w) := by
    rw [List.map_map, List.map_map]
    exact List.map_congr_left fun line _ => ofLine_append blank line
  rw [normalize_eq, normalize_eq, lines, moved, body_behind blank]
  cases known : body (s.lines.map SourceLine.ofLine) with
  | nil => rfl
  | cons first rest =>
    have front : (first.behind w).text.trimStart = first.text.trimStart := by
      rw [SourceLine.behind]
      split
      · rfl
      · exact trimStart_behind blank first.text
    have behind : List.Forall₂ (Reindented 0 w.length) rest (rest.map (SourceLine.behind w)) := by
      rw [List.forall₂_map_right_iff, List.forall₂_same]
      intro l mem
      obtain ⟨line, -, rfl⟩ := mem_body_ofLine (known ▸ List.mem_cons_of_mem first mem)
      exact reindented_behind indent rfl
    exact textOf_place_reindented front behind

end Behind

/-- The normal form of a text is its own normal form, has the visible characters of the text in
their order, and does not change if all lines of the text are put behind the same spaces and
tabs. -/
theorem normalize_laws (s : Text) :
    normalize (normalize s) = normalize s ∧
    Text.visible (normalize s) = Text.visible s ∧
    ∀ w : Text, (∀ c ∈ w, c = ' ' ∨ c = '\t') →
      normalize (Text.unlines (s.lines.map (w ++ ·))) = normalize s := by
  refine ⟨normalize_normalize s, visible_normalizeKeeping [] s, fun w blanks => ?_⟩
  refine normalize_behind (fun c mem => ?_) s
  rcases blanks c mem with rfl | rfl <;> rfl

def unevenSample : Text :=
  "\n \u00a0 a\n\t b \n\u00a0\n\t  c\n"

theorem normalize_laws_sample :
    normalize unevenSample = "a\nb\n\n c".toList ∧
    (∀ c ∈ [' ', '\t'], c = ' ' ∨ c = '\t') ∧
    normalize " \t\n \t \u00a0 a\n \t\t b \n \t\u00a0\n \t\t  c\n \t" = "a\nb\n\n c".toList := by
  have form : normalize unevenSample = "a\nb\n\n c".toList := by decide +kernel
  have blanks : ∀ c ∈ [' ', '\t'], c = ' ' ∨ c = '\t' := by simp
  have behind := (normalize_laws unevenSample).2.2 [' ', '\t'] blanks
  have text : Text.unlines (unevenSample.lines.map ([' ', '\t'] ++ ·)) =
      " \t\n \t \u00a0 a\n \t\t b \n \t\u00a0\n \t\t  c\n \t".toList := by decide +kernel
  rw [text] at behind
  exact ⟨form, blanks, behind.trans form⟩

end SqlCompose
