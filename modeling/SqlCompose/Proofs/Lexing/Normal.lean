import Mathlib.Data.List.DropRight
import SqlCompose.Proofs.Lexing.Inside
import SqlCompose.Proofs.Lexing.Respaced
import SqlCompose.RawSql

/-! Bringing a fragment into normal form respaces it. Line by line the machine stands outside of
quotes wherever something is dropped, because a side of a line that is in a long literal is kept,
and no other quotes run over a line end. So a fragment and its normal form have the same tokens. -/

namespace SqlCompose

open LexMode Fragment

namespace LexMode

variable {m : LexMode} {b : Text}

theorem step_behindBreak {c : Char} (blank : isBlank c = true) :
    m.behindBreak.step c = m.behindBreak := by
  have star : c ≠ '*' := by rintro rfl; exact absurd blank (by decide)
  have code : code.step c = code := opening_of_isBlank blank
  have comment : blockComment.step c = blockComment := if_neg star
  cases m <;> first | exact code | exact comment

theorem step_of_isBlank {c : Char} (blank : isBlank c = true) :
    m.step c = m ∨ m.isBreakable = true ∧ m.step c = m.behindBreak := by
  have other : ∀ d : Char, isBlank d = false → c ≠ d := by
    rintro d visible rfl
    simp [visible] at blank
  have quote := other '\'' (by decide)
  have doubleQuote := other '"' (by decide)
  have slash := other '/' (by decide)
  have dash := other '-' (by decide)
  have star := other '*' (by decide)
  have opens := opening_of_isBlank blank
  cases m <;>
    simp [step, behindBreak, isBreakable, opens, quote, doubleQuote, slash, dash, star, em']

theorem run_blanks (blanks : b.isAllBlank = true) :
    m.run b = m ∨ m.isBreakable = true ∧ m.run b = m.behindBreak := by
  have stays : m.behindBreak.run b = m.behindBreak := by
    induction b with
    | nil => rfl
    | cons c b ih =>
      simp only [Text.isAllBlank, List.all_cons, Bool.and_eq_true] at blanks
      rw [run_cons, step_behindBreak blanks.1, ih blanks.2]
  induction b with
  | nil => exact .inl rfl
  | cons c b ih =>
    simp only [Text.isAllBlank, List.all_cons, Bool.and_eq_true] at blanks
    rw [run_cons, step_behindBreak blanks.1] at stays
    rcases step_of_isBlank (m := m) blanks.1 with same | ⟨breakable, behind⟩
    · rw [run_cons, same]
      exact ih blanks.2 stays
    · rw [run_cons, behind, stays]
      exact .inr ⟨breakable, rfl⟩

theorem run_behindBreak (blanks : b.isAllBlank = true) : m.behindBreak.run b = m.behindBreak := by
  have idem : m.behindBreak.behindBreak = m.behindBreak := by cases m <;> rfl
  rcases run_blanks (m := m.behindBreak) blanks with same | ⟨-, behind⟩
  · exact same
  · exact behind.trans idem

theorem isBreakable_run_blanks (blanks : b.isAllBlank = true) :
    (m.run b).isBreakable = m.isBreakable := by
  rcases run_blanks (m := m) blanks with same | ⟨breakable, behind⟩
  · rw [same]
  · rw [behind, breakable]
    cases m <;> rfl

theorem isOutside_of_run_blanks (blanks : b.isAllBlank = true)
    (outside : (m.run b).isOutside = true) : m.isOutside = true := by
  rcases run_blanks (m := m) blanks with same | ⟨breakable, behind⟩
  · rwa [← same]
  · rw [behind] at outside
    revert breakable outside
    cases m <;> decide

theorem step_lineEnd (blanks : b.isAllBlank = true) (breakable : m.isBreakable = true) :
    (m.run b).step '\n' = m.behindBreak := by
  rcases run_blanks (m := m) blanks with same | ⟨-, behind⟩
  · rw [same]
    revert breakable
    cases m <;> decide
  · rw [behind, step_behindBreak (by decide)]

end LexMode

namespace Text

theorem trimEnd_append_blanks (s : Text) :
    ∃ trail : Text, s = s.trimEnd ++ trail ∧ trail.isAllBlank = true := by
  refine ⟨s.rtakeWhile isBlank, List.rdropWhile_append_rtakeWhile.symm, ?_⟩
  exact List.all_eq_true.mpr fun _ mem => List.mem_rtakeWhile_imp mem

theorem blanks_append_trimStart (s : Text) :
    ∃ lead : Text, s = lead ++ s.trimStart ∧ lead.isAllBlank = true := by
  refine ⟨s.takeWhile isBlank, List.takeWhile_append_dropWhile.symm, ?_⟩
  exact List.all_eq_true.mpr fun _ mem => List.mem_takeWhile_imp mem

theorem isAllBlank_append (s t : Text) :
    Text.isAllBlank (s ++ t) = (s.isAllBlank && t.isAllBlank) :=
  List.all_append

def below (ls : List Text) : Text :=
  ls.flatMap ('\n' :: ·)

@[simp] theorem below_nil : below [] = [] := rfl

@[simp] theorem below_cons (l : Text) (ls : List Text) :
    below (l :: ls) = '\n' :: (l ++ below ls) := by
  simp [below]

theorem unlines_cons (l : Text) (ls : List Text) : unlines (l :: ls) = l ++ below ls := by
  induction ls generalizing l with
  | nil => simp [unlines]
  | cons next ls ih =>
    rw [unlines, ih next, below_cons]
    simp

end Text

/-- Where the lines from an offset on begin and end, ranges are kept exactly in strings, if the
machine reads the lines from a mode on. Other quotes do not run over line ends. -/
inductive LinesAgree (ranges : List ByteRange) : Nat → LexMode → List Text → Prop
  | nil {offset : Nat} {m : LexMode} : LinesAgree ranges offset m []
  | cons {offset : Nat} {m : LexMode} {line : Text} {lines : List Text} (visible : m ≠ .quoted)
    (before : isInside ranges offset = (m == .string)) (visible' : m.run line ≠ .quoted)
    (behind : isInside ranges (offset + line.byteSize) = (m.run line == .string))
    (rest : LinesAgree ranges (offset + line.byteSize + 1) ((m.run line).step '\n') lines) :
    LinesAgree ranges offset m (line :: lines)

theorem linesAgree_longLiterals {limit : Nat} {sql : Text} {ts : List Token}
    (h : tokenize limit sql = .ok ts) (lines : List Text) (pre : Text)
    (split : sql = pre ++ Text.unlines lines) (start : pre = [] ∨ pre.getLast? = some '\n') :
    LinesAgree (longLiterals ts) pre.byteSize (code.run pre) lines := by
  induction lines generalizing pre with
  | nil => exact .nil
  | cons line lines ih =>
    rw [Text.unlines_cons] at split
    have before := isInside_longLiterals h split (start.imp_right .inl)
    have stop : sql = (pre ++ line) ++ Text.below lines := by rw [split, List.append_assoc]
    have behind := isInside_longLiterals h stop (by cases lines <;> simp [BesideLineEnd])
    rw [Text.byteSize_append, run_append] at behind
    refine .cons before.2 before.1 behind.2 behind.1 ?_
    cases lines with
    | nil => exact .nil
    | cons next lines =>
      have later := ih (pre ++ line ++ ['\n'])
        (by rw [split, Text.unlines_cons, Text.below_cons]; simp) (by simp)
      have size : '\n'.utf8Size = 1 := by decide
      simpa [Nat.add_assoc, size] using later

theorem linesAgree_lines {limit : Nat} {sql : Text} {ts : List Token}
    (h : tokenize limit sql = .ok ts) : LinesAgree (longLiterals ts) 0 code sql.lines :=
  linesAgree_longLiterals h sql.lines [] (Text.unlines_lines sql).symm (.inl rfl)

inductive ReadLines : LexMode → List Text → List SourceLine → Prop
  | nil (m : LexMode) : ReadLines m [] []
  | cons {m : LexMode} {l : SourceLine} {trail : Text} {lines : List Text} {ls : List SourceLine}
    (visible : m ≠ .quoted) (kept : l.kept = (m == .string)) (blanks : trail.isAllBlank = true)
    (ends : m.run l.text = .string ∧ trail = [] ∨ (m.run l.text).isBreakable = true)
    (rest : ReadLines ((m.run (l.text ++ trail)).step '\n') lines ls) :
    ReadLines m ((l.text ++ trail) :: lines) (l :: ls)

theorem LinesAgree.readLines {ranges : List ByteRange} {offset : Nat} {m : LexMode}
    {lines : List Text} (h : LinesAgree ranges offset m lines) :
    ReadLines m lines (sourceLines ranges offset lines) := by
  induction h with
  | nil => exact .nil _
  | @cons offset m line lines visible before visible' behind _ rest =>
    rw [sourceLines, before, behind]
    by_cases inString : m.run line = .string
    · have rest' : ReadLines ((m.run (line ++ [])).step '\n') lines
          (sourceLines ranges (offset + line.byteSize + 1) lines) := by
        simpa using rest
      have whole := ReadLines.cons (l := ⟨offset, line, m == .string⟩)
        visible rfl rfl (.inl ⟨inString, rfl⟩) rest'
      simpa [inString] using whole
    · obtain ⟨trail, cut, blanks⟩ := Text.trimEnd_append_blanks line
      have breakable : (m.run line.trimEnd).isBreakable = true := by
        rw [← isBreakable_run_blanks blanks, ← run_append, ← cut]
        revert inString
        cases known : m.run line <;> first
          | exact fun _ => rfl
          | exact fun other => absurd rfl other
          | exact absurd known visible'
      have whole := ReadLines.cons (l := ⟨offset, line.trimEnd, m == .string⟩) visible rfl blanks
        (.inr breakable) (by rw [← cut]; exact rest)
      rw [← cut] at whole
      simpa [inString] using whole

theorem isIndent_take {common : Nat} {s : Text} (bound : common ≤ indentWidth s) :
    Text.isAllBlank (s.take common) = true := by
  have blank : ∀ c, isIndent c = true → isBlank c = true := by
    intro c indent
    rcases (Bool.or_eq_true _ _).mp indent with space | tab
    · rw [beq_iff_eq.mp space]
      decide
    · rw [beq_iff_eq.mp tab]
      decide
  have same : s.take common = (s.takeWhile isIndent).take common := by
    conv_lhs => rw [← List.takeWhile_append_dropWhile (p := isIndent) (l := s)]
    exact List.take_append_of_le_length bound
  rw [same]
  refine List.all_eq_true.mpr fun c mem => blank c (List.mem_takeWhile_imp (l := s) ?_)
  exact List.mem_of_mem_take mem

theorem SourceLine.cut_spec {l : SourceLine} {ls : List SourceLine} (mem : l ∈ ls)
    (free : l.kept = false) :
    ∃ lead : Text, l.text = lead ++ l.cut (commonIndent ls) ∧ lead.isAllBlank = true := by
  refine ⟨l.text.take (commonIndent ls), by simp [SourceLine.cut, free], ?_⟩
  by_cases empty : l.text = []
  · rw [empty, List.take_nil]
    rfl
  · refine isIndent_take (List.min?_getD_le_of_mem ?_)
    refine List.mem_map.mpr ⟨l, List.mem_filter.mpr ⟨mem, ?_⟩, rfl⟩
    simp [free, empty]

namespace ReadLines

variable {m : LexMode} {lines : List Text} {ls tail : List SourceLine}

theorem dropWhile (h : ReadLines code lines ls) :
    ∃ (b : Text) (lines' : List Text), Text.unlines lines = b ++ Text.unlines lines' ∧
      b.isAllBlank = true ∧ ReadLines code lines' (ls.dropWhile SourceLine.isBlank) := by
  generalize start : code = m at h
  induction h with
  | nil m => exact ⟨[], [], rfl, rfl, start ▸ .nil m⟩
  | @cons m l trail lines ls visible kept blanks ends rest ih =>
    subst start
    cases blank : l.isBlank with
    | false =>
      rw [List.dropWhile_cons_of_neg (by simp [blank])]
      exact ⟨[], _, rfl, rfl, .cons visible kept blanks ends rest⟩
    | true =>
      have textBlank : l.text.isAllBlank = true := ((Bool.and_eq_true _ _).mp blank).2
      have lineBlank : Text.isAllBlank (l.text ++ trail) = true := by
        rw [Text.isAllBlank_append, textBlank, blanks]
        rfl
      have stays : (code.run (l.text ++ trail)).step '\n' = code :=
        step_lineEnd (m := code) lineBlank rfl
      obtain ⟨b, lines', split, front, behind⟩ := ih stays.symm
      rw [stays] at behind
      rw [List.dropWhile_cons_of_pos blank]
      cases lines with
      | nil =>
        cases rest
        refine ⟨l.text ++ trail, [], by simp [Text.unlines], lineBlank, .nil code⟩
      | cons next lines =>
        refine ⟨(l.text ++ trail) ++ '\n' :: b, lines', ?_, ?_, behind⟩
        · rw [Text.unlines, split]
          · simp
          · simp
        · have lineEnd : isBlank '\n' = true := by decide
          rw [Text.isAllBlank_append, lineBlank, Text.isAllBlank, List.all_cons, lineEnd]
          exact front

theorem below_blanks (h : ReadLines m lines ls)
    (blank : ∀ l ∈ ls, SourceLine.isBlank l = true) : (Text.below lines).isAllBlank = true := by
  induction h with
  | nil => rfl
  | @cons m l trail lines ls _ _ blanks _ _ ih =>
    have lineBlank := ((Bool.and_eq_true _ _).mp (blank l (by simp))).2
    have later := ih fun l mem => blank l (List.mem_cons_of_mem _ mem)
    have lineEnd : isBlank '\n' = true := by decide
    rw [Text.below_cons, Text.isAllBlank, List.all_cons, lineEnd, Bool.true_and]
    simp only [List.all_append, Bool.and_eq_true]
    exact ⟨⟨lineBlank, blanks⟩, later⟩

theorem respaced_below {trail : Text} {common : Nat} (h : ReadLines m lines (ls ++ tail))
    (blank : ∀ l ∈ tail, SourceLine.isBlank l = true) {m₀ : LexMode}
    (here : m = (m₀.run trail).step '\n') (blanks : trail.isAllBlank = true)
    (ends : m₀ = .string ∧ trail = [] ∨ m₀.isBreakable = true)
    (cuts : ∀ l ∈ ls, l.kept = false →
      ∃ lead : Text, l.text = lead ++ l.cut common ∧ lead.isAllBlank = true)
    (outside : (m₀.run (trail ++ Text.below lines)).isOutside = true) :
    Respaced m₀ (trail ++ Text.below lines) (Text.below (ls.map (SourceLine.cut common))) := by
  induction ls generalizing m lines trail m₀ with
  | nil =>
    have allBlank : Text.isAllBlank (trail ++ Text.below lines) = true := by
      rw [Text.isAllBlank_append, blanks, h.below_blanks blank]
      rfl
    exact .last (isOutside_of_run_blanks allBlank outside) allBlank rfl
  | cons l ls ih =>
    cases h with
    | @cons _ _ trail' lines _ visible kept blanks' ends' rest =>
      have cuts' := fun l mem => cuts l (List.mem_cons_of_mem _ mem)
      rw [Text.below_cons] at outside ⊢
      rw [List.map_cons, Text.below_cons]
      rcases ends with ⟨inString, none⟩ | breakable
      · -- the line end is text of the string
        subst inString none
        have inside : m = .string := here
        subst inside
        have whole : l.cut common = l.text := if_pos kept
        rw [whole, List.nil_append, List.append_assoc]
        have step : LexMode.string.step '\n' = .string := rfl
        have later : ((LexMode.string.run l.text).run
            (trail' ++ Text.below lines)).isOutside = true := by
          simpa [step] using outside
        have below := ih rest (by rw [run_append]) blanks' ends' cuts' later
        exact .char below.append_left
      · rw [step_lineEnd blanks breakable] at here
        subst here
        have free : l.kept = false := by
          rw [kept]
          cases m₀ <;> rfl
        obtain ⟨lead, split, leadBlank⟩ := cuts l (by simp) free
        have same : m₀.behindBreak.run l.text = m₀.behindBreak.run (l.cut common) := by
          conv_lhs => rw [split, run_append, run_behindBreak leadBlank]
        rw [run_append, same] at rest
        rw [same] at ends'
        have later : ((m₀.behindBreak.run (l.cut common)).run
            (trail' ++ Text.below lines)).isOutside = true := by
          simpa [step_lineEnd blanks breakable, same] using outside
        have below := ih rest rfl blanks' ends' cuts' later
        have text : l.text ++ trail' ++ Text.below lines =
            lead ++ (l.cut common ++ (trail' ++ Text.below lines)) := by
          conv_lhs => rw [split]
          simp
        have broken : Respaced m₀ _ ('\n' :: ([] ++ _)) :=
          .lineEnd breakable blanks leadBlank rfl below.append_left
        rw [text]
        exact broken

end ReadLines

theorem map_text_placeRest (common target : Nat) (ls : List SourceLine) :
    (placeRest common target ls).map PlacedLine.text = ls.map (SourceLine.cut common) := by
  induction ls generalizing target with
  | nil => rfl
  | cons l ls ih =>
    rw [placeRest, List.map_cons, ih, List.map_cons]
    rfl

theorem textOf_place (l : SourceLine) (ls : List SourceLine) :
    textOf (place (l :: ls)) =
      l.text.trimStart ++ Text.below (ls.map (SourceLine.cut (commonIndent ls))) := by
  rw [textOf, place, List.map_cons, Text.unlines_cons, map_text_placeRest]
  rfl

theorem body_append_blanks (ls : List SourceLine) :
    ∃ tail : List SourceLine, ls.dropWhile SourceLine.isBlank = body ls ++ tail ∧
      ∀ l ∈ tail, SourceLine.isBlank l = true := by
  refine ⟨(ls.dropWhile SourceLine.isBlank).rtakeWhile SourceLine.isBlank, ?_, ?_⟩
  · exact List.rdropWhile_append_rtakeWhile.symm
  · exact fun l mem => List.mem_rtakeWhile_imp mem

theorem ReadLines.respaced_place {lines : List Text} {ls tail : List SourceLine}
    {o : List TokenShape} (h : ReadLines code lines (ls ++ tail))
    (blank : ∀ l ∈ tail, SourceLine.isBlank l = true) (lexes : Lexes (Text.unlines lines) o) :
    ∃ lead s : Text, Text.unlines lines = lead ++ s ∧ lead.isAllBlank = true ∧
      Respaced code s (textOf (place ls)) := by
  cases ls with
  | nil =>
    have allBlank : (Text.unlines lines).isAllBlank = true := by
      have below := h.below_blanks blank
      cases lines with
      | nil => rfl
      | cons line lines =>
        rw [Text.below_cons, Text.isAllBlank, List.all_cons, Bool.and_eq_true] at below
        rw [Text.unlines_cons]
        exact below.2
    exact ⟨Text.unlines lines, [], (List.append_nil _).symm, allBlank, .nil code⟩
  | cons l ls =>
    cases h with
    | @cons _ _ trail lines _ visible kept blanks ends rest =>
      obtain ⟨lead, front, leadBlank⟩ := Text.blanks_append_trimStart l.text
      have texts : Text.unlines ((l.text ++ trail) :: lines) =
          lead ++ (l.text.trimStart ++ (trail ++ Text.below lines)) := by
        rw [Text.unlines_cons]
        conv_lhs => rw [front]
        simp
      have stays : code.run lead = code := run_behindBreak (m := code) leadBlank
      have same : code.run l.text = code.run l.text.trimStart := by
        conv_lhs => rw [front, run_append, stays]
      rw [texts, Lexes.append_blanks_iff leadBlank] at lexes
      rw [run_append, same] at rest
      rw [same] at ends
      have outside := lexes.isOutside_run (resumes_code _)
      rw [run_append] at outside
      have below := ReadLines.respaced_below rest blank rfl blanks ends
        (fun l mem => SourceLine.cut_spec mem) outside
      rw [textOf_place]
      exact ⟨lead, _, texts, leadBlank, below.append_left⟩

theorem exists_respaced_normal {limit : Nat} {sql : Text} {ts : List Token}
    (h : tokenize limit sql = .ok ts) :
    ∃ lead s : Text, sql = lead ++ s ∧ lead.isAllBlank = true ∧
      Respaced code s (normalizeKeeping (longLiterals ts) sql).1 := by
  have lexes := lexes_of_tokenize h
  have whole := (linesAgree_lines h).readLines
  obtain ⟨b, lines, split, blanks, read⟩ := whole.dropWhile
  obtain ⟨tail, parts, blank⟩ := body_append_blanks (sourceLines (longLiterals ts) 0 sql.lines)
  rw [Text.unlines_lines] at split
  rw [split, Lexes.append_blanks_iff blanks] at lexes
  rw [parts] at read
  obtain ⟨lead, s, front, leadBlank, respaced⟩ := read.respaced_place blank lexes
  refine ⟨b ++ lead, s, by rw [split, front, List.append_assoc], ?_, respaced⟩
  rw [Text.isAllBlank_append, blanks, leadBlank]
  rfl

theorem lexes_normal {limit : Nat} {sql : Text} {ts : List Token}
    (h : tokenize limit sql = .ok ts) :
    Lexes (normalizeKeeping (longLiterals ts) sql).1 (ts.map Token.shape) := by
  obtain ⟨lead, s, split, blanks, respaced⟩ := exists_respaced_normal h
  have lexes := lexes_of_tokenize h
  rw [split, Lexes.append_blanks_iff blanks] at lexes
  exact lexes.respaced respaced

theorem isBlank_head_normal {limit : Nat} {sql : Text} {ts : List Token}
    (h : tokenize limit sql = .ok ts) :
    ∀ c ∈ (normalizeKeeping (longLiterals ts) sql).1.head?, isBlank c = false := by
  have whole := (linesAgree_lines h).readLines
  obtain ⟨-, lines, -, -, read⟩ := whole.dropWhile
  have text : (normalizeKeeping (longLiterals ts) sql).1 =
      textOf (place (body (sourceLines (longLiterals ts) 0 sql.lines))) := rfl
  rw [text]
  generalize sourceLines (longLiterals ts) 0 sql.lines = ls at read ⊢
  obtain ⟨tail, parts, -⟩ := body_append_blanks ls
  have first := List.head?_dropWhile_not SourceLine.isBlank ls
  rw [parts] at read first
  cases known : body ls with
  | nil =>
    intro c none
    cases none
  | cons l ls =>
    rw [known] at read first
    have free : l.kept = false := by
      cases read with
      | cons _ kept => exact kept
    have visible : l.text.trimStart ≠ [] := by
      intro none
      have blank : l.text.isAllBlank = true :=
        List.all_eq_true.mpr (List.dropWhile_eq_nil_iff.mp none)
      simp [SourceLine.isBlank, free, blank] at first
    intro c head
    rw [textOf_place, List.head?_append_of_ne_nil _ visible] at head
    have leading := List.head?_dropWhile_not isBlank l.text
    have same : l.text.dropWhile isBlank = l.text.trimStart := rfl
    rw [same, head] at leading
    exact leading

/-- The second list of tokens has the kinds and the texts of the first one; texts of comments may
differ. -/
structure SameTokens (ts us : List Token) : Prop where
  length : us.length = ts.length
  kinds : us.map Token.kind = ts.map Token.kind
  texts : ∀ (i : Nat) (t u : Token), ts[i]? = some t → us[i]? = some u → t.kind ≠ .comment →
    u.text = t.text

theorem sameTokens_of_shapes {ts us : List Token} (h : us.map Token.shape = ts.map Token.shape) :
    SameTokens ts us := by
  have kind : Token.kind = Prod.fst ∘ Token.shape := rfl
  refine ⟨by simpa using congrArg List.length h, ?_, fun i t u here here' noComment => ?_⟩
  · rw [kind, ← List.map_map, h, List.map_map]
  · have shapes := congrArg (·[i]?) h
    simp only [List.getElem?_map, here, here', Option.map_some, Option.some.injEq] at shapes
    have kinds : u.kind = t.kind := congrArg Prod.fst shapes
    have texts := congrArg Prod.snd shapes
    simpa [Token.shape, TokenKind.shape, kinds, noComment] using texts

def stringTexts (ts : List Token) : List Text :=
  (ts.filter fun t => t.kind = .string).map Token.text

def placeholderTokens (ts : List Token) : Nat :=
  (ts.filter fun t => t.kind = .placeholder).length

theorem placeholderTokens_eq (ts : List Token) :
    placeholderTokens ts = ((ts.map Token.kind).filter (· = .placeholder)).length := by
  rw [placeholderTokens, List.filter_map, List.length_map]
  rfl

theorem stringTexts_eq (ts : List Token) :
    stringTexts ts = ((ts.map Token.shape).filter fun s => s.1 = .string).map Prod.snd := by
  induction ts with
  | nil => rfl
  | cons t ts ih =>
    rw [stringTexts, List.map_cons, List.filter_cons, List.filter_cons]
    by_cases isString : t.kind = .string
    · have first : t.shape.1 = .string := isString
      have text : t.shape.2 = t.text := by simp [Token.shape, TokenKind.shape, isString]
      rw [if_pos (by simpa using isString), if_pos (by simpa using first), List.map_cons,
        List.map_cons, text, ← ih]
      rfl
    · have first : t.shape.1 ≠ .string := isString
      rw [if_neg (by simpa using isString), if_neg (by simpa using first), ← ih]
      rfl

/-- Normalization does not change what a fragment is read as: the normal form is read under the
same limit, its tokens have the kinds and, apart from comments, the texts of the tokens of the
fragment. So the fragment can be read, and its placeholders and its string literals stay. -/
theorem tokenize_normal {limit : Nat} {sql : Text} {ts : List Token}
    (h : tokenize limit sql = .ok ts) :
    ∃ (text : Text) (us : List Token), text = (normalizeKeeping (longLiterals ts) sql).1 ∧
      tokenize limit text = .ok us ∧ SameTokens ts us ∧
      ∃ body : RawText, RawText.read limit sql = .ok body ∧ body.text = text ∧
        body.placeholders = placeholderTokens ts ∧ body.tokenCount = ts.length ∧
        stringTexts us = stringTexts ts := by
  obtain ⟨us, shapes, found⟩ := (lexes_normal h).tokenize
  have same := sameTokens_of_shapes shapes
  have few := (tokenize_eq_ok_iff.mp h).2.2
  have again : tokenize limit (normalizeKeeping (longLiterals ts) sql).1 = .ok us :=
    found limit (by rw [same.length]; exact few)
  refine ⟨_, us, rfl, again, same, RawText.ofNormal _ us, ?_, rfl, ?_, same.length, ?_⟩
  · rw [RawText.read, h]
    simp only [bind, Except.bind, again]
    rfl
  · have kinds : placeholderTokens us = placeholderTokens ts := by
      rw [placeholderTokens_eq, same.kinds, ← placeholderTokens_eq]
    exact kinds
  · rw [stringTexts_eq, shapes, ← stringTexts_eq]

def sampleFragment : Text :=
  "\n  -- first ? \u00a0\n\tSELECT 'a\n    ''b'  \n   , ? /* x\n  y */  "

theorem tokenize_normal_sample :
    ∃ ts : List Token, tokenize 9 sampleFragment = .ok ts ∧ ts.length = 6 ∧
      ∃ us : List Token, SameTokens ts us ∧
        tokenize 9 "-- first ?\nSELECT 'a\n    ''b'\n  , ? /* x\n y */" = .ok us := by
  have known : tokenize 9 sampleFragment = .ok (scan sampleFragment).tokens :=
    tokenize_eq_ok_iff.mpr ⟨by decide +kernel, rfl, by decide +kernel⟩
  obtain ⟨text, us, normal, again, same, -⟩ := tokenize_normal known
  have text : text = "-- first ?\nSELECT 'a\n    ''b'\n  , ? /* x\n y */".toList := by
    rw [normal]
    decide +kernel
  rw [text] at again
  exact ⟨_, known, by decide +kernel, us, same, again⟩

end SqlCompose
