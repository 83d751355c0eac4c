import SqlCompose.Proofs.Pages.Selects
import SqlCompose.Proofs.Placeholders

/-! Tokens of finished statements. A statement splits into tokens, and those among them that are
placeholders are as many as the statement has; nothing that is written as a text, a name or
a comment hides one of them or looks like one. -/

namespace SqlCompose

namespace Builder

variable {b : Builder}

theorem Closed.page (h : b.Closed) : b.Page := by
  cases h with
  | opened isOpen => exact isOpen.toPage
  | ended done => exact done.toPage
  | owing _ _ done => exact ⟨done.style, done.leads, done.begun, done.lineStart⟩

theorem Closed.marks (h : b.Closed) :
    Marks (codeText .question b.cells.toList) (rowMarks b.cells.toList) := by
  have laid := relaid_codeText b.cells.toList
  cases h with
  | opened isOpen => exact (isOpen.row _ laid).marks trivial
  | ended done => exact (done.row_nil _ laid).marks (by simp [Follow.Admits])
  | owing _ _ done => exact (done.row_nil _ laid).marks (by simp [Follow.Admits])

end Builder

namespace Query

variable {r : Renderer} {stmt : Statement}

def names : Query → List SimpleName
  | expr e => e.names
  | condition c => c.names
  | select s => s.names

theorem inLine_of_isFoldedName {s : Text} (folded : isFoldedName s = true) : '\n' ∉ s := by
  intro lineEnd
  cases s with
  | nil => cases lineEnd
  | cons c s =>
    simp only [isFoldedName, isPlainName, Bool.and_eq_true] at folded
    obtain ⟨⟨start, rest⟩, -⟩ := folded
    rcases List.mem_cons.mp lineEnd with rfl | later
    · exact absurd start (by decide)
    · exact absurd (List.all_eq_true.mp rest _ later) (by decide)

theorem namesInLine_of_quoted {ns : List SimpleName}
    (quoted : ∀ s printable, .quoted s printable ∈ ns → '\n' ∉ s) : NamesInLine ns := by
  intro n mem
  cases n with
  | unquoted s folded => exact inLine_of_isFoldedName folded
  | quoted s printable => exact quoted s printable mem

theorem closed_render (defaults : r.HasDefaultTemplates)
    (question : r.config.placeholder = .question) (q : Query) (names : NamesInLine q.names)
    (h : q.render r = .ok stmt) : ∃ b : Builder, b.Closed ∧ stmt = b.finish := by
  have inScope : (Scope.outermost r).InLine := fun _ none => absurd none List.not_mem_nil
  have templates : (Scope.outermost r).renderer.HasDefaultTemplates := defaults
  have fresh : (Builder.empty r.config.placeholder).Open := by
    rw [question]
    exact Builder.open_empty
  cases q with
  | expr e =>
    obtain ⟨b, written, last⟩ := Except.bind_eq_ok_iff.mp h
    have closed := Expr.write_closed templates inScope e names fresh written
    exact ⟨b, closed, (Except.ok.inj last).symm⟩
  | condition c =>
    obtain ⟨b, written, last⟩ := Except.bind_eq_ok_iff.mp h
    have closed := Condition.write_closed templates inScope c names fresh written
    exact ⟨b, closed, (Except.ok.inj last).symm⟩
  | select s =>
    obtain ⟨b, written, last⟩ := Except.bind_eq_ok_iff.mp h
    have isOpen := Select.write_open s templates inScope names fresh written
    exact ⟨b, .opened isOpen, (Except.ok.inj last).symm⟩

theorem rowMarks_render (q : Query) (h : q.render r = .ok stmt) :
    rowMarks stmt.code = stmt.placeholderCount := by
  obtain ⟨b, held, rfl⟩ := holds_render (PrintOrder.fits_ofRenderer r) q h
  have markers : markerPositions b.finish.code = List.range' 1 _ := held.markers
  rw [rowMarks, markers, List.length_range', held.placeholderCount]

/-- With the default templates and question marks, a statement of a query without line ends in
its quoted names splits into tokens under every limit that is large enough, and its placeholders
are found again among them. -/
theorem tokenize_sql (defaults : r.HasDefaultTemplates)
    (question : r.config.placeholder = .question) (q : Query)
    (quoted : ∀ s printable, .quoted s printable ∈ q.names → '\n' ∉ s)
    (h : q.render r = .ok stmt) :
    ∃ ts : List Token, (∀ limit, ts.length ≤ limit → tokenize limit stmt.sql = .ok ts) ∧
      placeholderTokens ts = stmt.placeholderCount := by
  have count := rowMarks_render q h
  obtain ⟨b, closed, rfl⟩ := closed_render defaults question q (namesInLine_of_quoted quoted) h
  obtain ⟨o, lexes, marks⟩ := closed.marks
  have sql : b.finish.sql = codeText .question b.cells.toList := by
    rw [Statement.sql, Builder.finish, closed.page.style]
  obtain ⟨ts, shapes, found⟩ := lexes.tokenize
  refine ⟨ts, fun limit enough => ?_, ?_⟩
  · rw [sql]
    exact found limit enough
  · rw [placeholderTokens_eq_markCount, shapes, marks]
    exact count

def commentSample : Query :=
  let noted : RawSql :=
    { body := .ofNormal "a > ? -- or ?" (scan "a > ? -- or ?").tokens
      binds := [.unvalued ⟨"A", rfl⟩ .int]
      isRead := ⟨5, "a > ? -- or ?", by decide +kernel⟩
      isBound := by decide +kernel }
  let column := Expr.column ⟨none, .quoted "b--?" (by decide), .text⟩
  .condition (.and [.raw noted, .compare column .equal (.literal (.text "it's\n?"))])

theorem sql_commentSample :
    (commentSample.render .defaults).map (fun stmt => (stmt.sql, stmt.placeholderCount)) =
      .ok ("(a > ? -- or ?\n AND \"b--?\" = 'it''s'||CHR(10)||'?')", 1) := by
  decide +kernel

theorem tokenize_sql_sample : ∃ ts : List Token,
    (∀ limit, ts.length ≤ limit →
      tokenize limit "(a > ? -- or ?\n AND \"b--?\" = 'it''s'||CHR(10)||'?')" = .ok ts) ∧
    placeholderTokens ts = 1 := by
  have rendered := sql_commentSample
  cases known : commentSample.render .defaults with
  | error e =>
    rw [known] at rendered
    cases rendered
  | ok stmt =>
    rw [known] at rendered
    obtain ⟨sql, count⟩ := Prod.mk.inj (Except.ok.inj rendered)
    have quoted : ∀ s printable, .quoted s printable ∈ commentSample.names → '\n' ∉ s := by
      intro s printable mem
      obtain rfl := (SimpleName.quoted.inj (List.mem_singleton.mp mem))
      decide
    have found := tokenize_sql ⟨fun _ => rfl, fun _ => rfl⟩ rfl commentSample quoted known
    rwa [sql, count] at found

end Query

end SqlCompose
