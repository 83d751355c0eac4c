import SqlCompose.Proofs.Lexing.Literals
import SqlCompose.Proofs.Pages.Fragments

/-! Expressions and conditions on a page. Whatever is written on an open builder closes it: names,
literals and placeholders by themselves, a call because its template alternates between
arguments and texts that open the builder again. -/

namespace SqlCompose

def NamesInLine (ns : List SimpleName) : Prop :=
  ∀ n ∈ ns, '\n' ∉ n.text

theorem namesInLine_append {ns ms : List SimpleName} :
    NamesInLine (ns ++ ms) ↔ NamesInLine ns ∧ NamesInLine ms :=
  List.forall_mem_append

def ColumnRef.names (c : ColumnRef) : List SimpleName :=
  (c.table.map NamePath.segments).getD [] ++ [c.column]

def Scope.InLine (scope : Scope) : Prop :=
  ∀ s ∈ scope.sources.flatten, ∀ q ∈ s.qualifier, NamesInLine q.segments

theorem Text.joinWith_concat {sep last : Text} {ss : List Text} (some : ss ≠ []) :
    Text.joinWith sep (ss ++ [last]) = Text.joinWith sep ss ++ sep ++ last := by
  induction ss with
  | nil => exact absurd rfl some
  | cons s ss ih =>
    cases ss with
    | nil => simp [Text.joinWith]
    | cons next ss =>
      have rest := ih (by simp)
      simp only [List.cons_append] at rest
      simp [Text.joinWith, rest]

theorem NamePath.isWord_sql {p : NamePath} (names : NamesInLine p.segments) : IsWord p.sql :=
  isWord_joinWith_dot names

theorem Scope.inLine_qualifierFor {scope : Scope} {c : ColumnRef} {q : NamePath}
    (inScope : scope.InLine) (names : NamesInLine c.names) (h : scope.qualifierFor c = some q) :
    NamesInLine q.segments := by
  rw [qualifierFor] at h
  split at h
  · split at h
    · next only rest known =>
      refine inScope only ?_ q h
      rw [known]
      simp
    · cases h
  · next written table =>
    have own : NamesInLine written.segments := by
      rw [ColumnRef.names, table] at names
      exact (namesInLine_append.mp names).1
    obtain rfl := Option.some.inj h
    cases found : (scope.resolve? written).bind Source.qualifier with
    | none => exact own
    | some q =>
      obtain ⟨s, resolved, qualified⟩ := Option.bind_eq_some_iff.mp found
      exact inScope s (List.mem_of_find?_eq_some resolved) q qualified

namespace Builder

variable {b b' : Builder} {scope : Scope}

theorem appendName_append (b : Builder) (s t : Text) :
    (b.appendName s).append t = b.appendName (s ++ t) :=
  append_append _ s t

theorem Open.writeColumn {c : ColumnRef} (h : b.Open) (inScope : scope.InLine)
    (names : NamesInLine c.names) : (c.write scope b).Closed := by
  have column : NamesInLine [c.column] := (namesInLine_append.mp names).2
  rw [ColumnRef.write]
  split
  · next q qualified =>
    have whole := Scope.inLine_qualifierFor inScope names qualified
    have text : q.sql ++ ['.'] ++ c.column.sql =
        Text.joinWith ['.'] ((q.segments ++ [c.column]).map SimpleName.sql) := by
      have some : q.segments.map SimpleName.sql ≠ [] := by simp [NamePath.segments]
      rw [List.map_append, List.map_singleton, Text.joinWith_concat some]
      rfl
    rw [appendName_append, appendName_append, text]
    exact h.appendName (isWord_joinWith_dot (namesInLine_append.mpr ⟨whole, column⟩))
  · exact h.appendName (isWord_joinWith_dot column)

end Builder

namespace Template

def opens (s : Text) : Bool :=
  !s.contains '\n' && (isSeparator s || s == "||".toList)

/-- Whether texts that open the builder stand between the arguments. -/
def alternates (isOpen : Bool) : List TemplateSlot → Bool
  | [] => true
  | .text s :: ts =>
    if opens s then (isOpen || s.head?.any isSoft) && alternates true ts
    else isOpen && isWording s && !s.contains '\n' && alternates false ts
  | .argument _ :: ts => isOpen && alternates false ts
  | .all :: ts => isOpen && alternates false ts

theorem alternates_layout (f : BuiltIn) : alternates true f.layout = true := by
  cases f <;> decide +kernel

theorem alternates_infix (op : Comparison) : alternates true (infixSlots op.symbolText) = true := by
  cases op <;> decide +kernel

theorem opens_iff {s : Text} :
    opens s = true ↔ '\n' ∉ s ∧ (isSeparator s = true ∨ s = "||".toList) := by
  simp [opens]

theorem continues_of_opens {s : Text} (h : opens s = true) : Continues s 0 .anything := by
  rcases (opens_iff.mp h).2 with separator | rfl
  · exact continues_separator separator
  · exact continues_bars

section Fill

variable {name : Text} {args : List Builder} {b b' : Builder} {ts : List TemplateSlot}

def Ready (isOpen : Bool) (b : Builder) : Prop :=
  if isOpen then b.Open else b.Closed

theorem Ready.closed {isOpen : Bool} (h : Ready isOpen b) : b.Closed := by
  cases isOpen with
  | false => exact h
  | true => exact .opened h

theorem Ready.append_opens {isOpen : Bool} {s : Text} (h : Ready isOpen b)
    (opening : opens s = true) (fits : (isOpen || s.head?.any isSoft) = true) :
    (b.append s).Open := by
  have inLine := (opens_iff.mp opening).1
  have continues := continues_of_opens opening
  cases isOpen with
  | true =>
    have fresh : b.Open := h
    exact (fresh.append inLine continues).isOpen
  | false =>
    cases s with
    | nil => cases fits
    | cons c s =>
      have soft : isSoft c = true := fits
      have closed : b.Closed := h
      exact (closed.append soft inLine continues).isOpen

theorem embedAll_closed {isFirst : Bool} (args : List Builder) (inner : ∀ a ∈ args, a.Closed)
    (h : Ready isFirst b) (g : embedAll isFirst b args = .ok b') : b'.Closed := by
  induction args generalizing isFirst b with
  | nil =>
    obtain rfl := Except.ok.inj g
    exact h.closed
  | cons arg args ih =>
    simp only [embedAll] at g
    obtain ⟨c, embedded, rest⟩ := Except.bind_eq_ok_iff.mp g
    have comma : (if isFirst then b else b.append ", ").Open := by
      cases isFirst with
      | true => exact h
      | false => exact Ready.append_opens h (by decide +kernel) (by decide +kernel)
    have next : Ready false c :=
      comma.embed (inner arg (by simp)) (Attempt.toExcept_eq_ok_iff.mp embedded)
    exact ih (fun a mem => inner a (List.mem_cons_of_mem arg mem)) next rest

theorem fill_closed {isOpen : Bool} (inner : ∀ a ∈ args, a.Closed)
    (fits : alternates isOpen ts = true) (h : Ready isOpen b)
    (g : fill name args b ts = .ok b') : b'.Closed := by
  induction ts generalizing isOpen b with
  | nil =>
    obtain rfl := Except.ok.inj g
    exact h.closed
  | cons slot ts ih =>
    cases slot with
    | text s =>
      rw [alternates] at fits
      split at fits
      · next opening =>
        obtain ⟨soft, rest⟩ := (Bool.and_eq_true _ _).mp fits
        have next : Ready true (b.append s) := h.append_opens opening soft
        exact ih rest next g
      · simp only [Bool.and_eq_true, Bool.not_eq_true', List.contains_eq_mem,
          decide_eq_false_iff_not] at fits
        obtain ⟨⟨⟨rfl, wording⟩, inLine⟩, rest⟩ := fits
        have fresh : b.Open := h
        have next : Ready false (b.append s) :=
          fresh.append_word ⟨inLine, continues_wording wording⟩
        exact ih rest next g
    | argument n =>
      obtain ⟨rfl, rest⟩ := (Bool.and_eq_true _ _).mp fits
      simp only [fill] at g
      split at g
      · cases g
      · next arg found =>
        obtain ⟨c, embedded, g⟩ := Except.bind_eq_ok_iff.mp g
        have fresh : b.Open := h
        have next : Ready false c := fresh.embed (inner arg (List.mem_of_getElem? found))
          (Attempt.toExcept_eq_ok_iff.mp embedded)
        exact ih rest next g
    | all =>
      obtain ⟨rfl, rest⟩ := (Bool.and_eq_true _ _).mp fits
      obtain ⟨c, embedded, g⟩ := Except.bind_eq_ok_iff.mp g
      have next : Ready false c := embedAll_closed args inner h embedded
      exact ih rest next g

theorem foldLeft_closed {rest : List Builder} (inner : ∀ a ∈ rest, a.Closed)
    (fits : alternates true ts = true) (h : b.Closed)
    (g : foldLeft name ts .question b rest = .ok b') : b'.Closed := by
  induction rest generalizing b with
  | nil =>
    obtain rfl := Except.ok.inj g
    exact h
  | cons arg rest ih =>
    obtain ⟨c, filled, g⟩ := Except.bind_eq_ok_iff.mp g
    have pair : ∀ a ∈ [b, arg], a.Closed := by
      simpa using ⟨h, inner arg (by simp)⟩
    have own : Ready true (Builder.empty .question) := Builder.open_empty
    have next := fill_closed pair fits own filled
    exact ih (fun a mem => inner a (List.mem_cons_of_mem arg mem)) next g

theorem apply_closed {template : Text} (inner : ∀ a ∈ args, a.Closed)
    (fits : alternates true (slots template) = true) (h : b.Open)
    (g : apply name template args b = .ok b') : b'.Closed := by
  simp only [apply] at g
  split at g
  · cases args with
    | nil =>
      obtain rfl := Except.ok.inj g
      exact .opened h
    | cons first rest =>
      obtain ⟨c, folded, embedded⟩ := Except.bind_eq_ok_iff.mp g
      rw [h.style] at folded
      have closed := foldLeft_closed (fun a mem => inner a (List.mem_cons_of_mem first mem)) fits
        (inner first (by simp)) folded
      exact h.embed closed (Attempt.toExcept_eq_ok_iff.mp embedded)
  · have ready : Ready true b := h
    exact fill_closed inner fits ready g

end Fill

end Template

mutual

def Expr.names : Expr → List SimpleName
  | .literal _ => []
  | .column c => c.names
  | .bind _ => []
  | .call _ args _ => Expr.namesOfAll args
  | .raw _ _ => []

def Expr.namesOfAll : List Expr → List SimpleName
  | [] => []
  | e :: es => e.names ++ Expr.namesOfAll es

end

section Write

variable {scope : Scope}

mutual

theorem Expr.write_closed (defaults : scope.renderer.HasDefaultTemplates)
    (inScope : scope.InLine) (e : Expr) (names : NamesInLine e.names) {b b' : Builder}
    (h : b.Open) (g : e.write scope b = .ok b') : b'.Closed := by
  cases e with
  | literal v =>
    obtain ⟨text, found, last⟩ := Except.bind_eq_ok_iff.mp g
    obtain rfl := Except.ok.inj last
    exact h.append_word (Registry.isWord_literal found)
  | column c =>
    obtain rfl := Except.ok.inj g
    exact h.writeColumn inScope names
  | bind v => exact h.appendBind_closed (Attempt.toExcept_eq_ok_iff.mp g)
  | call f args type =>
    obtain ⟨rendered, written, applied⟩ := Except.bind_eq_ok_iff.mp g
    rw [h.style] at written
    have inner := Expr.writeArgs_closed defaults inScope args names written
    have fits : Template.alternates true (Template.slots (scope.renderer.template f)) = true := by
      rw [defaults.call, f.slots_spec]
      exact Template.alternates_layout f
    exact Template.apply_closed inner fits h applied
  | raw sql type => exact h.writeRaw g

theorem Expr.writeArgs_closed (defaults : scope.renderer.HasDefaultTemplates)
    (inScope : scope.InLine) (args : List Expr) (names : NamesInLine (Expr.namesOfAll args))
    {isOperator : Bool} {bs : List Builder}
    (g : Expr.writeArgs scope isOperator .question args = .ok bs) : ∀ b ∈ bs, b.Closed := by
  cases args with
  | nil =>
    obtain rfl := Except.ok.inj g
    simp
  | cons arg rest =>
    obtain ⟨first, others, one, all, rfl⟩ := Expr.writeArgs_cons g
    obtain ⟨own, later⟩ := namesInLine_append.mp names
    have fresh := Builder.open_empty
    have closed : first.Closed := by
      rcases one with ⟨c, inside, rfl⟩ | one
      · have opened := fresh.append_separator (s := ['(']) (by decide) (by decide +kernel)
        have filled := Expr.write_closed defaults inScope arg own opened inside
        exact .opened filled.append_closing
      · exact Expr.write_closed defaults inScope arg own fresh one
    have behind := Expr.writeArgs_closed defaults inScope rest later all
    exact List.forall_mem_cons.mpr ⟨closed, behind⟩

end

namespace Condition

mutual

/-- The names that stand in a condition, also where it is not written. -/
def names : Condition → List SimpleName
  | compare left _ right => left.names ++ right.names
  | isNull expr _ => expr.names
  | and cs => namesOfAll cs
  | or cs => namesOfAll cs
  | not c => c.names
  | raw _ => []
  | empty => []

def namesOfAll : List Condition → List SimpleName
  | [] => []
  | c :: cs => c.names ++ namesOfAll cs

end

def Closing (scope : Scope) (ps : List Piece) : Prop :=
  ∀ b b' : Builder, b.Open → Piece.writeAll scope b ps = .ok b' → b'.Closed

theorem writeAll_append {b b' : Builder} {ps qs : List Piece}
    (g : Piece.writeAll scope b (ps ++ qs) = .ok b') :
    ∃ c, Piece.writeAll scope b ps = .ok c ∧ Piece.writeAll scope c qs = .ok b' := by
  rw [Piece.writeAll_append] at g
  exact Except.bind_eq_ok_iff.mp g

theorem closing_single {p : Piece}
    (one : ∀ b b' : Builder, b.Open → p.write scope b = .ok b' → b'.Closed) :
    Closing scope [p] := by
  intro b b' h g
  obtain ⟨c, written, last⟩ := Except.bind_eq_ok_iff.mp g
  obtain rfl := Except.ok.inj last
  exact one b c h written

theorem closing_always : Closing scope [.always] := by
  refine closing_single fun b b' h g => ?_
  obtain rfl := Except.ok.inj g
  exact h.append_word ⟨by decide, continues_wording (by decide +kernel)⟩

theorem closing_never : Closing scope [.never] := by
  refine closing_single fun b b' h g => ?_
  obtain rfl := Except.ok.inj g
  exact h.append_word ⟨by decide, continues_wording (by decide +kernel)⟩

def Joins (scope : Scope) (p : Piece) : Prop :=
  ∀ b b' : Builder, b.Closed → p.write scope b = .ok b' → b'.Open

theorem joins_and : Joins scope .and := by
  intro b b' h g
  obtain rfl := Except.ok.inj g
  exact h.append_separator (by decide) (by decide) (by decide +kernel)

theorem joins_or : Joins scope .or := by
  intro b b' h g
  obtain rfl := Except.ok.inj g
  exact h.append_separator (by decide) (by decide) (by decide +kernel)

theorem Closing.parenthesized {ps : List Piece} (inner : Closing scope ps) :
    Closing scope (.opening :: ps ++ [.closing]) := by
  intro b b' h g
  obtain ⟨c, opened, rest⟩ := Except.bind_eq_ok_iff.mp g
  obtain rfl := Except.ok.inj opened
  obtain ⟨d, written, rest⟩ := writeAll_append rest
  obtain ⟨e, closed, last⟩ := Except.bind_eq_ok_iff.mp rest
  obtain rfl := Except.ok.inj closed
  obtain rfl := Except.ok.inj last
  have fresh := h.append_separator (s := ['(']) (by decide) (by decide +kernel)
  exact .opened (inner _ _ fresh written).append_closing

theorem Closing.negated {ps : List Piece} (inner : Closing scope ps) :
    Closing scope (.not :: ps) := by
  intro b b' h g
  obtain ⟨c, opened, rest⟩ := Except.bind_eq_ok_iff.mp g
  obtain rfl := Except.ok.inj opened
  have fresh : (b.append "NOT ").Open := h.append_separator (by decide) (by decide +kernel)
  exact inner _ _ fresh rest

theorem Closing.joined {joiner : Piece} (joins : Joins scope joiner) {first : List Piece}
    {rows : List (List Piece)} (start : Closing scope first)
    (all : ∀ row ∈ rows, Closing scope row) :
    Closing scope (first ++ rows.flatMap fun row => joiner :: row) := by
  induction rows generalizing first with
  | nil =>
    rw [List.flatMap_nil, List.append_nil]
    exact start
  | cons row rows ih =>
    obtain ⟨own, later⟩ := List.forall_mem_cons.mp all
    have next : Closing scope (first ++ joiner :: row) := by
      intro b b' h g
      obtain ⟨c, front, back⟩ := writeAll_append g
      obtain ⟨d, joined, rest⟩ := Except.bind_eq_ok_iff.mp back
      exact own d b' (joins c d (start b c h front) joined) rest
    have whole := ih next later
    rw [List.append_assoc] at whole
    rw [List.flatMap_cons]
    exact whole

theorem closing_group {joiner : Piece} (joins : Joins scope joiner) {rows : List (List Piece)}
    (all : ∀ row ∈ rows, Closing scope row) : Closing scope (group joiner rows) := by
  match rows with
  | [] => exact closing_never
  | [row] => exact all row (by simp)
  | first :: second :: rest =>
    obtain ⟨own, later⟩ := List.forall_mem_cons.mp all
    exact (Closing.joined joins own later).parenthesized

theorem closing_compare (defaults : scope.renderer.HasDefaultTemplates)
    (inScope : scope.InLine) {left right : Expr} (op : Comparison)
    (names : NamesInLine (left.names ++ right.names)) :
    Closing scope [.compare left op right] := by
  refine closing_single fun b b' h g => ?_
  obtain ⟨args, written, applied⟩ := Except.bind_eq_ok_iff.mp g
  rw [h.style] at written
  have both : NamesInLine (Expr.namesOfAll [left, right]) := by
    simpa [Expr.namesOfAll] using names
  have inner := Expr.writeArgs_closed defaults inScope _ both written
  have fits : Template.alternates true
      (Template.slots (scope.renderer.comparisonTemplate op)) = true := by
    rw [defaults.compare, op.slots_template]
    exact Template.alternates_infix op
  exact Template.apply_closed inner fits h applied

theorem closing_isNull (defaults : scope.renderer.HasDefaultTemplates) (inScope : scope.InLine)
    {expr : Expr} (negated : Bool) (names : NamesInLine expr.names) :
    Closing scope [.isNull expr negated] := by
  refine closing_single fun b b' h g => ?_
  obtain ⟨c, written, last⟩ := Except.bind_eq_ok_iff.mp g
  obtain rfl := Except.ok.inj last
  have closed := Expr.write_closed defaults inScope expr names h written
  cases negated with
  | false =>
    exact (closed.append (by decide) (by decide) (continues_wording (by decide +kernel))).closed
  | true =>
    exact (closed.append (by decide) (by decide) (continues_wording (by decide +kernel))).closed

mutual

theorem closing_pieces (defaults : scope.renderer.HasDefaultTemplates) (inScope : scope.InLine)
    (c : Condition) (names : NamesInLine c.names) : Closing scope c.pieces := by
  cases c with
  | compare left op right =>
    rw [pieces]
    split
    · exact closing_always
    · exact closing_compare defaults inScope op names
  | isNull expr negated => exact closing_isNull defaults inScope negated names
  | and cs =>
    rw [pieces]
    split
    · exact closing_always
    · exact closing_group joins_and (closing_livePieces defaults inScope cs names)
  | or cs =>
    rw [pieces]
    split
    · exact closing_always
    · exact closing_group joins_or (closing_branchPieces defaults inScope cs names)
  | not c =>
    rw [pieces]
    split
    · exact (closing_pieces defaults inScope c names).negated
    · exact (closing_pieces defaults inScope c names).parenthesized.negated
  | raw sql => exact closing_single fun b b' h g => h.writeRaw g
  | empty => exact closing_always

theorem closing_livePieces (defaults : scope.renderer.HasDefaultTemplates)
    (inScope : scope.InLine) (cs : List Condition) (names : NamesInLine (namesOfAll cs)) :
    ∀ row ∈ livePieces cs, Closing scope row := by
  cases cs with
  | nil => simp [livePieces]
  | cons c cs =>
    obtain ⟨own, later⟩ := namesInLine_append.mp names
    have rest := closing_livePieces defaults inScope cs later
    rw [livePieces]
    split
    · exact rest
    · exact List.forall_mem_cons.mpr ⟨closing_pieces defaults inScope c own, rest⟩

theorem closing_branchPieces (defaults : scope.renderer.HasDefaultTemplates)
    (inScope : scope.InLine) (cs : List Condition) (names : NamesInLine (namesOfAll cs)) :
    ∀ row ∈ branchPieces cs, Closing scope row := by
  cases cs with
  | nil => simp [branchPieces]
  | cons c cs =>
    obtain ⟨own, later⟩ := namesInLine_append.mp names
    rw [branchPieces]
    have rest := closing_branchPieces defaults inScope cs later
    exact List.forall_mem_cons.mpr ⟨closing_pieces defaults inScope c own, rest⟩

end

theorem write_closed (defaults : scope.renderer.HasDefaultTemplates) (inScope : scope.InLine)
    (c : Condition) (names : NamesInLine c.names) {b b' : Builder} (h : b.Open)
    (g : c.write scope b = .ok b') : b'.Closed :=
  closing_pieces defaults inScope c names b b' h g

end Condition

end Write

end SqlCompose
