import SqlCompose.Proofs.Placeholders
import SqlCompose.Proofs.Success.Writers

/-! When rendering succeeds. With the default templates, a query can be rendered exactly if its
literals have handlers that encode them, its fragments are not too long and its bind variables
agree, where nothing counts that stands in a condition that always holds. A call that has been
checked never lacks an argument. -/

namespace SqlCompose

open BindVariable Writer

mutual

def Expr.components : Expr → List Component
  | .literal v => [.literal v]
  | .column _ => []
  | .bind _ => []
  | .call f args type => .call f args type :: Expr.componentsOfAll args
  | .raw sql _ => [.fragment sql]

def Expr.componentsOfAll : List Expr → List Component
  | [] => []
  | e :: es => e.components ++ Expr.componentsOfAll es

end

namespace Condition

def Piece.components : Piece → List Component
  | .compare left _ right => left.components ++ right.components
  | .isNull expr _ => expr.components
  | .raw sql => [.fragment sql]
  | .always | .never | .and | .or | .not | .opening | .closing => []

/-- The components that are written: a condition that always holds has none. -/
def components (c : Condition) : List Component :=
  c.gather Piece.components

end Condition

mutual

def Source.components : Source → List Component
  | .table _ _ => []
  | .subselect select _ => select.components
  | .raw sql _ => [.fragment sql]

def Source.componentsOfAll : List Source → List Component
  | [] => []
  | s :: rest => s.components ++ Source.componentsOfAll rest

def Select.components : Select → List Component
  | ⟨columns, sources, condition⟩ =>
    (columns.flatMap fun c => c.expr.components) ++ Source.componentsOfAll sources
      ++ condition.components

end

def Query.components : Query → List Component
  | .expr e => e.components
  | .condition c => c.components
  | .select s => s.components

variable {r : Renderer} {scope : Scope} {ps ps' : List Component} {ws : List BindVariable}
  {rows : List (List BindVariable)}

theorem renders_literal (v : Value) :
    Writer.Renders r (fun b => do .ok (b.append (← r.registry.literal v))) [.literal v] [] := by
  have read : Yields r (r.registry.literal v) (fun _ => True) [.literal v] True := by
    refine ⟨fun _ => trivial, ?_, Registry.isEmptySlot_literal⟩
    simp only [Registry.literal, Except.bind_eq_ok_iff, List.forall_mem_singleton,
      Component.IsWritable, and_true]
    rw [exists_comm]
    simp only [exists_and_left]
  intro b vs h
  rw [List.append_nil]
  have written : ∀ s : Text, True → Builds r (.ok (b.append s)) [] vs := fun s _ =>
    builds_ok (h.of_binding (b.binding_append s))
  exact Yields.bind read written fun _ => trivial

theorem RawPart.renders_writeAll (binds : List BindVariable) (parts : List RawPart) :
    Writer.Renders r (fun b => (RawPart.writeAll binds b parts).toExcept) []
      ((parts.filterMap RawPart.bindIndex?).filterMap fun i => binds[i]?) := by
  induction parts with
  | nil => exact renders_text fun _ => rfl
  | cons part parts ih =>
    cases part with
    | text s => exact ih.behind fun b => b.binding_append s
    | literal s => exact ih.behind fun b => b.binding_appendKept s
    | bind i =>
      cases known : binds[i]? with
      | none => simpa [writeAll, bindIndex?, known] using ih
      | some v =>
        have step : ∀ b : Builder, (RawPart.writeAll binds b (.bind i :: parts)).toExcept =
            (b.appendBind v).toExcept >>= fun c => (RawPart.writeAll binds c parts).toExcept := by
          intro b
          simp only [RawPart.writeAll, known]
          generalize b.appendBind v = x
          obtain ⟨c, result⟩ := x
          cases result <;> rfl
        have whole := (renders_appendBind (r := r) v).bind ih
        simp only [step]
        simpa [bindIndex?, known] using whole

theorem Builder.toExcept_wrapped (b : Builder) (extra : Nat) (f : Builder → Attempt) :
    (b.wrapped extra f).toExcept =
      (f (b.pushIndent (wrapLead extra))).toExcept >>= fun c => .ok c.popIndent := by
  simp only [wrapped]
  generalize f (b.pushIndent (wrapLead extra)) = x
  obtain ⟨c, result⟩ := x
  cases result <;> rfl

theorem RawSql.renders_write (raw : RawSql) :
    Writer.Renders scope.renderer (fun b => raw.write scope b) [.fragment raw] raw.binds := by
  intro b vs h
  simp only [RawSql.write]
  split
  · next long =>
    refine ⟨by rintro _ ⟨⟩, ?_, by rintro _ ⟨⟩; rfl⟩
    constructor
    · rintro ⟨_, ⟨⟩⟩
    · rintro ⟨fits, -⟩
      exact absurd (fits (.fragment raw) (by simp)) (Nat.not_le.mpr long)
  · next short =>
    have writable : (∀ p ∈ [Component.fragment raw], p.IsWritable scope.renderer) ↔
        ∀ p ∈ [], Component.IsWritable scope.renderer p := by
      simpa [Component.IsWritable] using Nat.not_lt.mp short
    refine Yields.of_writable ?_ writable
    have parts := RawPart.renders_writeAll (r := scope.renderer) raw.binds raw.body.parts
    rw [raw.filterMap_binds] at parts
    have inside := (parts.behind fun b => b.binding_pushIndent (Builder.wrapLead 0)).andThen
      Builder.binding_popIndent
    have whole := inside.andThen (f := fun c =>
      if raw.body.endsInLineComment then c.breakBeforeNext else c) fun c => by split <;> simp
    simp only [Builder.toExcept_wrapped]
    exact whole b vs h

theorem compatible_of_holds {bs : List Builder} (held : List.Forall₂ Builder.Holds bs rows) :
    ∀ row ∈ rows, row.Pairwise Compatible := by
  induction held with
  | nil => simp
  | cons one _ ih => exact List.forall_mem_cons.mpr ⟨one.compatible, ih⟩

theorem BuildsEach.cons {x : Except SqlError Builder} {y : Except SqlError (List Builder)}
    (one : Builds r x ps ws) (rest : BuildsEach r y ps' rows) :
    BuildsEach r (x >>= fun b => y >>= fun bs => .ok (b :: bs)) (ps ++ ps') (ws :: rows) := by
  have both : ∀ b : Builder, b.Holds ws →
      BuildsEach r (y >>= fun bs => .ok (b :: bs)) (ps' ++ []) (ws :: rows) := by
    intro b held
    refine Yields.bind rest (fun bs others => ?_) fun agree => (List.forall_mem_cons.mp agree).2
    exact .ok (.cons held others) (compatible_of_holds (.cons held others))
  rw [List.append_nil] at both
  exact Yields.bind one both fun agree => (List.forall_mem_cons.mp agree).1

theorem BuildsEach.apply {x : Except SqlError (List Builder)} {w : List Builder → Writer}
    (each : BuildsEach r x ps rows)
    (next : ∀ bs, List.Forall₂ Builder.Holds bs rows → (w bs).Renders r [] ws)
    (parts : ∀ row ∈ rows, row.Sublist ws) {b : Builder} {vs : List BindVariable}
    (h : b.Holds vs) : Builds r (x >>= fun bs => w bs b) ps (vs ++ ws) := by
  have both := Yields.bind each (fun bs held => next bs held b vs h) fun agree row mem =>
    (List.pairwise_append.mp agree).2.1.sublist (parts row mem)
  rwa [List.append_nil] at both

theorem Expr.takes_of_apply {f : BuiltIn} {args : List Expr} {e : Expr}
    (made : Expr.apply f args = .ok e) : f.spec.takes args.length = true := by
  obtain ⟨type, checked, -⟩ := Except.bind_eq_ok_iff.mp made
  simp only [BuiltIn.resultType, List.length_map] at checked
  split at checked
  · cases checked
  · next takes => simpa using takes

theorem Expr.length_usesOfEach (o : PrintOrder) (args : List Expr) :
    (Expr.usesOfEach o args).length = args.length := by
  induction args with
  | nil => rfl
  | cons arg args ih => exact congrArg Nat.succ ih

mutual

theorem Expr.renders_write (defaults : scope.renderer.HasDefaultTemplates) (e : Expr)
    (made : ∀ p ∈ e.components, p.IsMade) :
    Writer.Renders scope.renderer (fun b => e.write scope b) e.components
      (e.uses .defaults) := by
  cases e with
  | literal v => exact renders_literal v
  | column c =>
    refine renders_text fun b => ?_
    unfold ColumnRef.write
    split <;> simp
  | bind v => exact renders_appendBind v
  | call f args type =>
    obtain ⟨own, inner⟩ := List.forall_mem_cons.mp made
    have takes := Expr.takes_of_apply own
    intro b vs h
    have each := Expr.renders_writeArgs defaults args inner f.spec.isOperator b.style
    have takes' : f.spec.takes (Expr.usesOfEach .defaults args).length = true := by
      rwa [Expr.length_usesOfEach]
    have parts : ∀ row ∈ Expr.usesOfEach .defaults args,
        row.Sublist (f.printed (Expr.usesOfEach .defaults args)).flatten := fun row mem =>
      List.sublist_flatten_of_mem ((BuiltIn.printed_perm takes').mem_iff.mpr mem)
    have writable : (∀ p ∈ (Expr.call f args type).components, p.IsWritable scope.renderer) ↔
        ∀ p ∈ Expr.componentsOfAll args, p.IsWritable scope.renderer := by
      simp [Expr.components, Component.IsWritable]
    refine Yields.of_writable ?_ writable
    simp only [Expr.write, defaults.call]
    exact each.apply (fun bs held => BuiltIn.renders_apply (held.length_eq ▸ takes') held) parts h
  | raw sql type => exact RawSql.renders_write sql

theorem Expr.renders_writeArgs (defaults : scope.renderer.HasDefaultTemplates)
    (args : List Expr) (made : ∀ p ∈ Expr.componentsOfAll args, p.IsMade) (isOperator : Bool)
    (style : PlaceholderStyle) :
    BuildsEach scope.renderer (Expr.writeArgs scope isOperator style args)
      (Expr.componentsOfAll args) (Expr.usesOfEach .defaults args) := by
  cases args with
  | nil => exact .ok .nil (by simp [Expr.usesOfEach])
  | cons arg rest =>
    obtain ⟨own, others⟩ := List.forall_mem_append.mp made
    have one := Expr.renders_write defaults arg own
    have later := Expr.renders_writeArgs defaults rest others isOperator style
    have empty := Builder.holds_empty style
    rw [Expr.writeArgs]
    split
    · have opened := (one.behind fun b => b.binding_append ['(']).andThen fun b =>
        b.binding_append [')']
      have whole := BuildsEach.cons (opened _ _ empty) later
      rw [bind_assoc] at whole
      exact whole
    · exact BuildsEach.cons (one _ _ empty) later

end

namespace Condition

theorem Piece.components_of_not_isTest (p : Piece) (other : p.isTest = false) :
    p.components = [] := by
  cases p with
  | compare | isNull | raw => cases other
  | _ => rfl

theorem Piece.renders_write (defaults : scope.renderer.HasDefaultTemplates) (p : Piece)
    (made : ∀ q ∈ p.components, q.IsMade) :
    Writer.Renders scope.renderer (fun b => p.write scope b) p.components (p.uses .defaults) := by
  cases p with
  | compare left op right =>
    intro b vs h
    have both : Expr.componentsOfAll [left, right] = (Piece.compare left op right).components := by
      simp [Expr.componentsOfAll, Piece.components]
    have each := Expr.renders_writeArgs defaults [left, right] (both ▸ made) false b.style
    rw [both] at each
    have parts : ∀ row ∈ Expr.usesOfEach .defaults [left, right],
        row.Sublist (Expr.usesOfEach .defaults [left, right]).flatten := fun row mem =>
      List.sublist_flatten_of_mem mem
    simp only [Piece.write, defaults.compare]
    refine each.apply (fun bs held => ?_) parts h
    have two : bs.length = 2 := held.length_eq
    exact Template.renders_apply_infix op.slots_template held (by omega)
  | isNull expr negated =>
    exact (Expr.renders_write defaults expr made).andThen fun b => b.binding_append _
  | raw sql => exact RawSql.renders_write sql
  | always | never | and | or | not | opening | closing =>
    exact renders_text fun b => b.binding_append _

theorem Piece.renders_writeAll (defaults : scope.renderer.HasDefaultTemplates) (row : List Piece)
    (made : ∀ q ∈ row.flatMap Piece.components, q.IsMade) :
    Writer.Renders scope.renderer (fun b => Piece.writeAll scope b row)
      (row.flatMap Piece.components) (row.flatMap (Piece.uses .defaults)) := by
  induction row with
  | nil => exact renders_text fun _ => rfl
  | cons p row ih =>
    rw [List.flatMap_cons, List.flatMap_cons]
    obtain ⟨own, others⟩ := List.forall_mem_append.mp made
    exact (Piece.renders_write defaults p own).bind (ih others)

theorem renders_write (defaults : scope.renderer.HasDefaultTemplates) (c : Condition)
    (made : ∀ q ∈ c.components, q.IsMade) :
    Writer.Renders scope.renderer (fun b => c.write scope b) c.components (c.uses .defaults) := by
  have found : c.pieces.flatMap Piece.components = c.components :=
    flatMap_pieces Piece.components_of_not_isTest c
  have row := Piece.renders_writeAll defaults c.pieces (found ▸ made)
  rw [found, uses_pieces] at row
  exact row

theorem flatMap_items {α : Type} (f : Piece → List α) (c : Condition) :
    c.items.flatMap (gather f) = c.gather f := by
  have inLive : ∀ cs : List Condition, (live cs).flatMap (gather f) = gatherAll f cs := by
    intro cs
    induction cs with
    | nil => rfl
    | cons c cs ih =>
      rw [gatherAll, ← ih]
      by_cases empty : c.isEmpty = true
      · simp [live, empty, gather_of_isEmpty f c empty]
      · simp [live, empty]
  have single : ∀ c : Condition, (live [c]).flatMap (gather f) = c.gather f := by
    intro c
    rw [inLive, gatherAll, gatherAll, List.append_nil]
  cases c with
  | and cs => exact inLive cs
  | _ => exact single _

end Condition

inductive RendersEach (r : Renderer) : List Writer → List Component → List BindVariable → Prop
  | nil : RendersEach r [] [] []
  | cons {w : Writer} {items : List Writer} {ps ps' : List Component} {ws ws' : List BindVariable}
    (one : w.Renders r ps ws) (rest : RendersEach r items ps' ws') :
    RendersEach r (w :: items) (ps ++ ps') (ws ++ ws')

section Clause

variable {lead rest keyword : Text} {item : Writer} {items : List Writer}

theorem Writer.Renders.writeItem (h : item.Renders r ps ws) :
    (writeItem lead rest item).Renders r ps ws :=
  (h.behind fun b => b.binding_pushIndent _).andThen fun b => by simp

theorem RendersEach.writeItems (each : RendersEach r items ps ws) :
    Writer.Renders r (fun b => writeItems lead rest b items) ps ws := by
  induction each with
  | nil => exact renders_text fun _ => rfl
  | cons one _ ih => exact one.writeItem.bind ih

theorem RendersEach.writeClause (each : RendersEach r items ps ws) :
    (writeClause scope keyword lead items).Renders r ps ws := by
  have headed : ∀ b : Builder, (b.append keyword).endLine.binding = b.binding := by simp
  cases each with
  | nil => exact renders_text headed
  | cons one others => exact (one.writeItem.bind others.writeItems).behind headed

theorem RendersEach.fromItems (each : RendersEach r items ps ws) :
    RendersEach r (fromItems items) ps ws := by
  cases each with
  | nil => exact .cons (renders_text fun b => b.binding_append dualText) .nil
  | cons one others => exact .cons one others

theorem rendersEach_map {α : Type} {f : α → Writer} {g : α → List Component}
    {g' : α → List BindVariable} {xs : List α} (each : ∀ x ∈ xs, (f x).Renders r (g x) (g' x)) :
    RendersEach r (xs.map f) (xs.flatMap g) (xs.flatMap g') := by
  induction xs with
  | nil => exact .nil
  | cons x xs ih =>
    obtain ⟨own, others⟩ := List.forall_mem_cons.mp each
    exact .cons own (ih others)

end Clause

theorem SelectColumn.renders_write (defaults : scope.renderer.HasDefaultTemplates)
    (c : SelectColumn) (made : ∀ p ∈ c.expr.components, p.IsMade) :
    (c.write scope).Renders scope.renderer c.expr.components (c.expr.uses .defaults) :=
  (Expr.renders_write defaults c.expr made).andThen fun b => binding_writeAlias b c.aliasName

theorem renders_where (defaults : scope.renderer.HasDefaultTemplates) (c : Condition)
    (made : ∀ p ∈ c.components, p.IsMade) :
    Writer.Renders scope.renderer (fun b =>
        match c.items with
        | [] => .ok b
        | items => writeClause scope "WHERE" (andLead scope.renderer.config)
          (items.map fun item => item.write scope) b)
      c.components (c.items.flatMap fun item => item.uses .defaults) := by
  have found : c.items.flatMap Condition.components = c.components :=
    Condition.flatMap_items Condition.Piece.components c
  rw [← found] at made ⊢
  generalize c.items = items at made
  have each : ∀ item ∈ items, Writer.Renders scope.renderer (fun b => item.write scope b)
      item.components (item.uses .defaults) := fun item mem =>
    item.renders_write defaults fun p inside => made p (List.mem_flatMap.mpr ⟨item, mem, inside⟩)
  cases items with
  | nil => exact renders_text fun _ => rfl
  | cons item items => exact (rendersEach_map each).writeClause

mutual

theorem Source.renders_write (s : Source) {scope : Scope}
    (defaults : scope.renderer.HasDefaultTemplates) (made : ∀ p ∈ s.components, p.IsMade) :
    Writer.Renders scope.renderer (fun b => s.write scope b) s.components (s.uses .defaults) := by
  cases s with
  | table name aliasName =>
    exact renders_text fun b => by rw [binding_writeAlias, Builder.binding_appendName]
  | subselect select aliasName =>
    intro b vs h
    have own := Select.renders_write select defaults made _ _ (Builder.holds_empty b.style)
    have opened := h.of_binding (show Builder.binding
      (Builder.pushIndent (b.append ['(']).endLine (.spaces scope.renderer.config.indent)) =
        b.binding by simp)
    have close : Writer.Renders scope.renderer
        (fun c => .ok (writeAlias (c.popIndent.append [')']) (some aliasName))) [] [] :=
      renders_text fun c => by simp [binding_writeAlias]
    have whole := (Builds.embed own opened).bind close
    rw [bind_assoc, List.append_nil, List.append_nil] at whole
    exact whole
  | raw sql aliasName =>
    exact (RawSql.renders_write sql).andThen fun b => binding_writeAlias b aliasName

theorem Source.renders_writers (ss : List Source) {scope : Scope}
    (defaults : scope.renderer.HasDefaultTemplates)
    (made : ∀ p ∈ Source.componentsOfAll ss, p.IsMade) :
    RendersEach scope.renderer (Source.writers scope ss) (Source.componentsOfAll ss)
      (Source.usesOfAll .defaults ss) := by
  cases ss with
  | nil => exact .nil
  | cons s ss =>
    obtain ⟨own, others⟩ := List.forall_mem_append.mp made
    exact .cons (Source.renders_write s defaults own) (Source.renders_writers ss defaults others)

theorem Select.renders_write (s : Select) {scope : Scope}
    (defaults : scope.renderer.HasDefaultTemplates) (made : ∀ p ∈ s.components, p.IsMade) :
    Writer.Renders scope.renderer (fun b => s.write scope b) s.components (s.uses .defaults) := by
  obtain ⟨columns, sources, condition⟩ := s
  obtain ⟨selected, tests⟩ := List.forall_mem_append.mp made
  obtain ⟨items, read⟩ := List.forall_mem_append.mp selected
  have inside : (scope.enter sources).renderer.HasDefaultTemplates := defaults
  have each : ∀ c ∈ columns, (c.write (scope.enter sources)).Renders scope.renderer
      c.expr.components (c.expr.uses .defaults) := fun c mem =>
    c.renders_write inside fun p own => items p (List.mem_flatMap.mpr ⟨c, mem, own⟩)
  have selects : (writeClause scope "SELECT" (commaLead scope.renderer.config)
      (columns.map fun c => c.write (scope.enter sources))).Renders scope.renderer
      (columns.flatMap fun c => c.expr.components)
      (columns.flatMap fun c => c.expr.uses .defaults) := (rendersEach_map each).writeClause
  have reads : (writeClause scope "FROM" (commaLead scope.renderer.config)
      (fromItems (Source.writers (scope.enter sources) sources))).Renders scope.renderer
      (Source.componentsOfAll sources) (Source.usesOfAll .defaults sources) :=
    (Source.renders_writers sources inside read).fromItems.writeClause
  have whole := (selects.bind reads).bind (renders_where inside condition tests)
  simp only [bind_assoc] at whole
  exact whole

end

theorem Renderer.yields_statement (write : Scope → Writer)
    (h : (write (.outermost r)).Renders r ps ws) :
    Yields r (r.statement write) (fun _ => True) ps (ws.Pairwise Compatible) := by
  have own : Builds r _ ps ws := h _ _ (Builder.holds_empty r.config.placeholder)
  have finished : ∀ b : Builder, b.Holds ws →
      Yields r (.ok b.finish) (fun _ => True) [] (ws.Pairwise Compatible) := fun _ held =>
    .ok trivial held.compatible
  have whole := Yields.bind own finished id
  rwa [List.append_nil] at whole

namespace Query

theorem yields_render (defaults : r.HasDefaultTemplates) (q : Query)
    (made : ∀ p ∈ q.components, p.IsMade) :
    Yields r (q.render r) (fun _ => True) q.components
      ((q.uses .defaults).Pairwise Compatible) := by
  have outermost : (Scope.outermost r).renderer.HasDefaultTemplates := defaults
  cases q with
  | expr e =>
    exact r.yields_statement (fun scope b => e.write scope b) (e.renders_write outermost made)
  | condition c =>
    exact r.yields_statement (fun scope b => c.write scope b) (c.renders_write outermost made)
  | select s =>
    exact r.yields_statement (fun scope b => s.write scope b) (s.renders_write outermost made)

/-- With the default templates, a query can be rendered exactly if each of its literals has a
handler that encodes it, none of its fragments is too long, and any two references to one bind
variable agree, which is when they can be merged in whatever order (`Ledger.exists_ofUses_iff`).
No slot of a template lacks an argument in any case. Only what is written counts: what stands in a
condition that always holds may be anything. -/
theorem exists_render_iff (defaults : r.HasDefaultTemplates) (q : Query)
    (made : ∀ p ∈ q.components, p.IsMade) :
    ((∃ stmt, q.render r = .ok stmt) ↔
      (∀ p ∈ q.components, p.IsWritable r) ∧ (q.uses .defaults).Pairwise Compatible) ∧
    ∀ name n, q.render r ≠ .error (.misuse name (.emptySlot n)) := by
  have whole := yields_render defaults q made
  refine ⟨whole.succeeds, fun name n failed => ?_⟩
  have filled : SqlError.isEmptySlot (.misuse name (.emptySlot n)) = false := whole.filled failed
  cases filled

def instrSample : RawSql :=
  { body := .ofNormal "INSTR(t, ?) = 1" (scan "INSTR(t, ?) = 1").tokens
    binds := [.unvalued ⟨"K", by decide⟩ .any]
    isRead := ⟨9, "INSTR(t, ?) = 1", by decide +kernel⟩
    isBound := by decide +kernel }

/-- `SELECT COALESCE(:K, 'it''s') FROM (SELECT t FROM dual WHERE INSTR(t, :K) = 1) s` with a
condition, where `K` is a text. -/
def selectSample (c : Condition) : Query :=
  let k := Expr.bind (.unvalued ⟨"K", by decide⟩ .text)
  let t := Expr.column ⟨none, .unquoted "t" (by decide), .text⟩
  .select ⟨[⟨.call .coalesce [k, .literal (.text "it's")] .text, none⟩],
    [.subselect ⟨[⟨t, none⟩], [], .raw instrSample⟩ (.unquoted "s" (by decide))], c⟩

def numberSample : Expr :=
  .bind (.unvalued ⟨"K", by decide⟩ .int)

/-- A variable may have another type in an equation that always holds, but not in a test that is
written. -/
theorem exists_render_iff_sample :
    (∃ stmt, (selectSample (.compare numberSample .equal numberSample)).render .defaults =
      .ok stmt) ∧
    ¬∃ stmt, (selectSample (.isNull numberSample false)).render .defaults = .ok stmt := by
  have defaults : Renderer.defaults.HasDefaultTemplates := ⟨fun _ => rfl, fun _ => rfl⟩
  have made : ∀ c, c.components = [] → ∀ p ∈ (selectSample c).components, p.IsMade := by
    intro c none p mem
    simp only [selectSample, components, Select.components, none] at mem
    rcases mem with _ | ⟨_, _ | ⟨_, _ | ⟨_, ⟨⟩⟩⟩⟩
    exacts [rfl, trivial, trivial]
  have short : instrSample.body.tokenCount ≤ Renderer.defaults.config.maxTokens := by
    decide +kernel
  constructor
  · refine (exists_render_iff defaults (selectSample _) (made _ rfl)).1.mpr ⟨?_, by decide⟩
    rintro p (_ | ⟨_, _ | ⟨_, _ | ⟨_, ⟨⟩⟩⟩⟩)
    · trivial
    · exact ⟨_, rfl, _, rfl⟩
    · exact short
  · rw [(exists_render_iff defaults (selectSample _) (made _ rfl)).1]
    exact fun both => absurd both.2 (by decide)

end Query

end SqlCompose
