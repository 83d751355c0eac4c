import Mathlib.Data.List.Forall2
import SqlCompose.Proofs.Printing
import SqlCompose.Render.Select

/-! The uses of a query: its bind variables in the order in which their placeholders are written.
They are found by one walk over the tree. Rendering any part of a tree into a builder adds the
uses of that part to those that the builder holds. -/

namespace SqlCompose

/-- The orders in which calls and comparisons print the uses of their arguments. -/
structure PrintOrder where
  call : BuiltIn → List (List BindVariable) → List BindVariable
  compare : Comparison → List (List BindVariable) → List BindVariable

namespace PrintOrder

def defaults : PrintOrder :=
  ⟨fun f uses => (f.printed uses).flatten, fun _ uses => uses.flatten⟩

def ofRenderer (r : Renderer) : PrintOrder :=
  ⟨fun f => Template.printed (r.template f), fun op => Template.printed (r.comparisonTemplate op)⟩

structure Fits (o : PrintOrder) (r : Renderer) : Prop where
  call : ∀ f, Template.Prints (r.template f) (o.call f)
  compare : ∀ op, Template.Prints (r.comparisonTemplate op) (o.compare op)

theorem fits_ofRenderer (r : Renderer) : (ofRenderer r).Fits r :=
  ⟨fun f => Template.prints_printed (r.template f),
    fun op => Template.prints_printed (r.comparisonTemplate op)⟩

end PrintOrder

structure Renderer.HasDefaultTemplates (r : Renderer) : Prop where
  call : ∀ f, r.template f = f.spec.template
  compare : ∀ op, r.comparisonTemplate op = op.template

theorem PrintOrder.fits_defaults {r : Renderer} (h : r.HasDefaultTemplates) :
    PrintOrder.defaults.Fits r := by
  refine ⟨fun f => ?_, fun op => ?_⟩
  · rw [h.call]
    exact f.prints_spec
  · rw [h.compare]
    exact op.prints_template

section Walk

variable (o : PrintOrder)

mutual

def Expr.uses : Expr → List BindVariable
  | .literal _ => []
  | .column _ => []
  | .bind v => [v]
  | .call f args _ => o.call f (Expr.usesOfEach args)
  | .raw sql _ => sql.binds

def Expr.usesOfEach : List Expr → List (List BindVariable)
  | [] => []
  | e :: es => e.uses :: Expr.usesOfEach es

end

mutual

/-- A condition that always holds uses nothing, whatever stands in it. -/
def Condition.uses : Condition → List BindVariable
  | .compare left op right =>
    if (Condition.compare left op right).isEmpty then []
    else o.compare op [left.uses o, right.uses o]
  | .isNull expr _ => expr.uses o
  | .and cs => Condition.usesOfAll cs
  | .or cs => if Condition.anyEmpty cs then [] else Condition.usesOfAll cs
  | .not c => c.uses
  | .raw sql => sql.binds
  | .empty => []

def Condition.usesOfAll : List Condition → List BindVariable
  | [] => []
  | c :: cs => c.uses ++ Condition.usesOfAll cs

end

mutual

def Source.uses : Source → List BindVariable
  | .table _ _ => []
  | .subselect select _ => select.uses
  | .raw sql _ => sql.binds

def Source.usesOfAll : List Source → List BindVariable
  | [] => []
  | s :: rest => s.uses ++ Source.usesOfAll rest

/-- The columns come first, then the sources and the items of the `WHERE` clause. -/
def Select.uses : Select → List BindVariable
  | ⟨columns, sources, condition⟩ =>
    (columns.flatMap fun c => c.expr.uses o) ++ Source.usesOfAll sources
      ++ condition.items.flatMap fun c => c.uses o

end

end Walk

def RawPart.bindIndex? : RawPart → Option Nat
  | .bind i => some i
  | _ => none

theorem RawText.bindIndices_cut (offset index : Nat) (rest : Text) (tokens : List Token) :
    (RawText.cut offset index rest tokens).filterMap RawPart.bindIndex? =
      List.range' index (tokens.filter fun t => t.kind = .placeholder).length := by
  induction tokens generalizing offset index rest with
  | nil =>
    rw [cut]
    split <;> simp [RawPart.bindIndex?]
  | cons t tokens ih =>
    have gap : ∀ s : Text, (if s = [] then [] else [RawPart.text s]).filterMap
        RawPart.bindIndex? = [] := by
      intro s
      split <;> simp [RawPart.bindIndex?]
    simp only [cut]
    split
    · next placeholder =>
      simp [gap, ih, placeholder, RawPart.bindIndex?, List.range'_succ]
    · next other =>
      split
      · rw [List.filterMap_append, gap, List.nil_append, List.filterMap_cons_none rfl, ih]
        simp [other]
      · rw [ih]
        simp [other]

theorem RawText.bindIndices_read {limit : Nat} {sql : Text} {body : RawText}
    (h : RawText.read limit sql = .ok body) :
    body.parts.filterMap RawPart.bindIndex? = List.range' 0 body.placeholders := by
  obtain ⟨tokens, -, h⟩ := Except.bind_eq_ok_iff.mp h
  obtain ⟨normalTokens, -, h⟩ := Except.bind_eq_ok_iff.mp h
  obtain rfl := Except.ok.inj h
  exact bindIndices_cut 0 0 _ normalTokens

theorem filterMap_getElem?_range {α : Type} (xs : List α) :
    (List.range xs.length).filterMap (fun i => xs[i]?) = xs := by
  induction xs with
  | nil => rfl
  | cons x xs ih => simp [List.range_succ_eq_map, List.filterMap_map, ih]

theorem RawSql.filterMap_binds (raw : RawSql) :
    (raw.body.parts.filterMap RawPart.bindIndex?).filterMap (fun i => raw.binds[i]?) =
      raw.binds := by
  obtain ⟨limit, sql, isRead⟩ := raw.isRead
  rw [RawText.bindIndices_read isRead, raw.isBound, ← List.range_eq_range']
  exact filterMap_getElem?_range raw.binds

section Write

variable {scope : Scope} {b b' : Builder} {vs : List BindVariable}

theorem RawPart.holds_writeAll {binds : List BindVariable} {parts : List RawPart}
    (h : b.Holds vs) (g : RawPart.writeAll binds b parts = (b', .ok ())) :
    b'.Holds (vs ++ (parts.filterMap RawPart.bindIndex?).filterMap fun i => binds[i]?) := by
  induction parts generalizing b vs with
  | nil =>
    obtain rfl := (Prod.mk.inj g).1
    simpa using h
  | cons part parts ih =>
    cases part with
    | text s => exact ih (h.of_binding (b.binding_append s)) g
    | literal s => exact ih (h.of_binding (b.binding_appendKept s)) g
    | bind i =>
      simp only [writeAll] at g
      split at g
      · next none =>
        simpa [bindIndex?, none] using ih h g
      · next v some =>
        split at g
        · cases g
        · next c appended =>
          simpa [bindIndex?, some] using ih (h.appendBind appended) g

theorem RawSql.holds_write {raw : RawSql} (h : b.Holds vs) (g : raw.write scope b = .ok b') :
    b'.Holds (vs ++ raw.binds) := by
  simp only [RawSql.write] at g
  split at g
  · cases g
  · obtain ⟨c, wrapped, last⟩ := Except.bind_eq_ok_iff.mp g
    simp only [Builder.wrapped, Attempt.toExcept_eq_ok_iff, Prod.mk.injEq] at wrapped
    obtain ⟨rfl, written⟩ := wrapped
    have inside := RawPart.holds_writeAll (h.of_binding (b.binding_pushIndent _))
      (Prod.ext rfl written)
    rw [raw.filterMap_binds] at inside
    obtain rfl := Except.ok.inj last
    split
    · exact inside.of_binding (by simp)
    · exact inside.of_binding (by simp)

theorem Expr.writeArgs_cons {arg : Expr} {rest : List Expr} {isOperator : Bool}
    {style : PlaceholderStyle} {bs : List Builder}
    (g : Expr.writeArgs scope isOperator style (arg :: rest) = .ok bs) :
    ∃ first others,
      ((∃ c, arg.write scope ((Builder.empty style).append ['(']) = .ok c ∧
          first = c.append [')']) ∨
        arg.write scope (Builder.empty style) = .ok first) ∧
      Expr.writeArgs scope isOperator style rest = .ok others ∧ bs = first :: others := by
  rw [Expr.writeArgs] at g
  split at g
  · obtain ⟨c, inside, g⟩ := Except.bind_eq_ok_iff.mp g
    obtain ⟨first, closed, g⟩ := Except.bind_eq_ok_iff.mp g
    obtain rfl := Except.ok.inj closed
    obtain ⟨others, all, g⟩ := Except.bind_eq_ok_iff.mp g
    exact ⟨_, others, .inl ⟨c, inside, rfl⟩, all, (Except.ok.inj g).symm⟩
  · obtain ⟨first, one, g⟩ := Except.bind_eq_ok_iff.mp g
    obtain ⟨others, all, g⟩ := Except.bind_eq_ok_iff.mp g
    exact ⟨first, others, .inr one, all, (Except.ok.inj g).symm⟩

variable {o : PrintOrder}

mutual

theorem Expr.holds_write (fits : o.Fits scope.renderer) (e : Expr) {b b' : Builder}
    {vs : List BindVariable} (h : b.Holds vs) (g : e.write scope b = .ok b') :
    b'.Holds (vs ++ e.uses o) := by
  cases e with
  | literal v =>
    obtain ⟨text, -, rest⟩ := Except.bind_eq_ok_iff.mp g
    obtain rfl := Except.ok.inj rest
    simpa [uses] using h.of_binding (b.binding_append text)
  | column c =>
    obtain rfl := Except.ok.inj g
    simp only [uses, List.append_nil]
    refine h.of_binding ?_
    unfold ColumnRef.write
    split <;> simp
  | bind v => exact h.appendBind (Attempt.toExcept_eq_ok_iff.mp g)
  | call f args type =>
    obtain ⟨rendered, written, applied⟩ := Except.bind_eq_ok_iff.mp g
    exact fits.call f _ _ _ _ _ _ (Expr.holds_writeArgs fits args written) h applied
  | raw sql type => exact RawSql.holds_write h g

theorem Expr.holds_writeArgs (fits : o.Fits scope.renderer) (args : List Expr)
    {isOperator : Bool} {style : PlaceholderStyle} {bs : List Builder}
    (g : Expr.writeArgs scope isOperator style args = .ok bs) :
    List.Forall₂ Builder.Holds bs (Expr.usesOfEach o args) := by
  cases args with
  | nil =>
    obtain rfl := Except.ok.inj g
    exact .nil
  | cons arg rest =>
    obtain ⟨first, others, one, all, rfl⟩ := Expr.writeArgs_cons g
    refine .cons ?_ (Expr.holds_writeArgs fits rest all)
    have own := Builder.holds_empty style
    rcases one with ⟨c, inside, rfl⟩ | one
    · have opened := own.of_binding (Builder.binding_append _ ['('])
      exact (Expr.holds_write fits arg opened inside).of_binding (Builder.binding_append _ _)
    · exact Expr.holds_write fits arg own one

end

namespace Condition

def Piece.uses (o : PrintOrder) : Piece → List BindVariable
  | .compare left op right => o.compare op [left.uses o, right.uses o]
  | .isNull expr _ => expr.uses o
  | .raw sql => sql.binds
  | .always | .never | .and | .or | .not | .opening | .closing => []

theorem Piece.holds_write (fits : o.Fits scope.renderer) (p : Piece) (h : b.Holds vs)
    (g : p.write scope b = .ok b') : b'.Holds (vs ++ p.uses o) := by
  cases p with
  | compare left op right =>
    obtain ⟨args, written, applied⟩ := Except.bind_eq_ok_iff.mp g
    exact fits.compare op _ _ _ _ _ _ (Expr.holds_writeArgs fits _ written) h applied
  | isNull expr negated =>
    obtain ⟨c, written, last⟩ := Except.bind_eq_ok_iff.mp g
    obtain rfl := Except.ok.inj last
    exact (Expr.holds_write fits expr h written).of_binding (Builder.binding_append _ _)
  | raw sql => exact RawSql.holds_write h g
  | always | never | and | or | not | opening | closing =>
    obtain rfl := Except.ok.inj g
    simpa [uses] using h.of_binding (b.binding_append _)

theorem Piece.holds_writeAll (fits : o.Fits scope.renderer) (ps : List Piece) (h : b.Holds vs)
    (g : Piece.writeAll scope b ps = .ok b') : b'.Holds (vs ++ ps.flatMap (Piece.uses o)) := by
  induction ps generalizing b vs with
  | nil =>
    obtain rfl := Except.ok.inj g
    simpa using h
  | cons p ps ih =>
    obtain ⟨c, written, rest⟩ := Except.bind_eq_ok_iff.mp g
    simpa using ih (Piece.holds_write fits p h written) rest

def Piece.isTest : Piece → Bool
  | .compare .. | .isNull .. | .raw _ => true
  | .always | .never | .and | .or | .not | .opening | .closing => false

section Gather

variable {α : Type} (f : Piece → List α)

mutual

/-- What `f` finds in the tests of a condition, from left to right. What lies in a condition that
always holds does not belong to it. -/
def gather : Condition → List α
  | compare left op right =>
    if (compare left op right).isEmpty then [] else f (.compare left op right)
  | isNull expr negated => f (.isNull expr negated)
  | and cs => gatherAll cs
  | or cs => if anyEmpty cs then [] else gatherAll cs
  | not c => c.gather
  | raw sql => f (.raw sql)
  | empty => []

def gatherAll : List Condition → List α
  | [] => []
  | c :: cs => c.gather ++ gatherAll cs

end

mutual

theorem gather_of_isEmpty (c : Condition) (empty : c.isEmpty = true) : c.gather f = [] := by
  cases c with
  | compare left op right => rw [gather, if_pos empty]
  | and cs => exact gatherAll_of_allEmpty cs empty
  | or cs => rw [gather, if_pos (show anyEmpty cs = true from empty)]
  | empty => rfl
  | isNull | not | raw => cases empty

theorem gatherAll_of_allEmpty (cs : List Condition) (empty : allEmpty cs = true) :
    gatherAll f cs = [] := by
  cases cs with
  | nil => rfl
  | cons c cs =>
    obtain ⟨first, rest⟩ := Bool.and_eq_true_iff.mp empty
    rw [gatherAll, gather_of_isEmpty c first, gatherAll_of_allEmpty cs rest, List.append_nil]

end

variable {f}

theorem flatMap_group (tests : ∀ p : Piece, p.isTest = false → f p = []) {joiner : Piece}
    (plain : joiner.isTest = false) (rows : List (List Piece)) :
    (group joiner rows).flatMap f = rows.flatten.flatMap f := by
  have joined : ∀ rows : List (List Piece),
      (rows.flatMap fun row => joiner :: row).flatMap f = rows.flatten.flatMap f := by
    intro rows
    induction rows with
    | nil => rfl
    | cons row rows ih => simp [tests joiner plain, ih]
  match rows with
  | [] => simp [group, tests .never rfl]
  | [row] => simp [group]
  | first :: second :: rest =>
    have spelled : group joiner (first :: second :: rest) = .opening ::
        (first ++ ((second :: rest).flatMap fun row => joiner :: row) ++ [.closing]) := rfl
    rw [spelled, List.flatMap_cons, List.flatMap_append, List.flatMap_append, joined]
    simp [tests .opening rfl, tests .closing rfl]

mutual

theorem flatMap_pieces (tests : ∀ p : Piece, p.isTest = false → f p = []) (c : Condition) :
    c.pieces.flatMap f = c.gather f := by
  cases c with
  | compare left op right =>
    rw [pieces, gather]
    split <;> simp [tests .always rfl]
  | isNull expr negated => simp [pieces, gather]
  | and cs =>
    rw [pieces, gather]
    split
    · next empty => simp [gatherAll_of_allEmpty f cs empty, tests .always rfl]
    · rw [flatMap_group tests rfl, flatMap_livePieces tests cs]
  | or cs =>
    rw [pieces, gather]
    split
    · simp [tests .always rfl]
    · rw [flatMap_group tests rfl, flatMap_branchPieces tests cs]
  | not c =>
    rw [pieces, gather]
    split <;> simp [tests .not rfl, tests .opening rfl, tests .closing rfl, flatMap_pieces tests c]
  | raw sql => simp [pieces, gather]
  | empty => simp [pieces, gather, tests .always rfl]

theorem flatMap_livePieces (tests : ∀ p : Piece, p.isTest = false → f p = [])
    (cs : List Condition) : (livePieces cs).flatten.flatMap f = gatherAll f cs := by
  cases cs with
  | nil => rfl
  | cons c cs =>
    rw [livePieces, gatherAll]
    split
    · next empty =>
      rw [gather_of_isEmpty f c empty, flatMap_livePieces tests cs, List.nil_append]
    · rw [List.flatten_cons, List.flatMap_append, flatMap_pieces tests c,
        flatMap_livePieces tests cs]

theorem flatMap_branchPieces (tests : ∀ p : Piece, p.isTest = false → f p = [])
    (cs : List Condition) : (branchPieces cs).flatten.flatMap f = gatherAll f cs := by
  cases cs with
  | nil => rfl
  | cons c cs =>
    rw [branchPieces, gatherAll, List.flatten_cons, List.flatMap_append, flatMap_pieces tests c,
      flatMap_branchPieces tests cs]

end

end Gather

theorem Piece.uses_of_not_isTest (p : Piece) (other : p.isTest = false) : p.uses o = [] := by
  cases p with
  | compare | isNull | raw => cases other
  | _ => rfl

mutual

theorem gather_uses (c : Condition) : c.gather (Piece.uses o) = c.uses o := by
  cases c with
  | compare left op right => rfl
  | isNull expr negated => rfl
  | and cs => exact gatherAll_uses cs
  | or cs => rw [gather, uses, gatherAll_uses cs]
  | not c => exact gather_uses c
  | raw sql => rfl
  | empty => rfl

theorem gatherAll_uses (cs : List Condition) : gatherAll (Piece.uses o) cs = usesOfAll o cs := by
  cases cs with
  | nil => rfl
  | cons c cs => rw [gatherAll, usesOfAll, gather_uses c, gatherAll_uses cs]

end

theorem uses_pieces (c : Condition) : c.pieces.flatMap (Piece.uses o) = c.uses o :=
  (flatMap_pieces Piece.uses_of_not_isTest c).trans (gather_uses c)

theorem holds_write (fits : o.Fits scope.renderer) (c : Condition) (h : b.Holds vs)
    (g : c.write scope b = .ok b') : b'.Holds (vs ++ c.uses o) := by
  rw [← uses_pieces]
  exact Piece.holds_writeAll fits c.pieces h g

end Condition

def Writer.Adds (w : Writer) (ws : List BindVariable) : Prop :=
  ∀ {b b' : Builder} {vs : List BindVariable}, b.Holds vs → w b = .ok b' → b'.Holds (vs ++ ws)

section Clause

variable {lead rest keyword : Text} {item : Writer} {ws : List BindVariable}
  {items : List Writer} {rows : List (List BindVariable)}

theorem Writer.Adds.writeItem (adds : item.Adds ws) :
    Writer.Adds (writeItem lead rest item) ws := by
  intro b b' vs h g
  obtain ⟨c, written, last⟩ := Except.bind_eq_ok_iff.mp g
  obtain rfl := Except.ok.inj last
  exact (adds (h.of_binding (b.binding_pushIndent _)) written).of_binding (by simp)

theorem holds_writeItems (adds : List.Forall₂ Writer.Adds items rows) (h : b.Holds vs)
    (g : writeItems lead rest b items = .ok b') : b'.Holds (vs ++ rows.flatten) := by
  induction adds generalizing b vs with
  | nil =>
    obtain rfl := Except.ok.inj g
    simpa using h
  | cons one _ ih =>
    obtain ⟨c, written, others⟩ := Except.bind_eq_ok_iff.mp g
    simpa using ih (one.writeItem h written) others

theorem writeClause_adds (adds : List.Forall₂ Writer.Adds items rows) :
    Writer.Adds (writeClause scope keyword lead items) rows.flatten := by
  intro b b' vs h g
  have headed : (b.append keyword).endLine.Holds vs := h.of_binding (by simp)
  cases adds with
  | nil =>
    obtain rfl := Except.ok.inj g
    simpa using headed
  | cons one others =>
    obtain ⟨c, written, g⟩ := Except.bind_eq_ok_iff.mp g
    simpa using holds_writeItems others (one.writeItem headed written) g

end Clause

theorem binding_writeAlias (b : Builder) (a : Option SimpleName) :
    (writeAlias b a).binding = b.binding := by
  cases a <;> simp [writeAlias]

theorem SelectColumn.write_adds (fits : o.Fits scope.renderer) (c : SelectColumn) :
    Writer.Adds (c.write scope) (c.expr.uses o) := by
  intro b b' vs h g
  obtain ⟨d, written, last⟩ := Except.bind_eq_ok_iff.mp g
  obtain rfl := Except.ok.inj last
  exact (Expr.holds_write fits c.expr h written).of_binding (binding_writeAlias d c.aliasName)

theorem Writer.adds_map {α : Type} {f : α → Writer} {g : α → List BindVariable}
    (adds : ∀ x, (f x).Adds (g x)) (xs : List α) :
    List.Forall₂ Writer.Adds (xs.map f) (xs.map g) := by
  rw [List.forall₂_map_left_iff, List.forall₂_map_right_iff, List.forall₂_same]
  exact fun x _ => adds x

theorem fromItems_adds {items : List Writer} {rows : List (List BindVariable)}
    (adds : List.Forall₂ Writer.Adds items rows) :
    ∃ rows', List.Forall₂ Writer.Adds (fromItems items) rows' ∧ rows'.flatten = rows.flatten := by
  cases adds with
  | nil =>
    refine ⟨[[]], .cons ?_ .nil, rfl⟩
    intro b b' vs h g
    obtain rfl := Except.ok.inj g
    simpa using h.of_binding (b.binding_append dualText)
  | cons one others => exact ⟨_, .cons one others, rfl⟩

theorem whereClause_adds (fits : o.Fits scope.renderer) (items : List Condition) :
    Writer.Adds (fun b =>
        match items with
        | [] => .ok b
        | items => writeClause scope "WHERE" (andLead scope.renderer.config)
          (items.map fun c => c.write scope) b)
      (items.flatMap (Condition.uses o)) := by
  intro b b' vs h g
  cases items with
  | nil =>
    obtain rfl := Except.ok.inj g
    simpa using h
  | cons c cs =>
    rw [List.flatMap_def]
    exact writeClause_adds (Writer.adds_map (fun c => Condition.holds_write fits c) (c :: cs)) h g

mutual

theorem Source.write_adds (s : Source) {scope : Scope} (fits : o.Fits scope.renderer) :
    Writer.Adds (fun b => s.write scope b) (s.uses o) := by
  intro b b' vs h g
  cases s with
  | table name aliasName =>
    obtain rfl := Except.ok.inj g
    simpa [Source.uses] using h.of_binding (show Builder.binding _ = _ by
      rw [binding_writeAlias, Builder.binding_appendName])
  | subselect select aliasName =>
    obtain ⟨inner, written, g⟩ := Except.bind_eq_ok_iff.mp g
    obtain ⟨c, embedded, g⟩ := Except.bind_eq_ok_iff.mp g
    obtain rfl := Except.ok.inj g
    have own := Select.write_adds select fits (Builder.holds_empty b.style) written
    have opened := h.of_binding (show Builder.binding
      (Builder.pushIndent (b.append ['(']).endLine (.spaces scope.renderer.config.indent)) =
        b.binding by simp)
    have all := opened.embed own (Attempt.toExcept_eq_ok_iff.mp embedded)
    exact all.of_binding (by simp [binding_writeAlias])
  | raw sql aliasName =>
    obtain ⟨c, written, g⟩ := Except.bind_eq_ok_iff.mp g
    obtain rfl := Except.ok.inj g
    exact (RawSql.holds_write h written).of_binding (binding_writeAlias c aliasName)

theorem Source.writers_add (ss : List Source) {scope : Scope} (fits : o.Fits scope.renderer) :
    ∃ rows, List.Forall₂ Writer.Adds (Source.writers scope ss) rows ∧
      rows.flatten = Source.usesOfAll o ss := by
  cases ss with
  | nil => exact ⟨[], .nil, rfl⟩
  | cons s ss =>
    obtain ⟨rows, adds, all⟩ := Source.writers_add ss fits
    exact ⟨s.uses o :: rows, .cons (Source.write_adds s fits) adds, by simp [all, Source.usesOfAll]⟩

theorem Select.write_adds (s : Select) {scope : Scope} (fits : o.Fits scope.renderer) :
    Writer.Adds (fun b => s.write scope b) (s.uses o) := by
  intro b b' vs h g
  obtain ⟨columns, sources, condition⟩ := s
  have inside : o.Fits (scope.enter sources).renderer := fits
  obtain ⟨c, selected, g⟩ := Except.bind_eq_ok_iff.mp g
  have columnUses := writeClause_adds
    (Writer.adds_map (fun c => SelectColumn.write_adds inside c) columns) h selected
  obtain ⟨d, read, g⟩ := Except.bind_eq_ok_iff.mp g
  obtain ⟨rows, adds, all⟩ := Source.writers_add sources inside
  obtain ⟨rows', adds', all'⟩ := fromItems_adds adds
  have sourceUses := writeClause_adds adds' columnUses read
  rw [all', all] at sourceUses
  have conditionUses := whereClause_adds inside condition.items sourceUses g
  rw [← List.flatMap_def] at conditionUses
  simpa only [Select.uses, List.append_assoc] using conditionUses

end

end Write

end SqlCompose
