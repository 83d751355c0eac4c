import SqlCompose.Proofs.Uses

/-! Placeholders of finished statements. Whatever is rendered, and by whatever templates, the
placeholders are numbered from left to right without gaps, every one of them belongs to one
variable, and the variables stand in the order of their first use. With the default templates
the ledger of a statement is the one that a single walk over the tree gives. -/

namespace SqlCompose

inductive Query where
  | expr (e : Expr)
  | condition (c : Condition)
  | select (s : Select)

namespace Query

def render (r : Renderer) : Query → Except SqlError Statement
  | expr e => r.renderExpr e
  | condition c => r.renderCondition c
  | select s => r.render s

/-- The bind variables in the order of their placeholders. -/
def uses (o : PrintOrder) : Query → List BindVariable
  | expr e => e.uses o
  | condition c => c.uses o
  | select s => s.uses o

variable {r : Renderer} {stmt : Statement}

theorem holds_render {o : PrintOrder} (fits : o.Fits r) (q : Query) (h : q.render r = .ok stmt) :
    ∃ b : Builder, b.Holds (q.uses o) ∧ stmt = b.finish := by
  have outermost : o.Fits (Scope.outermost r).renderer := fits
  have own := Builder.holds_empty r.config.placeholder
  cases q with
  | expr e =>
    obtain ⟨b, written, last⟩ := Except.bind_eq_ok_iff.mp h
    have held := Expr.holds_write outermost e own written
    exact ⟨b, held, (Except.ok.inj last).symm⟩
  | condition c =>
    obtain ⟨b, written, last⟩ := Except.bind_eq_ok_iff.mp h
    have held := Condition.holds_write outermost c own written
    exact ⟨b, held, (Except.ok.inj last).symm⟩
  | select s =>
    obtain ⟨b, written, last⟩ := Except.bind_eq_ok_iff.mp h
    have held := Select.write_adds s outermost own written
    exact ⟨b, held, (Except.ok.inj last).symm⟩

end Query

namespace Builder

variable {b : Builder} {vs : List BindVariable}

theorem Holds.placeholderCount (h : b.Holds vs) : b.finish.placeholderCount = vs.length := by
  have covered := (Ledger.sound_ofUses h.ledger).covered.length_eq
  simp only [List.length_range'] at covered
  rw [← covered]
  simp [Statement.placeholderCount, Statement.binds, finish, List.flatMap_map,
    LedgerEntry.withPosition, binding]

end Builder

namespace Query

variable {r : Renderer} {stmt : Statement}

/-- The placeholders of a statement are numbered from left to right, and their numbers are shared
out among its variables. -/
theorem placeholders_sound (r : Renderer) (q : Query) (h : q.render r = .ok stmt) :
    (stmt.binds.flatMap BindWithPosition.positions).Perm (List.range' 1 stmt.placeholderCount) ∧
    markerPositions stmt.code = List.range' 1 stmt.placeholderCount ∧
    (∀ e ∈ stmt.binds, e.positions ≠ [] ∧ e.positions.Pairwise (· < ·)) ∧
    (stmt.binds.map BindWithPosition.name).Nodup ∧
    (stmt.binds.map fun e => e.positions.headD 0).Pairwise (· < ·) ∧
    List.Forall₂ (fun (v : BindVariable) (e : BindWithPosition) =>
      v.name = e.name ∧ v.type = e.type ∧ v.value.all e.type.admits = true)
      stmt.boundVariables stmt.binds := by
  obtain ⟨b, held, rfl⟩ := holds_render (PrintOrder.fits_ofRenderer r) q h
  have sound : Ledger.Sound _ b.ledger := Ledger.sound_ofUses held.ledger
  rw [held.placeholderCount]
  refine ⟨?_, held.markers, ?_, ?_, ?_, ?_⟩
  · simpa [Statement.binds, Builder.finish, List.flatMap_map, LedgerEntry.withPosition]
      using sound.covered
  · intro e mem
    obtain ⟨entry, known, rfl⟩ := List.mem_map.mp mem
    exact ⟨sound.used entry known, sound.increasing entry known⟩
  · simpa [Statement.binds, Builder.finish, LedgerEntry.withPosition, Function.comp_def,
      Ledger.names] using sound.distinct
  · simpa [Statement.binds, Builder.finish, LedgerEntry.withPosition, Function.comp_def]
      using sound.ordered
  · rw [Statement.boundVariables, Statement.binds, List.forall₂_map_left_iff,
      List.forall₂_map_right_iff, List.forall₂_same]
    exact fun e _ => ⟨rfl, rfl, e.bind.fits⟩

def sample : Query :=
  let a := Expr.bind (.unvalued ⟨"A", by decide⟩ .text)
  let b := Expr.bind (.unvalued ⟨"B", by decide⟩ .any)
  .expr (.call .instr [.call .upper [b] .text, .call .coalesce [a, b, a] .text] .int)

/-- `INSTR(COALESCE(?, ?, ?), UPPER(?))` -/
def sampleStatement : Statement :=
  let text := fun s : Text => s.map Cell.char
  { code := text "INSTR(COALESCE(" ++ .marker 1 :: text ", " ++ .marker 2 :: text ", "
      ++ .marker 3 :: text "), UPPER(" ++ .marker 4 :: text "))"
    ledger :=
      [⟨.unvalued ⟨"A", by decide⟩ .text, [1, 3]⟩, ⟨.unvalued ⟨"B", by decide⟩ .any, [2, 4]⟩]
    style := .question }

theorem render_sample : sample.render .defaults = .ok sampleStatement := by
  decide +kernel

theorem placeholders_sound_sample :
    (sampleStatement.binds.flatMap BindWithPosition.positions).Perm
      (List.range' 1 sampleStatement.placeholderCount) ∧
    markerPositions sampleStatement.code = List.range' 1 sampleStatement.placeholderCount ∧
    (∀ e ∈ sampleStatement.binds, e.positions ≠ [] ∧ e.positions.Pairwise (· < ·)) ∧
    (sampleStatement.binds.map BindWithPosition.name).Nodup ∧
    (sampleStatement.binds.map fun e => e.positions.headD 0).Pairwise (· < ·) ∧
    List.Forall₂ (fun (v : BindVariable) (e : BindWithPosition) =>
      v.name = e.name ∧ v.type = e.type ∧ v.value.all e.type.admits = true)
      sampleStatement.boundVariables sampleStatement.binds :=
  placeholders_sound .defaults sample render_sample

/-- With the default templates, a statement has the ledger of one walk over the tree, and each
placeholder is bound to the variable that is written at its place. -/
theorem ledger_of_walk (defaults : r.HasDefaultTemplates) (q : Query)
    (h : q.render r = .ok stmt) :
    ∃ l, Ledger.ofUses (q.uses .defaults) = .ok l ∧
      stmt.binds = l.map LedgerEntry.withPosition ∧
      stmt.boundVariables = l.map LedgerEntry.bind ∧
      markerPositions stmt.code = List.range' 1 (q.uses .defaults).length ∧
      ∀ k v, (q.uses .defaults)[k]? = some v →
        ∃ e ∈ l, k + 1 ∈ e.positions ∧ e.bind.Covers v := by
  obtain ⟨b, held, rfl⟩ := holds_render (PrintOrder.fits_defaults defaults) q h
  refine ⟨_, held.ledger, rfl, rfl, held.markers, fun k v use => ?_⟩
  exact Ledger.covers_ofUses held.ledger use

theorem ledger_of_walk_sample :
    ∃ l, Ledger.ofUses (sample.uses .defaults) = .ok l ∧
      sampleStatement.binds = l.map LedgerEntry.withPosition ∧
      sampleStatement.boundVariables = l.map LedgerEntry.bind ∧
      markerPositions sampleStatement.code =
        List.range' 1 (sample.uses .defaults).length ∧
      ∀ k v, (sample.uses .defaults)[k]? = some v →
        ∃ e ∈ l, k + 1 ∈ e.positions ∧ e.bind.Covers v :=
  ledger_of_walk ⟨fun _ => rfl, fun _ => rfl⟩ sample render_sample

end Query

end SqlCompose
