import SqlCompose.Proofs.Arithmetic.Grammar
import SqlCompose.Proofs.Folding
import SqlCompose.Proofs.Pages.Extends

/-! How arithmetic is written. By the default templates, an operator is written glyph by glyph,
wherever it stands, with its units rendered on their own. So its text is made of the texts of the
units, with their placeholders numbered on, and of the characters between them. -/

namespace SqlCompose

open Arithmetic Builder

variable {scope : Scope} {style : PlaceholderStyle} {b d s : Builder}

namespace Arithmetic.Glyph

/-- Writes glyphs one behind the other. A unit is rendered on a builder of its own. -/
def writeAll (scope : Scope) (style : PlaceholderStyle) (b : Builder) :
    List Glyph → Except SqlError Builder
  | [] => .ok b
  | .char c :: gs => writeAll scope style (b.append [c]) gs
  | .unit e :: gs => do
    let own ← e.write scope (Builder.empty style)
    writeAll scope style (← (b.embed own).toExcept) gs

theorem writeAll_unit {e : Expr} {gs : List Glyph} :
    writeAll scope style b (.unit e :: gs) = .ok d ↔
      ∃ own, e.write scope (Builder.empty style) = .ok own ∧
        ∃ c, b.embed own = (c, .ok ()) ∧ writeAll scope style c gs = .ok d := by
  simp only [writeAll, Except.bind_eq_ok_iff, Attempt.toExcept_eq_ok_iff]

theorem writeAll_append {gs hs : List Glyph} :
    writeAll scope style b (gs ++ hs) = .ok d ↔
      ∃ c, writeAll scope style b gs = .ok c ∧ writeAll scope style c hs = .ok d := by
  induction gs generalizing b with
  | nil => simp [writeAll]
  | cons g gs ih =>
    cases g with
    | char c => exact ih
    | unit e =>
      simp only [List.cons_append, writeAll_unit, ih]
      constructor
      · rintro ⟨own, written, c, embedded, d, front, rest⟩
        exact ⟨d, ⟨own, written, c, embedded, front⟩, rest⟩
      · rintro ⟨d, ⟨own, written, c, embedded, front⟩, rest⟩
        exact ⟨own, written, c, embedded, d, front, rest⟩

theorem writeAll_ofText (t : Text) : writeAll scope style b (ofText t) = .ok (b.append t) := by
  induction t generalizing b with
  | nil => rfl
  | cons c t ih => exact ih

theorem embed_writeAll (h : s.Alone) {gs : List Glyph} :
    (∃ s', writeAll scope style s gs = .ok s' ∧ b.embed s' = (d, .ok ())) ↔
      ∃ c, b.embed s = (c, .ok ()) ∧ writeAll scope style c gs = .ok d := by
  induction gs generalizing s with
  | nil => simp [writeAll]
  | cons g gs ih =>
    cases g with
    | char c =>
      refine (ih (h.append [c])).trans ?_
      simp only [embed_append h, writeAll]
      constructor
      · rintro ⟨_, ⟨c, front, rfl⟩, rest⟩
        exact ⟨c, front, rest⟩
      · rintro ⟨c, front, rest⟩
        exact ⟨_, ⟨c, front, rfl⟩, rest⟩
    | unit e =>
      simp only [writeAll_unit]
      constructor
      · rintro ⟨s', ⟨own, written, t, inner, rest⟩, embedded⟩
        have regular := (Expr.runsTo_write e written).regular (regular_empty style)
        obtain ⟨c, inside, later⟩ := (ih (h.embed inner)).mp ⟨s', rest, embedded⟩
        obtain ⟨f, front, unit⟩ := (embed_embed h regular).mp ⟨t, inner, inside⟩
        exact ⟨f, front, own, written, c, unit, later⟩
      · rintro ⟨f, front, own, written, c, unit, later⟩
        have regular := (Expr.runsTo_write e written).regular (regular_empty style)
        obtain ⟨t, inner, inside⟩ := (embed_embed h regular).mpr ⟨f, front, unit⟩
        obtain ⟨s', rest, embedded⟩ := (ih (h.embed inner)).mpr ⟨c, inside, later⟩
        exact ⟨s', ⟨own, written, t, inner, rest⟩, embedded⟩

end Arithmetic.Glyph

theorem BuiltIn.template_of_sign? {f : BuiltIn} {sign : Sign} (h : f.sign? = some sign) :
    f.spec.template = Template.pair sign.text := by
  cases f with
  | add | subtract | multiply | divide =>
    obtain rfl := Option.some.inj h
    decide +kernel
  | _ => cases h

namespace Expr

def writeOperand (scope : Scope) (style : PlaceholderStyle) (e : Expr) : Except SqlError Builder :=
  if e.isOperator then do
    let b ← e.write scope ((Builder.empty style).append ['('])
    .ok (b.append [')'])
  else e.write scope (Builder.empty style)

theorem writeArgs_operators_cons {arg : Expr} {args : List Expr} {rendered : List Builder} :
    writeArgs scope true style (arg :: args) = .ok rendered ↔
      ∃ first, writeOperand scope style arg = .ok first ∧
        ∃ others, writeArgs scope true style args = .ok others ∧ first :: others = rendered := by
  have whole : writeArgs scope true style (arg :: args) =
      writeOperand scope style arg >>= fun first =>
        writeArgs scope true style args >>= fun others => .ok (first :: others) := by
    rw [writeArgs, writeOperand, Bool.true_and]
    split
    · rw [bind_assoc]
    · rfl
  simp only [whole, Except.bind_eq_ok_iff, Except.ok.injEq]

theorem length_of_writeArgs {args : List Expr} {rendered : List Builder}
    (g : writeArgs scope true style args = .ok rendered) : rendered.length = args.length := by
  induction args generalizing rendered with
  | nil =>
    obtain rfl := Except.ok.inj g
    rfl
  | cons arg args ih =>
    obtain ⟨first, -, others, rest, rfl⟩ := writeArgs_operators_cons.mp g
    rw [List.length_cons, List.length_cons, ih rest]

/-- The operand can be rendered and embedded, or its glyphs written in its place. -/
def WritesOperand (scope : Scope) (e : Expr) : Prop :=
  ∀ (style : PlaceholderStyle) (b d : Builder),
    (∃ own, writeOperand scope style e = .ok own ∧ b.embed own = (d, .ok ())) ↔
      Glyph.writeAll scope style b e.operand = .ok d

theorem writesOperand_unit {e : Expr} (atom : e.isOperator = false) : e.WritesOperand scope := by
  intro style b d
  have row : e.operand = [.unit e] := by
    rw [operand, inOperand, atom, glyphs_of_isOperator_eq_false atom]
    rfl
  rw [row, Glyph.writeAll_unit, writeOperand, atom]
  simp only [Bool.false_eq_true, if_false, Glyph.writeAll, Except.ok.injEq, exists_eq_right]

theorem writesOperand_operator {e : Expr} (operator : e.isOperator = true)
    (inner : ∀ b d : Builder, e.write scope b = .ok d ↔
      Glyph.writeAll scope b.style b e.glyphs = .ok d) : e.WritesOperand scope := by
  intro style b d
  have own : ∀ own, writeOperand scope style e = .ok own ↔
      Glyph.writeAll scope style (Builder.empty style) e.operand = .ok own := by
    intro own
    have opened : ((Builder.empty style).append ['(']).style = style := rfl
    have row : e.operand = Glyph.ofText ['('] ++ (e.glyphs ++ Glyph.ofText [')']) := by
      rw [operand, inOperand, if_pos operator]
      rfl
    simp only [row, Glyph.writeAll_append, Glyph.writeAll_ofText, writeOperand, operator, if_true,
      Except.bind_eq_ok_iff, inner, opened, Except.ok.injEq, exists_eq_left']
  have start : b.embed (Builder.empty style) = (b, .ok ()) := rfl
  simp only [own]
  rw [Glyph.embed_writeAll (alone_empty style), start]
  simp only [Prod.mk.injEq, and_true, exists_eq_left']

theorem embedBetween_operands_cons {sign : Sign} {arg : Expr} {args : List Expr}
    (here : arg.WritesOperand scope)
    (later : ∀ c, (∃ rendered, writeArgs scope true style args = .ok rendered ∧
        embedBehind sign.text c rendered = .ok d) ↔
      Glyph.writeAll scope style c (behind sign (args.map operand)) = .ok d) :
    (∃ rendered, writeArgs scope true style (arg :: args) = .ok rendered ∧
        embedBetween sign.text b rendered = .ok d) ↔
      Glyph.writeAll scope style b (between sign ((arg :: args).map operand)) = .ok d := by
  simp only [List.map_cons, between, Glyph.writeAll_append, ← here style, ← later]
  constructor
  · rintro ⟨rendered, all, written⟩
    obtain ⟨first, own, others, rest, rfl⟩ := writeArgs_operators_cons.mp all
    obtain ⟨c, front, behind⟩ := embedBetween_cons_eq_ok_iff.mp written
    exact ⟨c, ⟨first, own, front⟩, others, rest, behind⟩
  · rintro ⟨c, ⟨first, own, front⟩, others, rest, behind⟩
    exact ⟨first :: others, writeArgs_operators_cons.mpr ⟨first, own, others, rest, rfl⟩,
      embedBetween_cons_eq_ok_iff.mpr ⟨c, front, behind⟩⟩

theorem embedBehind_operands {sign : Sign} {args : List Expr}
    (each : ∀ e ∈ args, e.WritesOperand scope) :
    (∃ rendered, writeArgs scope true style args = .ok rendered ∧
        embedBehind sign.text b rendered = .ok d) ↔
      Glyph.writeAll scope style b (behind sign (args.map operand)) = .ok d := by
  induction args generalizing b with
  | nil => simp [writeArgs, embedBehind, behind, Glyph.writeAll]
  | cons arg args ih =>
    have row : behind sign ((arg :: args).map operand) =
        Glyph.ofText sign.text ++ between sign ((arg :: args).map operand) := by
      simp [behind, between]
    have later := fun c => ih (b := c) fun e mem => each e (List.mem_cons_of_mem arg mem)
    simp only [row, Glyph.writeAll_append, Glyph.writeAll_ofText, Except.ok.injEq, exists_eq_left',
      ← embedBetween_operands_cons (each arg List.mem_cons_self) later]
    -- behind a sign, the operands are a row of their own
    refine exists_congr fun rendered => and_congr_right fun all => ?_
    obtain ⟨first, -, others, -, rfl⟩ := writeArgs_operators_cons.mp all
    rfl

theorem embedBetween_operands {sign : Sign} {args : List Expr}
    (each : ∀ e ∈ args, e.WritesOperand scope) :
    (∃ rendered, writeArgs scope true style args = .ok rendered ∧
        embedBetween sign.text b rendered = .ok d) ↔
      Glyph.writeAll scope style b (between sign (args.map operand)) = .ok d := by
  cases args with
  | nil => simp [writeArgs, embedBetween, between, Glyph.writeAll]
  | cons arg args =>
    exact embedBetween_operands_cons (each arg List.mem_cons_self) fun _ =>
      embedBehind_operands fun e mem => each e (List.mem_cons_of_mem arg mem)

theorem write_eq_ok_iff (defaults : scope.renderer.HasDefaultTemplates) {e : Expr}
    (arithmetic : e.isArithmetic = true) :
    e.isOperator = true → ∀ b d : Builder,
      e.write scope b = .ok d ↔ Glyph.writeAll scope b.style b e.glyphs = .ok d := by
  refine arithmetic_induction ?unit ?operator e arithmetic
  case unit => exact fun e _ atom isOperator => nomatch atom.symm.trans isOperator
  case operator =>
    intro f args type sign known two inner _ b d
    have each : ∀ e ∈ args, e.WritesOperand scope := by
      intro e mem
      cases operator : e.isOperator with
      | true => exact writesOperand_operator operator (inner e mem operator)
      | false => exact writesOperand_unit operator
    have text : '\x7b' ∉ sign.text := by cases sign <;> decide
    rw [glyphs_call known, ← embedBetween_operands each, write]
    simp only [Except.bind_eq_ok_iff]
    rw [BuiltIn.isOperator_of_sign? known, defaults.call, BuiltIn.template_of_sign? known]
    -- the same operands are rendered, and folding them is embedding them one after the other
    refine exists_congr fun rendered => and_congr_right fun own => ?_
    have regular := fun arg mem => (isScripted_writeArgs args own arg mem).regular
    exact Template.apply_pair_eq_ok_iff text regular ((length_of_writeArgs own).symm ▸ two)

end Expr

namespace Builder

theorem settled_copies (offset : Nat) {cells : List Cell}
    (settled : b.pendingBreak = false ∨ cells ≠ []) :
    (cells.foldl (putCopy offset) b).pendingBreak = false := by
  induction cells generalizing b with
  | nil => simpa using settled
  | cons cell cells ih => exact ih (.inl (settled_putCopy offset b cell))

theorem settled_append {t : Text} (settled : b.pendingBreak = false ∨ t ≠ []) :
    (b.append t).pendingBreak = false := by
  rw [append_eq_copies]
  exact settled_copies 0 (settled.imp_right (by simp))

theorem settled_embed (settled : b.pendingBreak = false) (own : s.pendingBreak = false)
    (e : b.embed s = (d, .ok ())) : d.pendingBreak = false := by
  obtain ⟨l, -, rfl⟩ := embed_eq_ok_iff.mp e
  rw [Builder.withBinding, copyText, own]
  exact settled_copies b.bindCount (.inl settled)

theorem Alone.cells_putCopy (h : s.Alone) (settled : s.pendingBreak = false) (offset : Nat)
    (cell : Cell) :
    (Builder.putCopy offset s cell).cells.toList = s.cells.toList ++ [cell.moved offset] := by
  have visible : ∀ (cell : Cell) (wordTail : Bool),
      (s.putCell cell wordTail).cells.toList = s.cells.toList ++ [cell] := by
    intro cell wordTail
    rw [h.cells_putCell, settled]
    rfl
  cases cell with
  | char c =>
    rw [Builder.putCopy, putChar]
    split
    · next lineEnd => exact lineEnd ▸ Array.toList_push
    · exact visible _ _
  | kept c => exact visible _ _
  | marker p => exact visible _ _

theorem Alone.cells_copies (h : s.Alone) (settled : s.pendingBreak = false) (offset : Nat)
    (cells : List Cell) :
    (cells.foldl (Builder.putCopy offset) s).cells.toList =
      s.cells.toList ++ cells.map (Cell.moved offset) := by
  induction cells generalizing s with
  | nil => exact (List.append_nil _).symm
  | cons cell cells ih =>
    have rest := ih (h.putCopy offset cell) (settled_putCopy offset s cell)
    rw [h.cells_putCopy settled, List.append_assoc] at rest
    exact rest

end Builder

namespace Template

variable {name template t : Text} {args : List Builder} {ts front : List TemplateSlot}

theorem settled_fill (some : t ≠ []) (g : fill name args b (front ++ [.text t]) = .ok d) :
    d.pendingBreak = false := by
  induction front generalizing b with
  | nil =>
    obtain rfl := Except.ok.inj g
    exact settled_append (.inr some)
  | cons slot front ih =>
    cases slot with
    | text s => exact ih g
    | argument n =>
      simp only [List.cons_append, fill] at g
      split at g
      · cases g
      · obtain ⟨c, -, rest⟩ := Except.bind_eq_ok_iff.mp g
        exact ih rest
    | all =>
      obtain ⟨c, -, rest⟩ := Except.bind_eq_ok_iff.mp g
      exact ih rest

theorem settled_foldLeft {first : Builder} (some : t ≠ [])
    (settled : first.pendingBreak = false ∨ args ≠ [])
    (g : foldLeft name (front ++ [.text t]) style first args = .ok d) :
    d.pendingBreak = false := by
  induction args generalizing first with
  | nil =>
    obtain rfl := Except.ok.inj g
    simpa using settled
  | cons next args ih =>
    obtain ⟨c, filled, rest⟩ := Except.bind_eq_ok_iff.mp g
    exact ih (.inl (settled_fill some filled)) rest

theorem settled_apply (some : t ≠ []) (ending : slots template = front ++ [.text t])
    (settled : b.pendingBreak = false) (g : apply name template args b = .ok d) :
    d.pendingBreak = false := by
  simp only [apply, ending] at g
  split at g
  · next folded =>
    cases args with
    | nil =>
      obtain rfl := Except.ok.inj g
      exact settled
    | cons first rest =>
      obtain ⟨c, folded, embedded⟩ := Except.bind_eq_ok_iff.mp g
      have more : rest ≠ [] := by
        rintro rfl
        simp at *
      exact settled_embed settled (settled_foldLeft some (.inr more) folded)
        (Attempt.toExcept_eq_ok_iff.mp embedded)
  · exact settled_fill some g

end Template

theorem BuiltIn.exists_layout_text {f : BuiltIn} (h : f.spec.isOperator = false) :
    ∃ front t, f.layout = front ++ [.text t] ∧ t ≠ [] := by
  cases f with
  | upper | lower | trim | length | substr | coalesce => exact ⟨[_, _], ")", rfl, by decide⟩
  | instr => exact ⟨[_, _, _, _], ")", rfl, by decide⟩
  | currentTimestamp => exact ⟨[], "CURRENT_TIMESTAMP", rfl, by decide +kernel⟩
  | stringConcat | add | subtract | multiply | divide => cases h

namespace Expr

theorem settled_write (defaults : scope.renderer.HasDefaultTemplates) {e : Expr}
    (arithmetic : e.isArithmetic = true) (atom : e.isOperator = false)
    (g : e.write scope (Builder.empty style) = .ok d) : d.pendingBreak = false := by
  cases e with
  | literal v =>
    obtain ⟨t, -, written⟩ := Except.bind_eq_ok_iff.mp g
    obtain rfl := Except.ok.inj written
    exact settled_append (.inl rfl)
  | column c =>
    obtain rfl := Except.ok.inj g
    have bare : ∀ t, ((Builder.empty style).appendName t).pendingBreak = false := fun t =>
      settled_append (b := Builder.empty style) (.inl rfl)
    rw [ColumnRef.write]
    split
    · exact settled_append (.inl (settled_append (.inl (bare _))))
    · exact bare _
  | bind v =>
    have appended : (Builder.empty style).appendBind v = (d, .ok ()) :=
      Attempt.toExcept_eq_ok_iff.mp g
    obtain ⟨l, -, rfl⟩ := appendBind_eq_ok_iff_record.mp appended
    exact (Builder.empty style).startLine_settleBreak.1
  | call f args type =>
    obtain ⟨rendered, -, applied⟩ := Except.bind_eq_ok_iff.mp g
    obtain ⟨front, t, ending, some⟩ := BuiltIn.exists_layout_text atom
    rw [defaults.call] at applied
    exact Template.settled_apply some (f.slots_spec.trans ending) rfl applied
  | raw sql type => cases arithmetic

end Expr

namespace Arithmetic.Glyph

/-- The cells of glyphs behind `n` placeholders. A unit has the cells that it is rendered with on
its own, with its placeholders numbered on. -/
def spell (scope : Scope) (style : PlaceholderStyle) (n : Nat) :
    List Glyph → Except SqlError (List Cell)
  | [] => .ok []
  | .char c :: gs => do .ok (.char c :: (← spell scope style n gs))
  | .unit e :: gs => do
    let own ← e.write scope (Builder.empty style)
    .ok (own.cells.toList.map (Cell.moved n) ++ (← spell scope style (n + own.bindCount) gs))

theorem spell_of_writeAll (defaults : scope.renderer.HasDefaultTemplates) {gs : List Glyph}
    (atomic : ∀ g ∈ gs, Expr.IsAtomic g) (h : s.Alone) (settled : s.pendingBreak = false)
    (g : writeAll scope style s gs = .ok d) :
    ∃ cells, spell scope style s.bindCount gs = .ok cells ∧
      d.cells.toList = s.cells.toList ++ cells := by
  induction gs generalizing s with
  | nil =>
    obtain rfl := Except.ok.inj g
    exact ⟨[], rfl, (List.append_nil _).symm⟩
  | cons glyph gs ih =>
    obtain ⟨here, later⟩ := List.forall_mem_cons.mp atomic
    cases glyph with
    | char c =>
      obtain ⟨cells, spelled, text⟩ := ih later (h.append [c]) (settled_append (.inl settled)) g
      have count : (s.append [c]).bindCount = s.bindCount :=
        congrArg Binding.count (binding_append s [c])
      have front : (s.append [c]).cells.toList = s.cells.toList ++ [.char c] := by
        rw [append_eq_copies]
        exact h.cells_copies settled 0 [.char c]
      refine ⟨.char c :: cells, ?_, ?_⟩
      · rw [count] at spelled
        rw [spell, spelled]
        rfl
      · rw [text, front, List.append_assoc]
        rfl
    | unit e =>
      obtain ⟨own, written, c, embedded, rest⟩ := writeAll_unit.mp g
      have owes := Expr.settled_write defaults here.1 here.2 written
      obtain ⟨cells, spelled, text⟩ :=
        ih later (h.embed embedded) (settled_embed settled owes embedded) rest
      obtain ⟨l, -, rfl⟩ := embed_eq_ok_iff.mp embedded
      have front := h.cells_copies settled s.bindCount own.cells.toList
      refine ⟨own.cells.toList.map (Cell.moved s.bindCount) ++ cells, ?_, ?_⟩
      · rw [spell]
        exact Except.bind_eq_ok_iff.mpr
          ⟨own, written, Except.bind_eq_ok_iff.mpr ⟨cells, spelled, rfl⟩⟩
      · rw [text, ← List.append_assoc, ← front, Builder.withBinding, copyText, owes]
        rfl

end Arithmetic.Glyph

namespace Expr

theorem spell_of_write (defaults : scope.renderer.HasDefaultTemplates) {e : Expr}
    (arithmetic : e.isArithmetic = true) (g : e.write scope (Builder.empty style) = .ok d) :
    Glyph.spell scope style 0 e.glyphs = .ok d.cells.toList := by
  cases operator : e.isOperator with
  | true =>
    have glyphs := (write_eq_ok_iff defaults arithmetic operator (Builder.empty style) d).mp g
    obtain ⟨cells, spelled, text⟩ := Glyph.spell_of_writeAll defaults
      (isAtomic_of_mem_glyphs arithmetic) (alone_empty style) rfl glyphs
    exact spelled.trans (congrArg Except.ok text.symm)
  | false =>
    rw [glyphs_of_isOperator_eq_false operator]
    refine Except.bind_eq_ok_iff.mpr ⟨d, g, ?_⟩
    rw [Cell.moved_zero, List.map_id, Glyph.spell]
    exact congrArg Except.ok (List.append_nil _)

/-- Sums, differences, products and quotients, nested in any way over columns, literals,
variables and other calls, are printed so that they are read with their value, whatever the values
of these and whatever the signs do to them. What is read is what is written: the text of an
expression that is rendered on its own is spelled by its glyphs, and an operator is written glyph by
glyph on any builder. -/
theorem read_arithmetic (defaults : scope.renderer.HasDefaultTemplates) {e : Expr}
    (arithmetic : e.isArithmetic = true) :
    (∀ (α : Type) (op : Sign → α → α → α) (v : Expr → α) (t : α),
      Reads op v .sum e.glyphs t ↔ t = e.value op v) ∧
    (∀ style d, e.write scope (Builder.empty style) = .ok d →
      ∃ cells, Glyph.spell scope style 0 e.glyphs = .ok cells ∧
        d.finish.sql = codeText style cells) ∧
    (e.isOperator = true → ∀ b d, e.write scope b = .ok d ↔
      Glyph.writeAll scope b.style b e.glyphs = .ok d) := by
  refine ⟨fun α op v t => ?_, fun style d g => ?_, write_eq_ok_iff defaults arithmetic⟩
  · have read := reads_glyphs op v arithmetic
    exact ⟨fun h => h.unique read, fun same => same ▸ read⟩
  · refine ⟨_, spell_of_write defaults arithmetic g, ?_⟩
    exact congrArg (codeText · d.cells.toList) (write_extends g).style

/-- `((net - -5) * R * LENGTH(R||net)) - (8 / (4 / 2))`, with a variable `R`. -/
def arithmeticSample : Expr :=
  let net := Expr.column ⟨none, .unquoted "net" (by decide), .int⟩
  let r := Expr.bind (.unvalued ⟨['R'], by decide⟩ .int)
  let n := fun k => Expr.literal (.int k)
  let size := call .length [call .stringConcat [r, net] .text] .int
  call .subtract [call .multiply [call .subtract [net, n (-5)] .int, r, size] .int,
    call .divide [n 8, call .divide [n 4, n 2] .int] .int] .int

def sampleUnit : Expr → Int
  | literal (.int n) => n
  | column _ => 1
  | bind _ => 3
  | _ => 2

def sampleSign : Sign → Int → Int → Int
  | .plus => (· + ·)
  | .minus => (· - ·)
  | .star => (· * ·)
  | .slash => (· / ·)

theorem read_arithmetic_sample : arithmeticSample.isArithmetic = true ∧
    (∀ t, Reads sampleSign sampleUnit .sum arithmeticSample.glyphs t ↔ t = 32) ∧
    ∃ d cells, arithmeticSample.write (.outermost .defaults) (Builder.empty .dollar) = .ok d ∧
      Glyph.spell (.outermost .defaults) .dollar 0 arithmeticSample.glyphs = .ok cells ∧
      codeText .dollar cells = "((net - -5) * $1 * LENGTH($2||net)) - (8 / (4 / 2))".toList := by
  have arithmetic : arithmeticSample.isArithmetic = true := by decide +kernel
  have templates : (Scope.outermost .defaults).renderer.HasDefaultTemplates :=
    ⟨fun _ => rfl, fun _ => rfl⟩
  obtain ⟨read, text, -⟩ := read_arithmetic templates arithmetic
  have known : (arithmeticSample.write (.outermost .defaults) (Builder.empty .dollar)).map
      (fun d => d.finish.sql) =
        .ok "((net - -5) * $1 * LENGTH($2||net)) - (8 / (4 / 2))".toList := by decide +kernel
  cases written : arithmeticSample.write (.outermost .defaults) (Builder.empty .dollar) with
  | error e =>
    rw [written] at known
    cases known
  | ok d =>
    rw [written] at known
    obtain ⟨cells, spelled, same⟩ := text .dollar d written
    have value : arithmeticSample.value sampleSign sampleUnit = 32 := by decide +kernel
    exact ⟨arithmetic, fun t => value ▸ read Int sampleSign sampleUnit t, d, cells, rfl, spelled,
      same.symm.trans (Except.ok.inj known)⟩

end Expr

end SqlCompose
