import SqlCompose.BuiltIn.Operator
import SqlCompose.Proofs.Binding
import SqlCompose.Template

/-! The order in which templates print their arguments. A template that is applied to rendered
arguments adds the uses of the arguments in the order of its slots; a template of two arguments
that is folded over more of them keeps the order of the fold. For the default templates this is
the order of the arguments, except that `INSTR` prints its second argument first. -/

namespace SqlCompose

namespace Template

section Order

variable {α : Type}

def printedSlots (args : List (List α)) : List TemplateSlot → List α
  | [] => []
  | .text _ :: rest => printedSlots args rest
  | .argument n :: rest => args.getD n [] ++ printedSlots args rest
  | .all :: rest => args.flatten ++ printedSlots args rest

def printed (template : Text) (args : List (List α)) : List α :=
  let ts := slots template
  if isBinary ts && 2 < args.length then
    match args with
    | [] => []
    | first :: rest => rest.foldl (fun done next => printedSlots [done, next] ts) first
  else printedSlots args ts

end Order

section Holds

variable {name template : Text} {args : List Builder} {uses : List (List BindVariable)}
  {b b' : Builder} {vs : List BindVariable} {ts : List TemplateSlot}

theorem holds_embedAll {isFirst : Bool} (held : List.Forall₂ Builder.Holds args uses)
    (h : b.Holds vs) (g : embedAll isFirst b args = .ok b') : b'.Holds (vs ++ uses.flatten) := by
  induction held generalizing isFirst b vs with
  | nil =>
    obtain rfl := Except.ok.inj g
    simpa using h
  | @cons arg ws args uses one _ ih =>
    simp only [embedAll] at g
    obtain ⟨c, embedded, rest⟩ := Except.bind_eq_ok_iff.mp g
    have comma : (if isFirst then b else b.append ", ").Holds vs := by
      split
      · exact h
      · exact h.of_binding (b.binding_append _)
    have next := comma.embed one (Attempt.toExcept_eq_ok_iff.mp embedded)
    simpa using ih next rest

theorem holds_fill (held : List.Forall₂ Builder.Holds args uses) (h : b.Holds vs)
    (g : fill name args b ts = .ok b') : b'.Holds (vs ++ printedSlots uses ts) := by
  induction ts generalizing b vs with
  | nil =>
    obtain rfl := Except.ok.inj g
    simpa [printedSlots] using h
  | cons slot ts ih =>
    cases slot with
    | text s => exact ih (h.of_binding (b.binding_append s)) g
    | argument n =>
      simp only [fill] at g
      split at g
      · cases g
      · next arg found =>
        obtain ⟨c, embedded, rest⟩ := Except.bind_eq_ok_iff.mp g
        obtain ⟨ws, use, one⟩ : ∃ ws, uses[n]? = some ws ∧ arg.Holds ws := by
          obtain ⟨bound, rfl⟩ := List.getElem?_eq_some_iff.mp found
          have bound' := held.length_eq ▸ bound
          exact ⟨uses[n], List.getElem?_eq_getElem bound', held.get bound bound'⟩
        have next := ih (h.embed one (Attempt.toExcept_eq_ok_iff.mp embedded)) rest
        simpa [printedSlots, use] using next
    | all =>
      obtain ⟨c, embedded, rest⟩ := Except.bind_eq_ok_iff.mp g
      simpa [printedSlots] using ih (holds_embedAll held h embedded) rest

theorem holds_foldLeft {style : PlaceholderStyle} (held : List.Forall₂ Builder.Holds args uses)
    (h : b.Holds vs) (g : foldLeft name ts style b args = .ok b') :
    b'.Holds (uses.foldl (fun done next => printedSlots [done, next] ts) vs) := by
  induction held generalizing b vs with
  | nil =>
    obtain rfl := Except.ok.inj g
    exact h
  | @cons arg ws args uses one _ ih =>
    obtain ⟨c, filled, rest⟩ := Except.bind_eq_ok_iff.mp g
    have pair : List.Forall₂ Builder.Holds [b, arg] [vs, ws] := .cons h (.cons one .nil)
    exact ih (holds_fill pair (Builder.holds_empty style) filled) rest

theorem holds_apply (held : List.Forall₂ Builder.Holds args uses) (h : b.Holds vs)
    (g : apply name template args b = .ok b') : b'.Holds (vs ++ printed template uses) := by
  simp only [apply, printed, held.length_eq] at g ⊢
  split at g
  · next folded =>
    rw [if_pos folded]
    cases held with
    | nil =>
      obtain rfl := Except.ok.inj g
      simpa using h
    | cons one others =>
      obtain ⟨c, done, embedded⟩ := Except.bind_eq_ok_iff.mp g
      exact h.embed (holds_foldLeft others one done) (Attempt.toExcept_eq_ok_iff.mp embedded)
  · next plain =>
    rw [if_neg plain]
    exact holds_fill held h g

theorem lt_length_of_fill {n : Nat} (g : fill name args b ts = .ok b')
    (slot : .argument n ∈ ts) : n < args.length := by
  induction ts generalizing b with
  | nil => cases slot
  | cons t ts ih =>
    cases t with
    | text s => exact ih g (by simpa using slot)
    | argument m =>
      simp only [fill] at g
      split at g
      · cases g
      · next arg found =>
        obtain ⟨c, -, rest⟩ := Except.bind_eq_ok_iff.mp g
        rcases List.mem_cons.mp slot with same | later
        · obtain rfl := TemplateSlot.argument.inj same
          exact (List.getElem?_eq_some_iff.mp found).1
        · exact ih rest later
    | all =>
      obtain ⟨c, -, rest⟩ := Except.bind_eq_ok_iff.mp g
      exact ih rest (by simpa using slot)

theorem lt_length_of_apply {n : Nat} (g : apply name template args b = .ok b')
    (slot : .argument n ∈ slots template) : n < args.length := by
  simp only [apply] at g
  split at g
  · next folded =>
    simp only [isBinary, Bool.and_eq_true, List.all_eq_true, decide_eq_true_eq] at folded
    have small : n ≤ 1 := by simpa using folded.1.1 _ slot
    omega
  · exact lt_length_of_fill g slot

end Holds

/-- The template adds the uses of its arguments in the given order. -/
def Prints (template : Text) (order : List (List BindVariable) → List BindVariable) : Prop :=
  ∀ (name : Text) (args : List Builder) (uses : List (List BindVariable)) (b b' : Builder)
    (vs : List BindVariable), List.Forall₂ Builder.Holds args uses → b.Holds vs →
    apply name template args b = .ok b' → b'.Holds (vs ++ order uses)

theorem prints_printed (template : Text) : Prints template (printed template) :=
  fun _ _ _ _ _ _ held h g => holds_apply held h g

theorem prints_of_eq {template : Text} {order : List (List BindVariable) → List BindVariable}
    (same : ∀ uses : List (List BindVariable),
      (∀ n, .argument n ∈ slots template → n < uses.length) →
        printed template uses = order uses) : Prints template order := by
  intro name args uses b b' vs held h g
  have enough : ∀ n, .argument n ∈ slots template → n < uses.length := by
    intro n slot
    exact held.length_eq ▸ lt_length_of_apply g slot
  rw [← same uses enough]
  exact holds_apply held h g

theorem printed_of_not_isBinary {α : Type} {template : Text}
    (plain : isBinary (slots template) = false) (args : List (List α)) :
    printed template args = printedSlots args (slots template) := by
  simp [printed, plain]

def infixSlots (s : Text) : List TemplateSlot :=
  [.argument 0, .text s, .argument 1]

theorem printed_pairwise {α : Type} {template : Text} (binary : isBinary (slots template) = true)
    (pair : ∀ x y : List α, printedSlots [x, y] (slots template) = x ++ y)
    {args : List (List α)} (enough : 1 < args.length) : printed template args = args.flatten := by
  simp only [printed, binary, Bool.true_and, decide_eq_true_eq, pair]
  split
  · cases args with
    | nil => rfl
    | cons first rest =>
      have fold : rest.foldl (fun done next => done ++ id next) first =
          first ++ (rest.map id).flatten := List.foldl_append_eq_append
      simpa using fold
  · next few =>
    obtain ⟨x, y, rfl⟩ := List.length_eq_two.mp (show args.length = 2 by omega)
    simpa using pair x y

theorem foldl_prepend {α : Type} (rest : List (List α)) (first : List α) :
    rest.foldl (fun done next => next ++ done) first = (first :: rest).reverse.flatten := by
  induction rest generalizing first with
  | nil => simp
  | cons next rest ih => simp [ih]

theorem printed_backwards {α : Type} {template : Text} (binary : isBinary (slots template) = true)
    (pair : ∀ x y : List α, printedSlots [x, y] (slots template) = y ++ x)
    {args : List (List α)} (enough : 1 < args.length) :
    printed template args = args.reverse.flatten := by
  simp only [printed, binary, Bool.true_and, decide_eq_true_eq, pair]
  split
  · cases args with
    | nil => rfl
    | cons first rest => exact foldl_prepend rest first
  · next few =>
    obtain ⟨x, y, rfl⟩ := List.length_eq_two.mp (show args.length = 2 by omega)
    simpa using pair x y

theorem prints_infix {template s : Text} (shape : slots template = infixSlots s) :
    Prints template List.flatten := by
  refine prints_of_eq fun uses enough => printed_pairwise ?_ ?_ (enough 1 ?_)
  · simp [shape, isBinary, infixSlots]
  · simp [shape, infixSlots, printedSlots]
  · simp [shape, infixSlots]

end Template

namespace BuiltIn

open Template

def layout : BuiltIn → List TemplateSlot
  | stringConcat => infixSlots "||"
  | upper => [.text "UPPER(", .argument 0, .text ")"]
  | lower => [.text "LOWER(", .argument 0, .text ")"]
  | trim => [.text "TRIM(", .argument 0, .text ")"]
  | length => [.text "LENGTH(", .argument 0, .text ")"]
  | substr => [.text "SUBSTR(", .all, .text ")"]
  | instr => [.text "INSTR(", .argument 1, .text ", ", .argument 0, .text ")"]
  | coalesce => [.text "COALESCE(", .all, .text ")"]
  | add => infixSlots " + "
  | subtract => infixSlots " - "
  | multiply => infixSlots " * "
  | divide => infixSlots " / "
  | currentTimestamp => [.text "CURRENT_TIMESTAMP"]

theorem slots_spec (f : BuiltIn) : slots f.spec.template = f.layout := by
  cases f <;> decide +kernel

/-- The arguments that a call prints by its default template, in their order there. -/
def printed {α : Type} (f : BuiltIn) (args : List α) : List α :=
  match f with
  | upper | lower | trim | length => args.take 1
  | instr => args.reverse
  | currentTimestamp => []
  | stringConcat | substr | coalesce | add | subtract | multiply | divide => args

theorem printed_perm {α : Type} {f : BuiltIn} {args : List α}
    (takes : f.spec.takes args.length = true) : (f.printed args).Perm args := by
  have most := (Bool.and_eq_true_iff.mp takes).2
  cases f with
  | upper | lower | trim | length =>
    have one : args.length ≤ 1 := of_decide_eq_true most
    rw [printed, List.take_of_length_le one]
  | instr => exact List.reverse_perm args
  | currentTimestamp =>
    have none : args.length ≤ 0 := of_decide_eq_true most
    rw [List.length_eq_zero_iff.mp (Nat.le_zero.mp none), printed]
  | stringConcat | substr | coalesce | add | subtract | multiply | divide => exact .refl args

theorem prints_first {f : BuiltIn} {s : Text}
    (shape : f.layout = [.text s, .argument 0, .text ")"]) :
    Prints f.spec.template fun uses => (uses.take 1).flatten := by
  rw [← slots_spec] at shape
  refine prints_of_eq fun uses enough => ?_
  obtain ⟨first, rest, rfl⟩ : ∃ first rest, uses = first :: rest :=
    List.exists_cons_of_length_pos (enough 0 (by simp [shape]))
  rw [printed_of_not_isBinary (by simp [shape, isBinary])]
  simp [shape, printedSlots]

theorem prints_all {f : BuiltIn} {s : Text} (shape : f.layout = [.text s, .all, .text ")"]) :
    Prints f.spec.template List.flatten := by
  rw [← slots_spec] at shape
  refine prints_of_eq fun uses _ => ?_
  rw [printed_of_not_isBinary (by simp [shape, isBinary])]
  simp [shape, printedSlots]

theorem prints_spec (f : BuiltIn) :
    Prints f.spec.template fun uses => (f.printed uses).flatten := by
  have shape := f.slots_spec
  cases f with
  | upper | lower | trim | length => exact prints_first rfl
  | substr | coalesce => exact prints_all rfl
  | stringConcat | add | subtract | multiply | divide => exact prints_infix shape
  | currentTimestamp =>
    refine prints_of_eq fun uses _ => ?_
    rw [printed_of_not_isBinary (by simp [shape, layout, isBinary])]
    simp [shape, layout, printedSlots, printed]
  | instr =>
    refine prints_of_eq fun uses enough => printed_backwards ?_ ?_ (enough 1 ?_)
    · simp [shape, layout, isBinary]
    · simp [shape, layout, printedSlots]
    · simp [shape, layout]

end BuiltIn

namespace Comparison

def symbolText : Comparison → Text
  | equal => " = "
  | notEqual => " <> "
  | less => " < "
  | lessOrEqual => " <= "
  | greater => " > "
  | greaterOrEqual => " >= "
  | like => " LIKE "

theorem slots_template (op : Comparison) :
    Template.slots op.template = Template.infixSlots op.symbolText := by
  cases op <;> decide +kernel

theorem prints_template (op : Comparison) : Template.Prints op.template List.flatten :=
  Template.prints_infix op.slots_template

end Comparison

end SqlCompose
