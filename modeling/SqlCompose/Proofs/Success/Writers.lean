import SqlCompose.Proofs.Agreement
import SqlCompose.Proofs.Uses

/-! When writing succeeds. A writer fails for three reasons only: a literal that no handler writes,
a fragment that is too long, or a bind variable that does not agree with an earlier use. Each of
them is seen in the components and the uses that the writer is made of, so success is a property of
these lists, which are appended as writers are composed. -/

namespace SqlCompose

open BindVariable

/-- What can be wrong with a part of a query when it is written, bind variables apart. -/
inductive Component where
  | literal (v : Value)
  | fragment (sql : RawSql)
  | call (f : BuiltIn) (args : List Expr) (type : TypeTag)

namespace Component

/-- A literal needs a handler that encodes it, and a fragment may not be too long. -/
def IsWritable (r : Renderer) : Component → Prop
  | literal v => ∃ h, r.registry.handlerFor v.typeTag = .ok h ∧ ∃ s, h.literal v = .ok s
  | fragment sql => sql.body.tokenCount ≤ r.config.maxTokens
  | call _ _ _ => True

/-- The arguments of a call have been checked. -/
def IsMade : Component → Prop
  | call f args type => Expr.apply f args = .ok (.call f args type)
  | _ => True

end Component

def SqlError.isEmptySlot : SqlError → Bool
  | .misuse _ (.emptySlot _) => true
  | _ => false

theorem BindVariable.isEmptySlot_combine {v w : BindVariable} {e : SqlError}
    (h : v.combine w = .error e) : e.isEmptySlot = false := by
  simp only [combine] at h
  split at h
  · obtain rfl := Except.error.inj h
    rfl
  · split at h
    · obtain rfl := Except.error.inj h
      rfl
    · split at h
      · next merged =>
        obtain rfl := Except.error.inj h
        unfold mergedValue at merged
        split at merged
        · cases merged
        · cases merged
        · cases merged
        · split at merged
          · cases merged
          · obtain rfl := Except.error.inj merged
            rfl
      · split at h
        · cases h
        · obtain rfl := Except.error.inj h
          rfl

namespace Ledger

variable {l : Ledger} {v : BindVariable} {ps : List Nat} {es : List LedgerEntry} {e : SqlError}

theorem isEmptySlot_record (h : l.record v ps = .error e) : e.isEmptySlot = false := by
  induction l with
  | nil => cases h
  | cons f l ih =>
    simp only [record] at h
    split at h
    · split at h
      · next merged =>
        obtain rfl := Except.error.inj h
        exact isEmptySlot_combine merged
      · cases h
    · split at h
      · next recorded =>
        obtain rfl := Except.error.inj h
        exact ih recorded
      · cases h

theorem isEmptySlot_recordAll (h : (l.recordAll es).2 = .error e) : e.isEmptySlot = false := by
  induction es generalizing l with
  | nil => cases h
  | cons f es ih =>
    simp only [recordAll] at h
    split at h
    · next recorded =>
      obtain rfl := Except.error.inj h
      exact isEmptySlot_record recorded
    · exact ih h

end Ledger

theorem Handler.isEmptySlot_literal {h : Handler} {v : Value} {e : SqlError}
    (failed : h.literal v = .error e) : e.isEmptySlot = false := by
  induction h generalizing v with
  | domain name base ih => cases v <;> exact ih failed
  | float =>
    cases v with
    | float x =>
      simp only [literal] at failed
      split at failed
      · cases failed
      · obtain rfl := Except.error.inj failed
        rfl
    | _ =>
      obtain rfl := Except.error.inj failed
      rfl
  | _ => cases v <;> cases failed <;> rfl

theorem Registry.isEmptySlot_literal {r : Registry} {v : Value} {e : SqlError}
    (failed : r.literal v = .error e) : e.isEmptySlot = false := by
  rcases Except.bind_eq_error_iff.mp failed with missing | ⟨h, -, refused⟩
  · simp only [handlerFor] at missing
    split at missing
    · cases missing
    · obtain rfl := Except.error.inj missing
      rfl
  · exact Handler.isEmptySlot_literal refused

/-- What is known of an outcome: that it succeeds exactly if the components can be written and the
uses in question agree, what its result holds then, and that an empty slot never is the reason of
its failure. -/
structure Yields {α : Type} (r : Renderer) (x : Except SqlError α) (holds : α → Prop)
    (ps : List Component) (agree : Prop) : Prop where
  held : ∀ {a : α}, x = .ok a → holds a
  succeeds : (∃ a, x = .ok a) ↔ (∀ p ∈ ps, p.IsWritable r) ∧ agree
  filled : ∀ {e : SqlError}, x = .error e → e.isEmptySlot = false

section Outcomes

variable {α β : Type} {r : Renderer} {x : Except SqlError α} {f : α → Except SqlError β}
  {holds : α → Prop} {holds' : β → Prop} {ps ps' : List Component} {agree agree' : Prop}

theorem Yields.ok {a : α} (held : holds a) (known : agree) : Yields r (.ok a) holds [] agree where
  held := by
    rintro _ ⟨⟩
    exact held
  succeeds := by simp [known]
  filled := by
    rintro _ ⟨⟩

theorem Yields.of_writable (h : Yields r x holds ps agree)
    (same : (∀ p ∈ ps', p.IsWritable r) ↔ ∀ p ∈ ps, p.IsWritable r) :
    Yields r x holds ps' agree :=
  ⟨h.held, h.succeeds.trans (and_congr_left' same.symm), h.filled⟩

theorem Yields.bind (first : Yields r x holds ps agree)
    (next : ∀ a, holds a → Yields r (f a) holds' ps' agree') (includes : agree' → agree) :
    Yields r (x >>= f) holds' (ps ++ ps') agree' where
  held := by
    intro b g
    obtain ⟨a, front, back⟩ := Except.bind_eq_ok_iff.mp g
    exact (next a (first.held front)).held back
  succeeds := by
    rw [List.forall_mem_append]
    constructor
    · rintro ⟨b, g⟩
      obtain ⟨a, front, back⟩ := Except.bind_eq_ok_iff.mp g
      have left := first.succeeds.mp ⟨a, front⟩
      have right := (next a (first.held front)).succeeds.mp ⟨b, back⟩
      exact ⟨⟨left.1, right.1⟩, right.2⟩
    · rintro ⟨⟨left, right⟩, known⟩
      obtain ⟨a, front⟩ := first.succeeds.mpr ⟨left, includes known⟩
      obtain ⟨b, back⟩ := (next a (first.held front)).succeeds.mpr ⟨right, known⟩
      exact ⟨b, Except.bind_eq_ok_iff.mpr ⟨a, front, back⟩⟩
  filled := by
    intro e g
    rcases Except.bind_eq_error_iff.mp g with front | ⟨a, front, back⟩
    · exact first.filled front
    · exact (next a (first.held front)).filled back

end Outcomes

def Builds (r : Renderer) (x : Except SqlError Builder) (ps : List Component)
    (ws : List BindVariable) : Prop :=
  Yields r x (fun b => b.Holds ws) ps (ws.Pairwise Compatible)

def BuildsEach (r : Renderer) (x : Except SqlError (List Builder)) (ps : List Component)
    (rows : List (List BindVariable)) : Prop :=
  Yields r x (fun bs => List.Forall₂ Builder.Holds bs rows) ps
    (∀ row ∈ rows, row.Pairwise Compatible)

def Writer.Renders (r : Renderer) (w : Writer) (ps : List Component) (ws : List BindVariable) :
    Prop :=
  ∀ (b : Builder) (vs : List BindVariable), b.Holds vs → Builds r (w b) ps (vs ++ ws)

section Writers

variable {r : Renderer} {w w' : Writer} {ps ps' : List Component} {vs ws ws' : List BindVariable}
  {x : Except SqlError Builder} {b other : Builder} {v : BindVariable}

theorem builds_ok (h : b.Holds ws) : Builds r (.ok b) [] ws :=
  .ok h h.compatible

theorem Builds.bind (first : Builds r x ps vs) (second : w.Renders r ps' ws) :
    Builds r (x >>= w) (ps ++ ps') (vs ++ ws) :=
  Yields.bind first (fun _ => second _ _) fun agree => (List.pairwise_append.mp agree).1

namespace Writer

theorem Renders.bind (first : w.Renders r ps ws) (second : w'.Renders r ps' ws') :
    Renders r (fun b => w b >>= w') (ps ++ ps') (ws ++ ws') := by
  intro b vs h
  rw [← List.append_assoc]
  exact Builds.bind (first b vs h) second

theorem renders_text {f : Builder → Builder} (same : ∀ b, (f b).binding = b.binding) :
    Renders r (fun b => .ok (f b)) [] [] := by
  intro b vs h
  rw [List.append_nil]
  exact builds_ok (h.of_binding (same b))

theorem Renders.behind {f : Builder → Builder} (h : w.Renders r ps ws)
    (same : ∀ b, (f b).binding = b.binding) : Renders r (fun b => w (f b)) ps ws :=
  fun _ _ held => h _ _ (held.of_binding (same _))

theorem Renders.andThen {f : Builder → Builder} (h : w.Renders r ps ws)
    (same : ∀ b, (f b).binding = b.binding) :
    Renders r (fun b => w b >>= fun c => .ok (f c)) ps ws := by
  have both := h.bind (renders_text same)
  rwa [List.append_nil, List.append_nil] at both

theorem renders_appendBind (v : BindVariable) :
    Renders r (fun b => (b.appendBind v).toExcept) [] [v] := by
  intro b vs h
  refine ⟨fun g => h.appendBind (Attempt.toExcept_eq_ok_iff.mp g), ?_, fun g => ?_⟩
  · simp [Attempt.toExcept_eq_ok_iff, h.exists_appendBind_iff]
  · have failed := Attempt.toExcept_eq_error_iff.mp g
    simp only [Builder.appendBind, Builder.addBind] at failed
    cases recorded : b.settleBreak.startLine.ledger.record v
        [b.settleBreak.startLine.bindCount + 1] with
    | error e' =>
      simp only [recorded, Except.error.injEq] at failed
      exact failed ▸ Ledger.isEmptySlot_record recorded
    | ok l => simp [recorded] at failed

theorem renders_embed (g : other.Holds ws) :
    Renders r (fun b => (b.embed other).toExcept) [] ws := by
  intro b vs h
  refine ⟨fun e => h.embed g (Attempt.toExcept_eq_ok_iff.mp e), ?_, fun failed => ?_⟩
  · simp [Attempt.toExcept_eq_ok_iff, h.exists_embed_iff g]
  · exact Ledger.isEmptySlot_recordAll (Attempt.toExcept_eq_error_iff.mp failed)

end Writer

theorem Builds.embed (own : Builds r x ps ws) (h : b.Holds vs) :
    Builds r (x >>= fun c => (b.embed c).toExcept) ps (vs ++ ws) := by
  have both := Yields.bind own (fun c held => Writer.renders_embed held b vs h)
    fun agree => (List.pairwise_append.mp agree).2.1
  rwa [List.append_nil] at both

end Writers

namespace Template

open Writer

variable {r : Renderer} {name template s : Text} {args : List Builder}
  {uses : List (List BindVariable)} {ts : List TemplateSlot}

theorem renders_embedAll (isFirst : Bool) (held : List.Forall₂ Builder.Holds args uses) :
    Writer.Renders r (fun b => embedAll isFirst b args) [] uses.flatten := by
  induction held generalizing isFirst with
  | nil => exact renders_text fun _ => rfl
  | cons one _ ih =>
    have comma : ∀ b : Builder, (if isFirst then b else b.append ", ").binding = b.binding := by
      intro b
      split <;> simp
    exact ((renders_embed one).behind comma).bind (ih false)

theorem renders_fill (held : List.Forall₂ Builder.Holds args uses)
    (enough : ∀ n, .argument n ∈ ts → n < args.length) :
    Writer.Renders r (fun b => fill name args b ts) [] (printedSlots uses ts) := by
  induction ts with
  | nil => exact renders_text fun _ => rfl
  | cons slot ts ih =>
    have rest := ih fun n mem => enough n (List.mem_cons_of_mem _ mem)
    cases slot with
    | text s => exact rest.behind fun b => b.binding_append s
    | argument n =>
      have bound : n < args.length := enough n (by simp)
      have bound' : n < uses.length := held.length_eq ▸ bound
      have whole := (renders_embed (held.get bound bound')).bind rest
      simpa [fill, printedSlots, bound, bound'] using whole
    | all => exact (renders_embedAll true held).bind rest

theorem renders_apply_fill (held : List.Forall₂ Builder.Holds args uses)
    (plain : isBinary (slots template) = false ∨ args.length ≤ 2)
    (enough : ∀ n, .argument n ∈ slots template → n < args.length) :
    Writer.Renders r (fun b => apply name template args b) []
      (printedSlots uses (slots template)) := by
  have filled : ¬(isBinary (slots template) && 2 < args.length) = true := by
    rcases plain with other | few <;> simp [*]
  simp only [apply, if_neg filled]
  exact renders_fill held enough

theorem renders_pair (style : PlaceholderStyle) {next : Builder} {ws : List BindVariable}
    (one : next.Holds ws) : Writer.Renders r
      (fun b => fill name [b, next] (Builder.empty style) (infixSlots s)) [] ws := by
  intro b vs h
  have enough : ∀ n, .argument n ∈ infixSlots s → n < [b, next].length := by simp [infixSlots]
  have pair : Writer.Renders r (fun c => fill name [b, next] c (infixSlots s)) []
      (printedSlots [vs, ws] (infixSlots s)) := renders_fill (.cons h (.cons one .nil)) enough
  simpa [infixSlots, printedSlots] using pair _ _ (Builder.holds_empty style)

theorem renders_foldLeft (style : PlaceholderStyle)
    (held : List.Forall₂ Builder.Holds args uses) :
    Writer.Renders r (fun b => foldLeft name (infixSlots s) style b args) [] uses.flatten := by
  induction held with
  | nil => exact renders_text fun _ => rfl
  | cons one _ ih => exact (renders_pair style one).bind ih

theorem renders_apply_infix (shape : slots template = infixSlots s)
    (held : List.Forall₂ Builder.Holds args uses) (enough : 1 < args.length) :
    Writer.Renders r (fun b => apply name template args b) [] uses.flatten := by
  have binary : isBinary (infixSlots s) = true := rfl
  by_cases many : 2 < args.length
  · intro b vs h
    simp only [apply, shape, binary, many, decide_true, Bool.and_self, if_true]
    cases held with
    | nil => cases enough
    | cons one others =>
      exact Builds.embed (renders_foldLeft b.style others _ _ one) h
  · have few : args.length ≤ 2 := by omega
    have bounds : ∀ n, .argument n ∈ slots template → n < args.length := by
      simpa [shape, infixSlots] using by omega
    have filled : Writer.Renders r (fun b => apply name template args b) []
        (printedSlots uses (slots template)) := renders_apply_fill held (.inr few) bounds
    obtain ⟨us, ws, rfl⟩ := List.length_eq_two.mp (show uses.length = 2 by
      have same := held.length_eq
      omega)
    simpa [shape, infixSlots, printedSlots] using filled

end Template

namespace BuiltIn

open Template

variable {r : Renderer} {f : BuiltIn} {name : Text} {args : List Builder}
  {uses : List (List BindVariable)}

theorem renders_filled (held : List.Forall₂ Builder.Holds args uses)
    (plain : isBinary f.layout = false ∨ args.length ≤ 2)
    (enough : ∀ n, .argument n ∈ f.layout → n < args.length)
    (order : printedSlots uses f.layout = (f.printed uses).flatten) :
    Writer.Renders r (fun b => apply name f.spec.template args b) [] (f.printed uses).flatten := by
  rw [← slots_spec] at plain enough order
  rw [← order]
  exact renders_apply_fill held plain enough

theorem renders_apply (takes : f.spec.takes args.length = true)
    (held : List.Forall₂ Builder.Holds args uses) :
    Writer.Renders r (fun b => apply name f.spec.template args b) []
      (f.printed uses).flatten := by
  have shape := f.slots_spec
  obtain ⟨least, most⟩ := Bool.and_eq_true_iff.mp takes
  have same := held.length_eq
  cases f with
  | upper | lower | trim | length =>
    have least : 1 ≤ args.length := of_decide_eq_true least
    obtain ⟨us, rest, rfl⟩ := List.exists_cons_of_length_pos (same ▸ least)
    exact renders_filled held (.inl rfl) (by simp [layout]; omega)
      (by simp [layout, printed, printedSlots])
  | substr | coalesce =>
    exact renders_filled held (.inl rfl) (by simp [layout])
      (by simp [layout, printed, printedSlots])
  | stringConcat | add | subtract | multiply | divide =>
    exact renders_apply_infix shape held (of_decide_eq_true least)
  | currentTimestamp =>
    exact renders_filled held (.inl rfl) (by simp [layout])
      (by simp [layout, printed, printedSlots])
  | instr =>
    have least : 2 ≤ args.length := of_decide_eq_true least
    have most : args.length ≤ 2 := of_decide_eq_true most
    obtain ⟨us, ws, rfl⟩ := List.length_eq_two.mp (show uses.length = 2 by omega)
    exact renders_filled held (.inr most) (by simp [layout]; omega)
      (by simp [layout, printed, printedSlots])

end BuiltIn

end SqlCompose
