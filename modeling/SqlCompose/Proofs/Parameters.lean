import Mathlib.Data.List.Pairwise
import SqlCompose.Proofs.Placeholders

/-! Parameters of an execution. The positions of the variables of a statement are shared out without
gaps and overlaps, so setting the parameter of each variable at its positions fills every slot once.
What stands in a slot is what the handler of the variable's type makes of the variable's value.
Types that stand above others have no handler among the default ones, and handlers are looked up
from the type of the variable upwards, so a variable of such a type cannot be executed with them. -/

namespace SqlCompose

namespace Params

variable {p : Params} {x y : Param} {position k : Nat}

theorem size_set (inside : position ≤ p.size) : (p.set position x).size = p.size := by
  have room : position - p.slots.length = 0 := Nat.sub_eq_zero_of_le inside
  unfold set
  split
  · rfl
  · simp [size, room]

theorem get?_set_of_ne (other : position ≠ k) : (p.set position x).get? k = p.get? k := by
  unfold set
  split
  · rfl
  · next some =>
    unfold get?
    split
    · rfl
    · next counted =>
      have apart : position - 1 ≠ k - 1 := by omega
      rw [List.getElem?_set_ne apart]
      by_cases inside : k - 1 < p.slots.length
      · rw [List.getElem?_append_left inside]
      · -- a slot that was made is empty, as one that is not there
        rw [List.getElem?_append_right (Nat.le_of_not_lt inside), List.getElem?_replicate,
          List.getElem?_eq_none (Nat.le_of_not_lt inside)]
        split <;> rfl

def setAll (p : Params) (x : Param) (positions : List Nat) : Params :=
  positions.foldl (fun p position => p.set position x) p

theorem size_setAll {positions : List Nat} (inside : ∀ k ∈ positions, k ≤ p.size) :
    (p.setAll x positions).size = p.size := by
  induction positions generalizing p with
  | nil => rfl
  | cons first rest ih =>
    have same : (p.set first x).size = p.size := size_set (inside first (by simp))
    rw [← same]
    refine ih fun k mem => ?_
    rw [same]
    exact inside k (List.mem_cons_of_mem first mem)

theorem get?_setAll_of_not_mem {positions : List Nat} (other : k ∉ positions) :
    (p.setAll x positions).get? k = p.get? k := by
  induction positions generalizing p with
  | nil => rfl
  | cons first rest ih =>
    simp only [List.mem_cons, not_or] at other
    exact (ih other.2).trans (get?_set_of_ne (Ne.symm other.1))

theorem get?_setAll_of_mem {positions : List Nat} (mem : k ∈ positions) (counted : k ≠ 0) :
    (p.setAll x positions).get? k = some x := by
  induction positions generalizing p with
  | nil => cases mem
  | cons first rest ih =>
    by_cases later : k ∈ rest
    · exact ih later
    · obtain rfl := (List.mem_cons.mp mem).resolve_right later
      exact (get?_setAll_of_not_mem later).trans (get?_set_self p counted x)

theorem collect_map_some (position : Nat) (xs : List Param) :
    collect position (xs.map some) = .ok xs := by
  induction xs generalizing position with
  | nil => rfl
  | cons x xs ih =>
    rw [List.map_cons, collect, ih]
    rfl

theorem exists_map_some {slots : List (Option Param)}
    (filled : ∀ slot ∈ slots, slot.isSome = true) : ∃ xs : List Param, xs.map some = slots := by
  induction slots with
  | nil => exact ⟨[], rfl⟩
  | cons slot slots ih =>
    obtain ⟨x, rfl⟩ := Option.isSome_iff_exists.mp (filled slot (by simp))
    obtain ⟨xs, rfl⟩ := ih fun later mem => filled later (List.mem_cons_of_mem _ mem)
    exact ⟨x :: xs, rfl⟩

theorem exists_toList (filled : ∀ k, 1 ≤ k → k ≤ p.size → (p.get? k).isSome = true) :
    ∃ xs, p.toList = .ok xs ∧ xs.length = p.size ∧ ∀ i, xs[i]? = p.get? (i + 1) := by
  have whole : ∀ slot ∈ p.slots, slot.isSome = true := by
    intro slot mem
    obtain ⟨i, bound, rfl⟩ := List.mem_iff_getElem.mp mem
    have here := filled (i + 1) (Nat.le_add_left 1 i) bound
    simpa [get?, List.getElem?_eq_getElem bound] using here
  obtain ⟨xs, slots⟩ := exists_map_some whole
  refine ⟨xs, ?_, ?_, fun i => ?_⟩
  · rw [toList, ← slots, collect_map_some]
  · rw [size, ← slots, List.length_map]
  · rw [get?, if_neg (Nat.succ_ne_zero i), Nat.add_sub_cancel, ← slots, List.getElem?_map]
    cases xs[i]? <;> rfl

end Params

def Registry.parameter (registry : Registry) (t : TypeTag) (v : Value) : Except SqlError Param := do
  (← registry.handlerFor t).param (some v)

/-- The value of a variable in an execution: the one that overrides it, or else its own. -/
def LedgerEntry.given (overrides : List (BindName × Value)) (e : LedgerEntry) : Option Value :=
  (overrides.lookup e.bind.name).or e.bind.value

def LedgerEntry.parameter (registry : Registry) (overrides : List (BindName × Value))
    (e : LedgerEntry) : Except SqlError Param :=
  match e.given overrides with
  | none => .error (.unboundVariable e.bind.name.text)
  | some v =>
    if e.bind.type.admits v then registry.parameter e.bind.type v
    else .error (.typeConflict e.bind.name.text e.bind.type v.typeTag)

theorem LedgerEntry.parameter_eq_ok_iff {registry : Registry}
    {overrides : List (BindName × Value)} {e : LedgerEntry} {x : Param} :
    e.parameter registry overrides = .ok x ↔
      ∃ v handler, e.given overrides = some v ∧ e.bind.type.admits v = true ∧
        registry.handlerFor e.bind.type = .ok handler ∧ handler.param (some v) = .ok x := by
  unfold LedgerEntry.parameter
  cases e.given overrides with
  | none => simp
  | some v =>
    by_cases fits : e.bind.type.admits v = true
    · simp [fits, Registry.parameter, Except.bind_eq_ok_iff]
    · simp [fits]

namespace Statement

variable {registry : Registry} {overrides : List (BindName × Value)} {p p' : Params}
  {l : List LedgerEntry}

theorem bindAt_eq {t : TypeTag} {v : Value} {positions : List Nat} (some : positions ≠ []) :
    bindAt registry t v p positions =
      (registry.parameter t v).map fun x => p.setAll x positions := by
  induction positions generalizing p with
  | nil => exact absurd rfl some
  | cons first rest ih =>
    have step : ∀ p : Params, registry.bind p first t (Option.some v) =
        (registry.parameter t v).map fun x => p.set first x := by
      intro p
      unfold Registry.bind Registry.parameter
      cases registry.handlerFor t with
      | error e => rfl
      | ok handler =>
        cases known : handler.param (Option.some v) <;>
          simp [bind, Except.bind, known, Except.map]
    rw [bindAt, step]
    cases known : registry.parameter t v with
    | error e => rfl
    | ok x =>
      cases rest with
      | nil => rfl
      | cons second rest =>
        refine (ih (by simp)).trans ?_
        rw [known]
        rfl

theorem bindEntries_cons {e : LedgerEntry} (used : e.positions ≠ []) :
    bindEntries registry overrides p (e :: l) =
      (e.parameter registry overrides) >>= fun x =>
        bindEntries registry overrides (p.setAll x e.positions) l := by
  rw [bindEntries, LedgerEntry.parameter]
  change (match e.given overrides with | none => _ | some v => _) = _
  cases e.given overrides with
  | none => rfl
  | some v =>
    dsimp only
    split
    · rw [bindAt_eq used]
      cases registry.parameter e.bind.type v <;> rfl
    · rfl

theorem bindEntries_spec (used : ∀ e ∈ l, e.positions ≠ [])
    (distinct : (l.flatMap LedgerEntry.positions).Nodup)
    (inside : ∀ k ∈ l.flatMap LedgerEntry.positions, k ≠ 0 ∧ k ≤ p.size)
    (h : bindEntries registry overrides p l = .ok p') :
    p'.size = p.size ∧
    (∀ k, k ∉ l.flatMap LedgerEntry.positions → p'.get? k = p.get? k) ∧
    ∀ e ∈ l, ∃ x, e.parameter registry overrides = .ok x ∧
      ∀ k ∈ e.positions, p'.get? k = some x := by
  induction l generalizing p with
  | nil =>
    obtain rfl := Except.ok.inj h
    exact ⟨rfl, fun _ _ => rfl, by simp⟩
  | cons e l ih =>
    rw [bindEntries_cons (used e (by simp))] at h
    obtain ⟨x, made, rest⟩ := Except.bind_eq_ok_iff.mp h
    rw [List.flatMap_cons] at distinct inside
    obtain ⟨-, later, apart⟩ := List.nodup_append.mp distinct
    have size : (p.setAll x e.positions).size = p.size :=
      Params.size_setAll fun k mem => (inside k (List.mem_append_left _ mem)).2
    obtain ⟨room, others, set⟩ := ih (fun f mem => used f (List.mem_cons_of_mem e mem)) later
      (fun k mem => size.symm ▸ inside k (List.mem_append_right _ mem)) rest
    refine ⟨room.trans size, fun k other => ?_, fun f mem => ?_⟩
    · simp only [List.flatMap_cons, List.mem_append, not_or] at other
      exact (others k other.2).trans (Params.get?_setAll_of_not_mem other.1)
    · rcases List.mem_cons.mp mem with rfl | mem
      · refine ⟨x, made, fun k here => ?_⟩
        have elsewhere : k ∉ l.flatMap LedgerEntry.positions := fun there =>
          apart k here k there rfl
        rw [others k elsewhere]
        exact Params.get?_setAll_of_mem here (inside k (List.mem_append_left _ here)).1
      · exact set f mem

end Statement

namespace Query

variable {r : Renderer} {stmt : Statement}

theorem sound_render (q : Query) (h : q.render r = .ok stmt) :
    Ledger.Sound stmt.placeholderCount stmt.ledger := by
  obtain ⟨b, held, rfl⟩ := holds_render (PrintOrder.fits_ofRenderer r) q h
  rw [held.placeholderCount]
  exact Ledger.sound_ofUses held.ledger

end Query

namespace Ledger

variable {count k : Nat} {l : Ledger}

theorem Sound.nodup_positions (h : Sound count l) : (l.flatMap LedgerEntry.positions).Nodup :=
  h.covered.nodup_iff.mpr (List.nodup_range' 1)

theorem Sound.mem_positions_iff (h : Sound count l) :
    k ∈ l.flatMap LedgerEntry.positions ↔ 1 ≤ k ∧ k ≤ count := by
  rw [h.covered.mem_iff, List.mem_range'_1]
  omega

theorem eq_of_mem_positions (distinct : (l.flatMap LedgerEntry.positions).Nodup)
    {e f : LedgerEntry} (here : e ∈ l) (there : f ∈ l) (first : k ∈ e.positions)
    (second : k ∈ f.positions) : e = f := by
  by_contra other
  have symm : Std.Symm (Function.onFun List.Disjoint LedgerEntry.positions) :=
    ⟨fun _ _ apart _ first second => apart second first⟩
  exact (List.nodup_flatMap.mp distinct).2.forall here there other first second

end Ledger

namespace Query

variable {r : Renderer} {stmt : Statement} {registry : Registry}
  {overrides : List (BindName × Value)} {params : Params}

/-- Where the parameters of a rendered statement can be made, there is one for each placeholder. It
is what the handler of a variable's type makes of the variable's value, and the variable is the only
one with that position. -/
theorem bindParams_filled (q : Query) (h : q.render r = .ok stmt)
    (bound : stmt.bindParams registry overrides = .ok params) :
    params.size = stmt.placeholderCount ∧
    (∃ xs, params.toList = .ok xs ∧ xs.length = params.size) ∧
    ∀ k, 1 ≤ k → k ≤ params.size →
      ∃ e ∈ stmt.ledger, k ∈ e.positions ∧ (∀ f ∈ stmt.ledger, k ∈ f.positions → f = e) ∧
        ∃ (v : Value) (handler : Handler) (x : Param),
          (overrides.lookup e.bind.name).or e.bind.value = some v ∧
          registry.handlerFor e.bind.type = .ok handler ∧ handler.param (some v) = .ok x ∧
          params.get? k = some x := by
  have sound := sound_render q h
  have room : (Params.ofSize stmt.placeholderCount).size = stmt.placeholderCount := by
    simp [Params.size, Params.ofSize]
  have inside : ∀ k ∈ stmt.ledger.flatMap LedgerEntry.positions,
      k ≠ 0 ∧ k ≤ (Params.ofSize stmt.placeholderCount).size := by
    intro k mem
    obtain ⟨counted, bounded⟩ := sound.mem_positions_iff.mp mem
    exact ⟨Nat.ne_of_gt counted, room.symm ▸ bounded⟩
  obtain ⟨size, -, set⟩ :=
    Statement.bindEntries_spec sound.used sound.nodup_positions inside bound
  rw [room] at size
  have filled : ∀ k, 1 ≤ k → k ≤ params.size → ∃ e ∈ stmt.ledger, k ∈ e.positions ∧
      ∃ x, e.parameter registry overrides = .ok x ∧ params.get? k = some x := by
    intro k counted bounded
    have mem := sound.mem_positions_iff.mpr ⟨counted, size ▸ bounded⟩
    obtain ⟨e, known, here⟩ := List.mem_flatMap.mp mem
    obtain ⟨x, made, slots⟩ := set e known
    exact ⟨e, known, here, x, made, slots k here⟩
  refine ⟨size, ?_, fun k counted bounded => ?_⟩
  · obtain ⟨xs, all, length, -⟩ := Params.exists_toList fun k counted bounded => by
      obtain ⟨e, -, -, x, -, slot⟩ := filled k counted bounded
      rw [slot]
      rfl
    exact ⟨xs, all, length⟩
  · obtain ⟨e, known, here, x, made, slot⟩ := filled k counted bounded
    obtain ⟨v, handler, given, -, lookup, encoded⟩ := LedgerEntry.parameter_eq_ok_iff.mp made
    exact ⟨e, known, here, fun f mem there =>
      Ledger.eq_of_mem_positions sound.nodup_positions mem known there here,
      v, handler, x, given, lookup, encoded, slot⟩

def sampleRegistry : Registry :=
  Registry.defaults.register .any (.domain "CUSTOMER" .int)

theorem bindParams_sample :
    sampleStatement.bindParams sampleRegistry
        [(⟨"B", by decide⟩, .domain "customer" (.int 7)), (⟨"A", by decide⟩, .text "x")] =
      .ok ⟨[some (.value (.text "x")), some (.value (.int 7)), some (.value (.text "x")),
        some (.value (.int 7))]⟩ := by
  decide +kernel

theorem bindParams_filled_sample :
    ∃ params, sampleStatement.bindParams sampleRegistry
        [(⟨"B", by decide⟩, .domain "customer" (.int 7)), (⟨"A", by decide⟩, .text "x")] =
      .ok params ∧
    params.size = sampleStatement.placeholderCount ∧
    (∃ xs, params.toList = .ok xs ∧ xs.length = params.size) ∧
    ∀ k, 1 ≤ k → k ≤ params.size →
      ∃ e ∈ sampleStatement.ledger, k ∈ e.positions ∧
        (∀ f ∈ sampleStatement.ledger, k ∈ f.positions → f = e) ∧
        ∃ (v : Value) (handler : Handler) (x : Param),
          (List.lookup e.bind.name [(⟨"B", by decide⟩, .domain "customer" (.int 7)),
            (⟨"A", by decide⟩, .text "x")]).or e.bind.value = some v ∧
          sampleRegistry.handlerFor e.bind.type = .ok handler ∧
          handler.param (some v) = .ok x ∧ params.get? k = some x :=
  ⟨_, bindParams_sample, bindParams_filled sample render_sample bindParams_sample⟩

end Query

/-- Types that stand above others; no value has one of them as its own type. -/
def TypeTag.isAbstract : TypeTag → Bool
  | any | number | temporal => true
  | _ => false

theorem Registry.parameter_defaults {t : TypeTag} {v : Value} (fits : t.admits v = true)
    (base : v.isDomain = false) : Registry.defaults.parameter t v =
      if t.isAbstract then .error (.noHandler t) else .ok (.value v) := by
  simp only [TypeTag.admits, TypeTag.accepts, List.contains_eq_mem, decide_eq_true_eq] at fits
  cases v with
  | domain name base' => cases base
  | _ =>
    simp only [Value.typeTag, TypeTag.chain, TypeTag.supertypes, List.mem_cons,
      List.not_mem_nil, or_false] at fits
    rcases fits with rfl | rfl | rfl <;> rfl

/-- Every variable has a value of its type, and the value is of no domain. -/
def Ledger.Given (overrides : List (BindName × Value)) (l : Ledger) : Prop :=
  ∀ e ∈ l, ∃ v : Value, (overrides.lookup e.bind.name).or e.bind.value = some v ∧
    e.bind.type.admits v = true ∧ v.isDomain = false

theorem LedgerEntry.parameter_defaults {overrides : List (BindName × Value)} {e : LedgerEntry}
    {v : Value} (given : e.given overrides = some v) (fits : e.bind.type.admits v = true)
    (base : v.isDomain = false) : e.parameter .defaults overrides =
      if e.bind.type.isAbstract then .error (.noHandler e.bind.type) else .ok (.value v) := by
  rw [LedgerEntry.parameter, given]
  exact (if_pos fits).trans (Registry.parameter_defaults fits base)

namespace Statement

variable {overrides : List (BindName × Value)} {p : Params} {l : Ledger}

theorem bindEntries_unserved (used : ∀ e ∈ l, e.positions ≠ []) (given : l.Given overrides)
    {t : TypeTag} (first : (l.map fun e => e.bind.type).find? TypeTag.isAbstract = some t) :
    bindEntries .defaults overrides p l = .error (.noHandler t) := by
  induction l generalizing p with
  | nil => cases first
  | cons e l ih =>
    obtain ⟨v, value, fits, base⟩ := given e (by simp)
    have here := LedgerEntry.parameter_defaults value fits base
    rw [bindEntries_cons (used e (by simp)), here]
    rw [List.map_cons, List.find?_cons] at first
    cases abstract : e.bind.type.isAbstract with
    | true =>
      rw [abstract] at first
      obtain rfl := Option.some.inj first
      rfl
    | false =>
      rw [abstract] at first
      exact ih (fun f mem => used f (List.mem_cons_of_mem e mem))
        (fun f mem => given f (List.mem_cons_of_mem e mem)) first

theorem exists_bindEntries (used : ∀ e ∈ l, e.positions ≠ []) (given : l.Given overrides)
    (served : ∀ e ∈ l, e.bind.type.isAbstract = false) :
    ∃ params, bindEntries .defaults overrides p l = .ok params := by
  induction l generalizing p with
  | nil => exact ⟨p, rfl⟩
  | cons e l ih =>
    obtain ⟨v, value, fits, base⟩ := given e (by simp)
    have here := LedgerEntry.parameter_defaults value fits base
    rw [served e (by simp)] at here
    rw [bindEntries_cons (used e (by simp)), here]
    exact ih (fun f mem => used f (List.mem_cons_of_mem e mem))
      (fun f mem => given f (List.mem_cons_of_mem e mem))
      (fun f mem => served f (List.mem_cons_of_mem e mem))

end Statement

namespace Query

variable {r : Renderer} {stmt : Statement} {overrides : List (BindName × Value)}

/-- Where each variable of a rendered statement has a value, the default handlers make the
parameters if no variable has an abstract type, and otherwise they miss a handler for the first
such type. -/
theorem bindParams_defaults (q : Query) (h : q.render r = .ok stmt)
    (given : stmt.ledger.Given overrides) :
    ((∀ e ∈ stmt.ledger, e.bind.type.isAbstract = false) →
      ∃ params, stmt.bindParams .defaults overrides = .ok params) ∧
    ∀ t, (stmt.ledger.map fun e => e.bind.type).find? TypeTag.isAbstract = some t →
      stmt.bindParams .defaults overrides = .error (.noHandler t) := by
  have sound := sound_render q h
  exact ⟨fun served => Statement.exists_bindEntries sound.used given served,
    fun t first => Statement.bindEntries_unserved sound.used given first⟩

theorem given_sample : sampleStatement.ledger.Given
    [(⟨"A", by decide⟩, .text "x"), (⟨"B", by decide⟩, .int 7)] := by
  intro e mem
  rcases List.mem_pair.mp mem with rfl | rfl
  · exact ⟨.text "x", by decide, by decide, rfl⟩
  · exact ⟨.int 7, by decide, by decide, rfl⟩

def servedSample : Query :=
  let t : BindName := ⟨"T", by decide⟩
  .expr (.call .add [.bind (.unvalued t .number), .bind (.ofValue t (.int 5)),
    .bind (.unvalued ⟨"U", by decide⟩ .int)] .number)

/-- `? + ? + ?`, where one variable stands twice. -/
def servedStatement : Statement :=
  let sign := " + ".toList.map Cell.char
  ⟨.marker 1 :: sign ++ .marker 2 :: sign ++ [.marker 3],
    [⟨.ofValue ⟨"T", by decide⟩ (.int 5), [1, 2]⟩, ⟨.unvalued ⟨"U", by decide⟩ .int, [3]⟩],
    .question⟩

theorem render_served : servedSample.render .defaults = .ok servedStatement := by
  decide +kernel

theorem given_served : servedStatement.ledger.Given [(⟨"U", by decide⟩, .int 7)] := by
  intro e mem
  rcases List.mem_pair.mp mem with rfl | rfl
  · exact ⟨.int 5, by decide, by decide, rfl⟩
  · exact ⟨.int 7, by decide, by decide, rfl⟩

/-- A variable that is a number in one place and an integer in another has its parameters; one of
any type has none. -/
theorem bindParams_defaults_sample :
    (∃ params, servedStatement.bindParams .defaults [(⟨"U", by decide⟩, .int 7)] = .ok params) ∧
    sampleStatement.bindParams .defaults
        [(⟨"A", by decide⟩, .text "x"), (⟨"B", by decide⟩, .int 7)] =
      .error (.noHandler .any) :=
  ⟨(bindParams_defaults servedSample render_served given_served).1 (by decide),
    (bindParams_defaults sample render_sample given_sample).2 .any (by decide +kernel)⟩

def unserved : BindVariable :=
  ⟨⟨['N'], by decide⟩, .number, some (.int 1), Eq.refl true⟩

def unservedStatement : Statement :=
  ⟨[.marker 1], [⟨unserved, [1]⟩], .question⟩

/-- A variable may be made with a value of a narrower type, which the default handlers know; still
there is no handler for the variable. -/
theorem bindParams_unserved :
    BindVariable.withValue ⟨"N", by decide⟩ .number (.int 1) = .ok unserved ∧
    (expr (.bind unserved)).render .defaults = .ok unservedStatement ∧
    unservedStatement.ledger.Given [] ∧
    unservedStatement.bindParams .defaults [] = .error (.noHandler .number) := by
  refine ⟨by decide +kernel, by decide +kernel, fun e mem => ?_, by decide +kernel⟩
  obtain rfl := List.mem_singleton.mp mem
  exact ⟨.int 1, by decide, by decide, rfl⟩

end Query

end SqlCompose
