import Mathlib.Data.List.Forall2
import SqlCompose.Query.Condition
import SqlCompose.Proofs.Binding

/-! Trees whose columns and fragments lose their types. A call is checked when it is made, against
the types of its arguments, so the types of a tree are found from below. An argument of unknown
type is accepted everywhere, and the calls above it come to be of the same type as before or of
an unknown one. Only arithmetic is different: a sum of integers one of which is unknown is a
number, which is not accepted where an integer was. -/

namespace SqlCompose

/-- The type stays what it is or becomes unknown. -/
def TypeTag.Fades (t t' : TypeTag) : Prop :=
  t' = .any ∨ t' = t

/-- All arguments have one type that is not the type of all numbers, and then some of them become
unknown and some do not. -/
def ResultRule.Splits (rule : ResultRule) (types types' : List TypeTag) : Prop :=
  rule = .commonNumeric ∧
    ∃ t, t ≠ .any ∧ t ≠ .number ∧ (∀ s ∈ types, s = t) ∧ .any ∈ types' ∧ t ∈ types'

namespace TypeTag

variable {t' : TypeTag} {types types' : List TypeTag}

theorem Fades.exists_of_mem (h : List.Forall₂ Fades types types') (mem : t' ∈ types') :
    t' = .any ∨ t' ∈ types := by
  induction h with
  | nil => cases mem
  | cons first rest ih =>
    obtain rfl | mem := List.mem_cons.mp mem
    · exact first.imp_right fun same => by simp [same]
    · exact (ih mem).imp_right (List.mem_cons_of_mem _)

end TypeTag

variable {types types' : List TypeTag} {t : TypeTag}

theorem knownType_eq_none_iff : knownType types = none ↔ ∀ s ∈ types, s = .any := by
  simp [knownType]

theorem knownType_eq_some (h : knownType types = some t) : t ∈ types ∧ t ≠ .any :=
  ⟨List.mem_of_find?_eq_some h, by simpa using List.find?_some h⟩

theorem isCompatible_fades {wanted given given' : TypeTag} (h : given.Fades given')
    (fits : isCompatible wanted given = true) : isCompatible wanted given' = true := by
  obtain rfl | rfl := h
  · rfl
  · exact fits

namespace ArgumentRule

theorem checkEach_fades (h : List.Forall₂ TypeTag.Fades types types') (number : Nat)
    (wanted : List TypeTag) (fits : checkEach number wanted types = .ok ()) :
    checkEach number wanted types' = .ok () := by
  induction h generalizing number wanted with
  | nil => exact fits
  | cons first rest ih =>
    cases wanted with
    | nil => rfl
    | cons w ws =>
      simp only [checkEach] at fits ⊢
      split at fits
      · next compatible =>
        rw [if_pos (isCompatible_fades first compatible)]
        exact ih _ _ fits
      · cases fits

theorem checkSame_eq_ok_iff (wanted : TypeTag) (number : Nat) (types : List TypeTag) :
    checkSame wanted number types = .ok () ↔ ∀ t ∈ types, t = .any ∨ t = wanted := by
  induction types generalizing number with
  | nil => simp [checkSame]
  | cons t types ih =>
    simp only [checkSame, List.forall_mem_cons]
    split
    · next fits => simp [fits, ih]
    · next differs => simp [differs]

theorem knownType_fades (h : List.Forall₂ TypeTag.Fades types types')
    (shared : ∀ t ∈ types, t = .any ∨ t = (knownType types).getD .any) :
    ((knownType types).getD .any).Fades ((knownType types').getD .any) := by
  cases known : knownType types' with
  | none => exact .inl rfl
  | some t =>
    obtain ⟨mem, some⟩ := knownType_eq_some known
    have before := (TypeTag.Fades.exists_of_mem h mem).resolve_left some
    exact .inr ((shared t before).resolve_left some)

theorem checkSame_fades (h : List.Forall₂ TypeTag.Fades types types')
    (fits : sameType.check types = .ok ()) : sameType.check types' = .ok () := by
  simp only [check, checkSame_eq_ok_iff] at fits ⊢
  intro t mem
  cases known : knownType types' with
  | none => exact .inl (knownType_eq_none_iff.mp known t mem)
  | some s =>
    refine Classical.or_iff_not_imp_left.mpr fun some => ?_
    have same := (fits t ((TypeTag.Fades.exists_of_mem h mem).resolve_left some)).resolve_left some
    have faded := knownType_fades h fits
    rw [known, ← same] at faded
    exact (faded.resolve_left (knownType_eq_some known).2).symm

theorem check_fades (rule : ArgumentRule) (h : List.Forall₂ TypeTag.Fades types types')
    (fits : rule.check types = .ok ()) : rule.check types' = .ok () := by
  cases rule with
  | each wanted => exact checkEach_fades h 1 wanted fits
  | sameType => exact checkSame_fades h fits

end ArgumentRule

namespace ResultRule

theorem commonNumeric_cases (types : List TypeTag) :
    (∃ t ∈ types, (∀ s ∈ types, s = t) ∧ commonNumeric.type types = t) ∨
    ((∀ t ∈ types, ∃ s ∈ types, s ≠ t) ∧ commonNumeric.type types = .number) := by
  cases types with
  | nil => exact .inr ⟨nofun, rfl⟩
  | cons t rest =>
    simp only [type]
    split
    · next all =>
      have shared : ∀ s ∈ rest, s = t := by simpa using all
      exact .inl ⟨t, List.mem_cons_self, by simpa using shared, rfl⟩
    · next differ =>
      refine .inr ⟨fun u _ => ?_, rfl⟩
      obtain ⟨s, mem, other⟩ : ∃ s ∈ rest, s ≠ t := by simpa using differ
      by_cases first : t = u
      · exact ⟨s, List.mem_cons_of_mem _ mem, first ▸ other⟩
      · exact ⟨t, List.mem_cons_self, first⟩

theorem eq_of_known (h : List.Forall₂ TypeTag.Fades types types') (known : .any ∉ types') :
    types' = types := by
  induction h with
  | nil => rfl
  | cons first rest ih =>
    simp only [List.mem_cons, not_or] at known
    rw [first.resolve_left (Ne.symm known.1), ih known.2]

theorem commonNumeric_fades (h : List.Forall₂ TypeTag.Fades types types')
    (whole : ¬commonNumeric.Splits types types') :
    (commonNumeric.type types).Fades (commonNumeric.type types') := by
  obtain ⟨t', mem', all', type'⟩ | ⟨differ', type'⟩ := commonNumeric_cases types'
  · by_cases unknown : t' = .any
    · exact .inl (type'.trans unknown)
    · have same := eq_of_known h fun mem => unknown (all' .any mem).symm
      exact .inr (congrArg _ same)
  · obtain ⟨t, mem, all, type⟩ | ⟨-, type⟩ := commonNumeric_cases types
    · rw [type, type']
      by_cases number : t = .number
      · exact .inr number.symm
      have kept : ∀ s ∈ types', s = .any ∨ s = t := fun s mem =>
        (TypeTag.Fades.exists_of_mem h mem).imp_right (all s)
      -- Two arguments differ, so one of them is unknown and the other is not.
      obtain ⟨s, first⟩ : ∃ s, s ∈ types' :=
        List.exists_mem_of_ne_nil types' (by rintro rfl; cases h; cases mem)
      obtain ⟨u, second, other⟩ := differ' s first
      have mixed : t ≠ .any ∧ .any ∈ types' ∧ t ∈ types' := by
        obtain rfl | rfl := kept s first <;> obtain rfl | rfl := kept u second
        · exact absurd rfl other
        · exact ⟨other, first, second⟩
        · exact ⟨other.symm, second, first⟩
        · exact absurd rfl other
      exact absurd ⟨rfl, t, mixed.1, number, all, mixed.2⟩ whole
    · exact .inr (type'.trans type.symm)

theorem type_of_splits {rule : ResultRule} (h : List.Forall₂ TypeTag.Fades types types')
    (split : rule.Splits types types') :
    rule.type types ≠ .any ∧ rule.type types ≠ .number ∧ rule.type types' = .number := by
  obtain ⟨rfl, t, known, narrow, all, unknown, kept⟩ := split
  have before := (TypeTag.Fades.exists_of_mem h kept).resolve_left known
  have type : commonNumeric.type types = t := by
    obtain ⟨s, mem, -, type⟩ | ⟨differ, -⟩ := commonNumeric_cases types
    · exact type.trans (all s mem)
    · obtain ⟨s, mem, other⟩ := differ t before
      exact absurd (all s mem) other
  refine ⟨type ▸ known, type ▸ narrow, ?_⟩
  obtain ⟨s, -, all', -⟩ | ⟨-, type'⟩ := commonNumeric_cases types'
  · exact absurd ((all' t kept).trans (all' .any unknown).symm) known
  · exact type'

end ResultRule

namespace BuiltIn

variable {f : BuiltIn}

theorem resultType_eq_ok_iff : f.resultType types = .ok t ↔
    f.spec.takes types.length = true ∧ f.spec.arguments.check types = .ok () ∧
      f.spec.result.type types = t := by
  simp only [resultType]
  cases f.spec.takes types.length <;> cases f.spec.arguments.check types <;> simp

theorem arguments_of_firstKnown (h : f.spec.result = .firstKnown) :
    f.spec.arguments = .sameType := by
  cases f <;> first | rfl | cases h

/-- A call still passes when arguments become unknown. It is of its old type or of an unknown one,
but for arithmetic that is split, which is of the type of all numbers. -/
theorem resultType_fades (h : List.Forall₂ TypeTag.Fades types types')
    (made : f.resultType types = .ok t) :
    ∃ t', f.resultType types' = .ok t' ∧
      (¬f.spec.result.Splits types types' → t.Fades t') ∧
      (f.spec.result.Splits types types' → t ≠ .any ∧ t ≠ .number ∧ t' = .number) := by
  obtain ⟨takes, fits, rfl⟩ := resultType_eq_ok_iff.mp made
  rw [h.length_eq] at takes
  have checked := ArgumentRule.check_fades f.spec.arguments h fits
  refine ⟨_, resultType_eq_ok_iff.mpr ⟨takes, checked, rfl⟩, fun whole => ?_,
    ResultRule.type_of_splits h⟩
  cases rule : f.spec.result with
  | fixed t => exact .inr rfl
  | firstKnown =>
    rw [arguments_of_firstKnown rule] at fits
    exact ArgumentRule.knownType_fades h ((ArgumentRule.checkSame_eq_ok_iff _ _ _).mp fits)
  | commonNumeric =>
    rw [rule] at whole
    exact ResultRule.commonNumeric_fades h whole

end BuiltIn

namespace Comparison

variable {op : Comparison} {left left' right right' : TypeTag}

def Takes (op : Comparison) (t : TypeTag) : Prop :=
  (op.isOrdering = true → t.isOrderable = true) ∧ (op = .like → t = .text)

theorem check_eq_ok_iff : op.check left right = .ok () ↔
    (left = right ∨ left = .any ∨ right = .any) ∧
      ∀ t, knownType [left, right] = some t → op.Takes t := by
  simp only [check]
  split
  · next differ => simp [differ]
  · next same =>
    have alike : left = right ∨ left = .any ∨ right = .any := by grind
    cases known : knownType [left, right] with
    | none => simp [alike]
    | some t =>
      cases op <;> cases ordered : t.isOrderable <;> simp [alike, Takes, isOrdering, ordered]

theorem check_fades (h : left.Fades left') (g : right.Fades right')
    (fits : op.check left right = .ok ()) : op.check left' right' = .ok () := by
  obtain ⟨same, takes⟩ := check_eq_ok_iff.mp fits
  refine check_eq_ok_iff.mpr ⟨?_, fun t known => takes t ?_⟩
  · obtain rfl | rfl := h
    · exact .inr (.inl rfl)
    · obtain rfl | rfl := g
      · exact .inr (.inr rfl)
      · exact same
  · obtain ⟨mem, some⟩ := knownType_eq_some known
    have before := TypeTag.Fades.exists_of_mem (.cons h (.cons g .nil)) mem
    obtain rfl | rfl : t = left ∨ t = right := by simpa [some] using before
    · simp [knownType, some]
    · obtain rfl | rfl | rfl := same <;> simp_all [knownType]

theorem check_number (op : Comparison) (known : t ≠ .any) (narrow : t ≠ .number) :
    op.check .number t = .error (.misuse op.name (.operandsDiffer .number t)) ∧
    op.check t .number = .error (.misuse op.name (.operandsDiffer t .number)) := by
  simp [check, narrow, Ne.symm narrow, known]

end Comparison

mutual

/-- Makes the tree anew, with all calls checked, from the innermost ones outwards. -/
def Expr.remake : Expr → Except SqlError Expr
  | .call f args _ => do Expr.apply f (← Expr.remakeAll args)
  | .literal v => .ok (.literal v)
  | .column c => .ok (.column c)
  | .bind v => .ok (.bind v)
  | .raw sql type => .ok (.raw sql type)

def Expr.remakeAll : List Expr → Except SqlError (List Expr)
  | [] => .ok []
  | e :: es => do .ok ((← e.remake) :: (← Expr.remakeAll es))

end

mutual

def Condition.remake : Condition → Except SqlError Condition
  | .compare left op right => do Condition.ofComparison (← left.remake) op (← right.remake)
  | .isNull e negated => do .ok (.isNull (← e.remake) negated)
  | .and cs => do .ok (.and (← Condition.remakeAll cs))
  | .or cs => do .ok (.or (← Condition.remakeAll cs))
  | .not c => do .ok (.not (← c.remake))
  | .raw sql => .ok (.raw sql)
  | .empty => .ok .empty

def Condition.remakeAll : List Condition → Except SqlError (List Condition)
  | [] => .ok []
  | c :: cs => do .ok ((← c.remake) :: (← Condition.remakeAll cs))

end

mutual

def Expr.madeType : Expr → TypeTag
  | .call f args _ => f.spec.result.type (Expr.madeTypes args)
  | .literal v => v.typeTag
  | .column c => c.type
  | .bind v => v.type
  | .raw _ type => type

def Expr.madeTypes : List Expr → List TypeTag
  | [] => []
  | e :: es => e.madeType :: Expr.madeTypes es

end

mutual

/-- The same tree, but columns and fragments may have become of unknown type. The types of the
calls are found anew. -/
def Expr.Fades : Expr → Expr → Prop
  | .literal v, .literal w => w = v
  | .column c, .column d => d.table = c.table ∧ d.column = c.column ∧ c.type.Fades d.type
  | .bind v, .bind w => w = v
  | .call f args _, .call g brgs _ => g = f ∧ Expr.FadesAll args brgs
  | .raw a s, .raw b t => b = a ∧ s.Fades t
  | _, _ => False

def Expr.FadesAll : List Expr → List Expr → Prop
  | [], [] => True
  | e :: es, e' :: es' => e.Fades e' ∧ Expr.FadesAll es es'
  | _, _ => False

end

mutual

def Condition.Fades : Condition → Condition → Prop
  | .compare l op r, .compare l' op' r' => op' = op ∧ l.Fades l' ∧ r.Fades r'
  | .isNull e negated, .isNull e' negated' => negated' = negated ∧ e.Fades e'
  | .and cs, .and ds => Condition.FadesAll cs ds
  | .or cs, .or ds => Condition.FadesAll cs ds
  | .not c, .not d => c.Fades d
  | .raw a, .raw b => b = a
  | .empty, .empty => True
  | _, _ => False

def Condition.FadesAll : List Condition → List Condition → Prop
  | [], [] => True
  | c :: cs, d :: ds => c.Fades d ∧ Condition.FadesAll cs ds
  | _, _ => False

end

mutual

/-- No arithmetic is split. -/
def Expr.Whole : Expr → Expr → Prop
  | .call f args _, .call _ brgs _ =>
    ¬f.spec.result.Splits (Expr.madeTypes args) (Expr.madeTypes brgs) ∧ Expr.WholeAll args brgs
  | _, _ => True

def Expr.WholeAll : List Expr → List Expr → Prop
  | e :: es, e' :: es' => e.Whole e' ∧ Expr.WholeAll es es'
  | _, _ => True

end

mutual

def Condition.Whole : Condition → Condition → Prop
  | .compare l _ r, .compare l' _ r' => l.Whole l' ∧ r.Whole r'
  | .isNull e _, .isNull e' _ => e.Whole e'
  | .and cs, .and ds => Condition.WholeAll cs ds
  | .or cs, .or ds => Condition.WholeAll cs ds
  | .not c, .not d => c.Whole d
  | _, _ => True

def Condition.WholeAll : List Condition → List Condition → Prop
  | c :: cs, d :: ds => c.Whole d ∧ Condition.WholeAll cs ds
  | _, _ => True

end

namespace Expr

theorem apply_eq_ok_iff {f : BuiltIn} {args : List Expr} {e : Expr} : apply f args = .ok e ↔
    ∃ type, f.resultType (args.map typeTag) = .ok type ∧ .call f args type = e := by
  simp [apply, Except.bind_eq_ok_iff]

mutual

theorem typeTag_of_remake : (e : Expr) → {m : Expr} → e.remake = .ok m → m.typeTag = e.madeType
  | .literal v, m, made => by cases made; rfl
  | .column c, m, made => by cases made; rfl
  | .bind v, m, made => by cases made; rfl
  | .raw sql type, m, made => by cases made; rfl
  | .call f args _, m, made => by
    simp only [remake, Except.bind_eq_ok_iff] at made
    obtain ⟨as, all, made⟩ := made
    obtain ⟨type, checked, rfl⟩ := apply_eq_ok_iff.mp made
    rw [typeTags_of_remakeAll args all] at checked
    exact (BuiltIn.resultType_eq_ok_iff.mp checked).2.2.symm

theorem typeTags_of_remakeAll : (es : List Expr) → {ms : List Expr} →
    remakeAll es = .ok ms → ms.map typeTag = madeTypes es
  | [], ms, made => by cases made; rfl
  | e :: es, ms, made => by
    simp only [remakeAll, Except.bind_eq_ok_iff] at made
    obtain ⟨m, first, ms, rest, ⟨⟩⟩ := made
    simp only [List.map_cons, madeTypes, typeTag_of_remake e first, typeTags_of_remakeAll es rest]

end

mutual

theorem remake_fades : (e e' : Expr) → {m : Expr} → e.Fades e' → e.Whole e' →
    e.remake = .ok m → ∃ m', e'.remake = .ok m' ∧ m.typeTag.Fades m'.typeTag
  | .literal v, e', m, fades, _, made => by
    cases e' <;> try exact fades.elim
    cases made
    exact ⟨_, rfl, .inr (congrArg Value.typeTag fades)⟩
  | .column c, e', m, fades, _, made => by
    cases e' <;> try exact fades.elim
    cases made
    exact ⟨_, rfl, fades.2.2⟩
  | .bind v, e', m, fades, _, made => by
    cases e' <;> try exact fades.elim
    cases made
    exact ⟨_, rfl, .inr (congrArg BindVariable.type fades)⟩
  | .raw sql type, e', m, fades, _, made => by
    cases e' <;> try exact fades.elim
    cases made
    exact ⟨_, rfl, fades.2⟩
  | .call f args _, e', m, fades, whole, made => by
    cases e' <;> try exact fades.elim
    next g brgs _ =>
    obtain ⟨rfl, fades⟩ := fades
    obtain ⟨whole, each⟩ := whole
    simp only [remake, Except.bind_eq_ok_iff] at made ⊢
    obtain ⟨as, all, made⟩ := made
    obtain ⟨type, checked, rfl⟩ := apply_eq_ok_iff.mp made
    obtain ⟨bs, all', types⟩ := remakeAll_fades args brgs fades each all
    obtain ⟨type', checked', steady, -⟩ := BuiltIn.resultType_fades types checked
    rw [typeTags_of_remakeAll args all, typeTags_of_remakeAll brgs all'] at steady
    exact ⟨_, ⟨bs, all', apply_eq_ok_iff.mpr ⟨type', checked', rfl⟩⟩, steady whole⟩

theorem remakeAll_fades : (es es' : List Expr) → {ms : List Expr} → FadesAll es es' →
    WholeAll es es' → remakeAll es = .ok ms →
    ∃ ms', remakeAll es' = .ok ms' ∧
      List.Forall₂ TypeTag.Fades (ms.map typeTag) (ms'.map typeTag)
  | [], es', ms, fades, _, made => by
    cases es' <;> try exact fades.elim
    cases made
    exact ⟨[], rfl, .nil⟩
  | e :: es, es', ms, fades, whole, made => by
    cases es' <;> try exact fades.elim
    next e' es' =>
    simp only [remakeAll, Except.bind_eq_ok_iff] at made ⊢
    obtain ⟨m, first, ms, rest, ⟨⟩⟩ := made
    obtain ⟨m', first', type⟩ := remake_fades e e' fades.1 whole.1 first
    obtain ⟨ms', rest', types⟩ := remakeAll_fades es es' fades.2 whole.2 rest
    exact ⟨m' :: ms', ⟨m', first', ms', rest', rfl⟩, .cons type types⟩

end

end Expr

namespace Condition

theorem ofComparison_eq_ok_iff {left right : Expr} {op : Comparison} {c : Condition} :
    ofComparison left op right = .ok c ↔
      op.check left.typeTag right.typeTag = .ok () ∧ .compare left op right = c := by
  simp only [ofComparison, Except.bind_eq_ok_iff, Except.ok.injEq]
  exact ⟨fun ⟨(), fits, made⟩ => ⟨fits, made⟩, fun ⟨fits, made⟩ => ⟨(), fits, made⟩⟩

mutual

theorem remake_fades : (c d : Condition) → {m : Condition} → c.Fades d → c.Whole d →
    c.remake = .ok m → ∃ n, d.remake = .ok n
  | .compare left op right, d, m, fades, whole, made => by
    cases d <;> try exact fades.elim
    next left' op' right' =>
    obtain ⟨rfl, fades, fades'⟩ := fades
    simp only [remake, Except.bind_eq_ok_iff] at made ⊢
    obtain ⟨l, madeLeft, r, madeRight, made⟩ := made
    obtain ⟨fits, -⟩ := ofComparison_eq_ok_iff.mp made
    obtain ⟨l', madeLeft', type⟩ := Expr.remake_fades left left' fades whole.1 madeLeft
    obtain ⟨r', madeRight', type'⟩ := Expr.remake_fades right right' fades' whole.2 madeRight
    have checked := Comparison.check_fades type type' fits
    exact ⟨_, l', madeLeft', r', madeRight', ofComparison_eq_ok_iff.mpr ⟨checked, rfl⟩⟩
  | .isNull e negated, d, m, fades, whole, made => by
    cases d <;> try exact fades.elim
    next e' negated' =>
    simp only [remake, Except.bind_eq_ok_iff] at made ⊢
    obtain ⟨x, made, -⟩ := made
    obtain ⟨x', made', -⟩ := Expr.remake_fades e e' fades.2 whole made
    exact ⟨_, x', made', rfl⟩
  | .and cs, d, m, fades, whole, made => by
    cases d <;> try exact fades.elim
    next ds =>
    simp only [remake, Except.bind_eq_ok_iff] at made ⊢
    obtain ⟨ms, made, -⟩ := made
    obtain ⟨ns, made'⟩ := remakeAll_fades cs ds fades whole made
    exact ⟨_, ns, made', rfl⟩
  | .or cs, d, m, fades, whole, made => by
    cases d <;> try exact fades.elim
    next ds =>
    simp only [remake, Except.bind_eq_ok_iff] at made ⊢
    obtain ⟨ms, made, -⟩ := made
    obtain ⟨ns, made'⟩ := remakeAll_fades cs ds fades whole made
    exact ⟨_, ns, made', rfl⟩
  | .not c, d, m, fades, whole, made => by
    cases d <;> try exact fades.elim
    next d =>
    simp only [remake, Except.bind_eq_ok_iff] at made ⊢
    obtain ⟨x, made, -⟩ := made
    obtain ⟨x', made'⟩ := remake_fades c d fades whole made
    exact ⟨_, x', made', rfl⟩
  | .raw sql, d, m, fades, _, _ => by
    cases d <;> try exact fades.elim
    exact ⟨_, rfl⟩
  | .empty, d, m, fades, _, _ => by
    cases d <;> try exact fades.elim
    exact ⟨_, rfl⟩

theorem remakeAll_fades : (cs ds : List Condition) → {ms : List Condition} → FadesAll cs ds →
    WholeAll cs ds → remakeAll cs = .ok ms → ∃ ns, remakeAll ds = .ok ns
  | [], ds, ms, fades, _, _ => by
    cases ds <;> try exact fades.elim
    exact ⟨[], rfl⟩
  | c :: cs, ds, ms, fades, whole, made => by
    cases ds <;> try exact fades.elim
    next d ds =>
    simp only [remakeAll, Except.bind_eq_ok_iff] at made ⊢
    obtain ⟨m, first, ms, rest, -⟩ := made
    obtain ⟨n, first'⟩ := remake_fades c d fades.1 whole.1 first
    obtain ⟨ns, rest'⟩ := remakeAll_fades cs ds fades.2 whole.2 rest
    exact ⟨n :: ns, n, first', ns, rest', rfl⟩

end

/-- Types may become unknown wherever arithmetic stays whole: what could be made can still be made,
and each expression is of its old type or of an unknown one. Arithmetic that is split becomes a
number of any kind, and is refused in each comparison with an operand of its old type. -/
theorem remake_of_unknown_types (e e' : Expr) (c d : Condition) (f : BuiltIn)
    (types types' : List TypeTag) :
    (∀ m, e.Fades e' → e.Whole e' → e.remake = .ok m →
      ∃ m', e'.remake = .ok m' ∧ m.typeTag.Fades m'.typeTag) ∧
    (∀ m, c.Fades d → c.Whole d → c.remake = .ok m → ∃ n, d.remake = .ok n) ∧
    (∀ t, List.Forall₂ TypeTag.Fades types types' → f.resultType types = .ok t →
      f.spec.result.Splits types types' →
      f.resultType types' = .ok .number ∧ ∀ op : Comparison,
        op.check .number t = .error (.misuse op.name (.operandsDiffer .number t)) ∧
        op.check t .number = .error (.misuse op.name (.operandsDiffer t .number))) := by
  refine ⟨fun m => Expr.remake_fades e e', fun m => remake_fades c d, fun t fades made split => ?_⟩
  obtain ⟨t', made', -, wide⟩ := BuiltIn.resultType_fades fades made
  obtain ⟨known, narrow, rfl⟩ := wide split
  exact ⟨made', fun op => op.check_number known narrow⟩

def fadingCall (type : TypeTag) : Expr :=
  let column := Expr.column ⟨none, .unquoted "n" (by decide), type⟩
  .call .coalesce [column, .call .add [column, column] type] type

def fadingComparison (type : TypeTag) : Condition :=
  .compare (fadingCall type) .equal (.column ⟨none, .unquoted "n" (by decide), type⟩)

theorem whole_fadingCall : (fadingCall .int).Whole (fadingCall .any) := by
  have other : ¬BuiltIn.coalesce.spec.result = .commonNumeric := by decide
  refine ⟨fun split => other split.1, trivial, ⟨?_, trivial, trivial, trivial⟩, trivial⟩
  rintro ⟨-, t, known, -, -, -, kept⟩
  simp only [Expr.madeTypes, Expr.madeType, List.mem_cons, List.not_mem_nil, or_false] at kept
  exact known (kept.elim id id)

theorem remake_fadingCall : (fadingCall .int).remake = .ok (fadingCall .int) := by
  have sum : BuiltIn.resultType .add [.int, .int] = .ok .int := by decide
  have call : BuiltIn.resultType .coalesce [.int, .int] = .ok .int := by decide
  simp [fadingCall, Expr.remake, Expr.remakeAll, Expr.apply, Expr.typeTag, sum, call, bind,
    Except.bind]

theorem remake_of_unknown_types_sample :
    (∃ m, (fadingCall .any).remake = .ok m ∧ (fadingCall .int).typeTag.Fades m.typeTag) ∧
    (∃ m, (fadingComparison .any).remake = .ok m) ∧
    BuiltIn.resultType .add [.any, .int] = .ok .number ∧
    Comparison.check .equal .number .int =
      .error (.misuse "EQUAL" (.operandsDiffer .number .int)) := by
  have fades : (fadingCall .int).Fades (fadingCall .any) := by
    simp [fadingCall, Expr.Fades, Expr.FadesAll, TypeTag.Fades]
  have fades' : (fadingComparison .int).Fades (fadingComparison .any) :=
    ⟨rfl, fades, rfl, rfl, .inl rfl⟩
  have whole : (fadingComparison .int).Whole (fadingComparison .any) :=
    ⟨whole_fadingCall, trivial⟩
  have made : (fadingComparison .int).remake = .ok (fadingComparison .int) := by
    rw [fadingComparison, remake, remake_fadingCall]
    rfl
  obtain ⟨trees, conditions, splits⟩ := remake_of_unknown_types (fadingCall .int) (fadingCall .any)
    (fadingComparison .int) (fadingComparison .any) .add [.int, .int] [.any, .int]
  have split := splits .int (.cons (.inl rfl) (.cons (.inr rfl) .nil)) rfl
    ⟨rfl, .int, nofun, nofun, by simp, by simp, by simp⟩
  exact ⟨trees _ fades whole_fadingCall remake_fadingCall,
    conditions _ fades' whole made, split.1, (split.2 .equal).1⟩

end Condition

end SqlCompose
