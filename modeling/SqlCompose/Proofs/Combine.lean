import SqlCompose.Bind.Variable
import Mathlib.Tactic.Ring

/-! Merging references to one variable. Types form a tree, so two types that both accept a third
one are comparable, and equality of values is symmetric and transitive although a NaN is not
equal to itself. These two facts make merging associative: how references are grouped decides
neither whether they agree nor what they say together. -/

namespace SqlCompose

namespace TypeTag

theorem accepts_iff {t s : TypeTag} : t.accepts s = true ↔ t ∈ s.chain := by
  simp [accepts]

theorem accepts_refl (t : TypeTag) : t.accepts t = true := by
  simp [accepts_iff, chain]

theorem accepts_trans {s t u : TypeTag} (below : t.accepts s = true) (above : u.accepts t = true) :
    u.accepts s = true := by
  rw [accepts_iff] at *
  cases s <;> simp only [chain, supertypes, List.mem_cons, List.not_mem_nil, or_false] at below <;>
    rcases below with rfl | rfl | rfl <;> simp_all [chain, supertypes]

theorem accepts_antisymm {s t : TypeTag} (h : t.accepts s = true) (g : s.accepts t = true) :
    s = t := by
  rw [accepts_iff] at *
  cases s <;> cases t <;> simp_all [chain, supertypes]

theorem accepts_or_accepts {s t u : TypeTag} (h : t.accepts s = true) (g : u.accepts s = true) :
    t.accepts u = true ∨ u.accepts t = true := by
  simp only [accepts_iff] at *
  cases s <;> simp only [chain, supertypes, List.mem_cons, List.not_mem_nil, or_false] at h g <;>
    rcases h with rfl | rfl | rfl <;> rcases g with rfl | rfl | rfl <;> simp [chain, supertypes]

def narrower (s t : TypeTag) : Option TypeTag :=
  if t.accepts s then some s else if s.accepts t then some t else none

theorem narrower_eq_some_iff {s t m : TypeTag} :
    s.narrower t = some m ↔
      (t.accepts s = true ∧ m = s) ∨ (s.accepts t = true ∧ m = t) := by
  unfold narrower
  split
  · next below =>
    constructor
    · intro h
      exact .inl ⟨below, (Option.some.inj h).symm⟩
    · rintro (⟨-, rfl⟩ | ⟨above, rfl⟩)
      · rfl
      · rw [accepts_antisymm below above]
  · next below =>
    split
    · next above => simp [below, above, eq_comm]
    · next above => simp [below, above]

theorem accepts_narrower {s t m : TypeTag} (h : s.narrower t = some m) :
    s.accepts m = true ∧ t.accepts m = true := by
  rcases narrower_eq_some_iff.mp h with ⟨below, rfl⟩ | ⟨above, rfl⟩
  · exact ⟨accepts_refl _, below⟩
  · exact ⟨above, accepts_refl _⟩

theorem narrower_regroup {s t u tu m : TypeTag} (h : t.narrower u = some tu)
    (g : s.narrower tu = some m) : ∃ st, s.narrower t = some st ∧ st.narrower u = some m := by
  simp only [narrower_eq_some_iff] at *
  rcases h with ⟨ut, rfl⟩ | ⟨tu, rfl⟩ <;> rcases g with ⟨le, rfl⟩ | ⟨ge, rfl⟩
  · exact ⟨m, .inl ⟨le, rfl⟩, .inl ⟨accepts_trans le ut, rfl⟩⟩
  · exact ⟨m, .inr ⟨ge, rfl⟩, .inl ⟨ut, rfl⟩⟩
  · exact ⟨m, .inl ⟨accepts_trans le tu, rfl⟩, .inl ⟨le, rfl⟩⟩
  · rcases accepts_or_accepts tu ge with ts | st
    · exact ⟨s, .inl ⟨ts, rfl⟩, .inr ⟨ge, rfl⟩⟩
    · exact ⟨t, .inr ⟨st, rfl⟩, .inr ⟨tu, rfl⟩⟩

theorem narrower_comm (s t : TypeTag) : s.narrower t = t.narrower s := by
  apply Option.ext
  intro m
  rw [narrower_eq_some_iff, narrower_eq_some_iff]
  exact or_comm

theorem narrower_ungroup {s t u st m : TypeTag} (h : s.narrower t = some st)
    (g : st.narrower u = some m) : ∃ tu, t.narrower u = some tu ∧ s.narrower tu = some m := by
  rw [narrower_comm] at h g
  obtain ⟨ut, inner, outer⟩ := narrower_regroup h g
  exact ⟨ut, (narrower_comm t u).trans inner, (narrower_comm s ut).trans outer⟩

end TypeTag

theorem FixedDecimal.same_trans {x y z : FixedDecimal} (h : x.same y = true)
    (g : y.same z = true) : x.same z = true := by
  simp only [same, beq_iff_eq, Int.pow_eq] at *
  have unit : (10 : Int) ^ y.scale ≠ 0 := pow_ne_zero _ (by decide)
  apply mul_right_cancel₀ unit
  calc x.coefficient * 10 ^ z.scale * 10 ^ y.scale
      = x.coefficient * 10 ^ y.scale * 10 ^ z.scale := by ring
    _ = y.coefficient * 10 ^ z.scale * 10 ^ x.scale := by rw [h]; ring
    _ = z.coefficient * 10 ^ x.scale * 10 ^ y.scale := by rw [g]; ring

theorem FixedDecimal.same_symm {x y : FixedDecimal} (h : x.same y = true) : y.same x = true := by
  simp only [same, beq_iff_eq] at *
  exact h.symm

theorem Binary64.isZero_of_bits {x y : Binary64} (h : x.bits = y.bits) : x.isZero = y.isZero := by
  simp only [isZero, exponentField, fraction, h]

theorem Binary64.same_trans {x y z : Binary64} (h : x.same y = true) (g : y.same z = true) :
    x.same z = true := by
  simp only [same, Bool.and_eq_true, Bool.or_eq_true, Bool.not_eq_true', beq_iff_eq] at *
  obtain ⟨⟨hx, -⟩, xy⟩ := h
  obtain ⟨⟨-, hz⟩, yz⟩ := g
  refine ⟨⟨hx, hz⟩, ?_⟩
  rcases xy with ⟨x0, y0⟩ | xy <;> rcases yz with ⟨y0', z0⟩ | yz
  · exact .inl ⟨x0, z0⟩
  · exact .inl ⟨x0, (isZero_of_bits yz).symm.trans y0⟩
  · exact .inl ⟨(isZero_of_bits xy).trans y0', z0⟩
  · exact .inr (xy.trans yz)

theorem Binary64.same_symm {x y : Binary64} (h : x.same y = true) : y.same x = true := by
  simp only [same, Bool.and_eq_true, Bool.or_eq_true, Bool.not_eq_true', beq_iff_eq] at *
  obtain ⟨⟨hx, hy⟩, xy⟩ := h
  exact ⟨⟨hy, hx⟩, xy.imp And.symm Eq.symm⟩

namespace Value

theorem same_symm {v w : Value} (h : v.same w = true) : w.same v = true := by
  induction v generalizing w with
  | domain m a ih =>
    cases w <;> simp only [same, Bool.false_eq_true, Bool.and_eq_true, beq_iff_eq] at h
    next n b => simp [same, h.1, ih h.2]
  | float x =>
    cases w <;> simp only [same, Bool.false_eq_true] at h
    exact Binary64.same_symm h
  | decimal x =>
    cases w <;> simp only [same, Bool.false_eq_true] at h
    exact FixedDecimal.same_symm h
  | _ => cases w <;> simp_all [same]

theorem same_trans {u v w : Value} (h : u.same v = true) (g : v.same w = true) :
    u.same w = true := by
  induction u generalizing v w with
  | domain m a ih =>
    cases v <;> simp only [same, Bool.false_eq_true, Bool.and_eq_true, beq_iff_eq] at h
    next n b =>
      cases w <;> simp only [same, Bool.false_eq_true, Bool.and_eq_true, beq_iff_eq] at g
      next k c => simp [same, h.1, g.1, ih h.2 g.2]
  | float x =>
    cases v <;> simp only [same, Bool.false_eq_true] at h
    cases w <;> simp only [same, Bool.false_eq_true] at g
    exact Binary64.same_trans h g
  | decimal x =>
    cases v <;> simp only [same, Bool.false_eq_true] at h
    cases w <;> simp only [same, Bool.false_eq_true] at g
    exact FixedDecimal.same_trans h g
  | _ => cases v <;> cases w <;> simp_all [same]

theorem typeTag_of_same {v w : Value} (h : v.same w = true) : v.typeTag = w.typeTag := by
  cases v <;> cases w <;> simp_all [same, typeTag]

end Value

namespace BindVariable

/-- The value of two references together: the first one that is present, if no other differs. -/
inductive MergesTo : Option Value → Option Value → Option Value → Prop
  | neither : MergesTo none none none
  | left (v : Value) : MergesTo (some v) none (some v)
  | right (w : Value) : MergesTo none (some w) (some w)
  | both {v w : Value} (same : v.same w = true) : MergesTo (some v) (some w) (some v)

theorem mergedValue_eq_ok_iff {a b : BindVariable} {x : Option Value} :
    a.mergedValue b = .ok x ↔ MergesTo a.value b.value x := by
  unfold mergedValue
  constructor
  · intro h
    split at h <;> rename_i ha hb
    · obtain rfl := Except.ok.inj h
      rw [ha, hb]
      exact .neither
    · obtain rfl := Except.ok.inj h
      rw [ha, hb]
      exact .left _
    · obtain rfl := Except.ok.inj h
      rw [ha, hb]
      exact .right _
    · split at h
      · next same =>
        obtain rfl := Except.ok.inj h
        rw [ha, hb]
        exact .both same
      · cases h
  · intro h
    generalize a.value = av, b.value = bv at h ⊢
    cases h <;> simp_all

theorem MergesTo.regroup {x y z yz m : Option Value} (h : MergesTo y z yz)
    (g : MergesTo x yz m) : ∃ xy, MergesTo x y xy ∧ MergesTo xy z m := by
  cases h with
  | neither => exact ⟨m, g, by cases g <;> constructor⟩
  | left v => exact ⟨m, g, by cases g <;> constructor⟩
  | right w =>
    cases g with
    | right => exact ⟨none, .neither, .right w⟩
    | both same => exact ⟨_, .left _, .both same⟩
  | both same =>
    cases g with
    | right => exact ⟨_, .right _, .both same⟩
    | both same' => exact ⟨_, .both same', .both (Value.same_trans same' same)⟩

theorem MergesTo.ungroup {x y z xy m : Option Value} (h : MergesTo x y xy)
    (g : MergesTo xy z m) : ∃ yz, MergesTo y z yz ∧ MergesTo x yz m := by
  cases h with
  | neither => exact ⟨m, g, by cases g <;> constructor⟩
  | left v => exact ⟨z, by cases z <;> constructor, g⟩
  | right w => exact ⟨m, g, by cases g <;> constructor⟩
  | both same =>
    cases g with
    | left => exact ⟨_, .left _, .both same⟩
    | both same' => exact ⟨_, .both (Value.same_trans (Value.same_symm same) same'), .both same⟩

theorem MergesTo.admits {x y m : Option Value} {t : TypeTag} (h : MergesTo x y m)
    (fits : m.all t.admits = true) : x.all t.admits = true ∧ y.all t.admits = true := by
  cases h with
  | neither => exact ⟨rfl, rfl⟩
  | left => exact ⟨fits, rfl⟩
  | right => exact ⟨rfl, fits⟩
  | both same =>
    refine ⟨fits, ?_⟩
    simpa [TypeTag.admits, ← Value.typeTag_of_same same] using fits

theorem combine_eq_ok_iff {a b m : BindVariable} :
    a.combine b = .ok m ↔
      a.name = b.name ∧ m.name = a.name ∧ a.type.narrower b.type = some m.type ∧
        MergesTo a.value b.value m.value := by
  constructor
  · intro h
    simp only [combine] at h
    split at h
    · cases h
    · next names =>
      split at h
      · cases h
      · next type narrowed =>
        split at h
        · cases h
        · next value merged =>
          split at h
          · obtain rfl := Except.ok.inj h
            refine ⟨not_not.mp names, rfl, ?_, mergedValue_eq_ok_iff.mp merged⟩
            unfold BindVariable.narrowed at narrowed
            unfold TypeTag.narrower
            grind
          · cases h
  · rintro ⟨names, name, type, value⟩
    have narrowed : a.narrowed b = some m.type := by
      rw [BindVariable.narrowed]
      rcases TypeTag.narrower_eq_some_iff.mp type with ⟨below, eq⟩ | ⟨above, eq⟩
      · simp [below, eq]
      · have fits := (value.admits m.fits).1
        rw [eq] at fits
        by_cases below : b.type.accepts a.type = true
        · rw [if_pos below, eq, TypeTag.accepts_antisymm below above]
        · simp [below, above, fits, eq]
    simp only [combine, names, ne_eq, not_true_eq_false, if_false, narrowed,
      mergedValue_eq_ok_iff.mpr value, m.fits, dite_true]
    cases m
    simp_all

theorem combine_name {a b m : BindVariable} (h : a.combine b = .ok m) : m.name = a.name :=
  (combine_eq_ok_iff.mp h).2.1

theorem combine_regroup {a b c bc m : BindVariable} (h : b.combine c = .ok bc)
    (g : a.combine bc = .ok m) : ∃ ab, a.combine b = .ok ab ∧ ab.combine c = .ok m := by
  obtain ⟨names, name, type, value⟩ := combine_eq_ok_iff.mp h
  obtain ⟨names', name', type', value'⟩ := combine_eq_ok_iff.mp g
  obtain ⟨t, left, outer⟩ := TypeTag.narrower_regroup type type'
  obtain ⟨x, first, all⟩ := value.regroup value'
  have fits : x.all t.admits = true := by
    have narrow := (all.admits m.fits).1
    cases x with
    | none => rfl
    | some v => exact TypeTag.accepts_trans narrow (TypeTag.accepts_narrower outer).1
  refine ⟨⟨a.name, t, x, fits⟩, ?_, ?_⟩
  · exact combine_eq_ok_iff.mpr ⟨by rw [names', name], rfl, left, first⟩
  · exact combine_eq_ok_iff.mpr ⟨by rw [names', name, names], name', outer, all⟩

theorem combine_ungroup {a b c ab m : BindVariable} (h : a.combine b = .ok ab)
    (g : ab.combine c = .ok m) : ∃ bc, b.combine c = .ok bc ∧ a.combine bc = .ok m := by
  obtain ⟨names, name, type, value⟩ := combine_eq_ok_iff.mp h
  obtain ⟨names', name', type', value'⟩ := combine_eq_ok_iff.mp g
  obtain ⟨t, right, outer⟩ := TypeTag.narrower_ungroup type type'
  obtain ⟨x, last, all⟩ := value.ungroup value'
  have fits : x.all t.admits = true := by
    have narrow := (all.admits m.fits).2
    cases x with
    | none => rfl
    | some v => exact TypeTag.accepts_trans narrow (TypeTag.accepts_narrower outer).2
  refine ⟨⟨b.name, t, x, fits⟩, ?_, ?_⟩
  · exact combine_eq_ok_iff.mpr ⟨by rw [← names, ← name, names'], rfl, right, last⟩
  · exact combine_eq_ok_iff.mpr ⟨names, by rw [name', name], outer, all⟩

/-- Whether `m` says all that a reference `v` to it says. -/
structure Covers (m v : BindVariable) : Prop where
  name : m.name = v.name
  type : v.type.accepts m.type = true
  value : ∀ w ∈ v.value, ∃ u ∈ m.value, u = w ∨ u.same w = true

theorem Covers.refl (v : BindVariable) : v.Covers v :=
  ⟨rfl, TypeTag.accepts_refl _, fun w present => ⟨w, present, .inl rfl⟩⟩

theorem Covers.trans {m v w : BindVariable} (h : m.Covers v) (g : v.Covers w) : m.Covers w := by
  refine ⟨h.name.trans g.name, TypeTag.accepts_trans h.type g.type, fun z present => ?_⟩
  obtain ⟨y, inner, yz⟩ := g.value z present
  obtain ⟨x, outer, xy⟩ := h.value y inner
  refine ⟨x, outer, ?_⟩
  rcases xy with rfl | xy
  · exact yz
  · rcases yz with rfl | yz
    · exact .inr xy
    · exact .inr (Value.same_trans xy yz)

theorem combine_covers {a b m : BindVariable} (h : a.combine b = .ok m) :
    m.Covers a ∧ m.Covers b := by
  obtain ⟨names, name, type, value⟩ := combine_eq_ok_iff.mp h
  have both := TypeTag.accepts_narrower type
  refine ⟨⟨name, both.1, ?_⟩, ⟨name.trans names, both.2, ?_⟩⟩
  · intro w present
    generalize a.value = x, b.value = y, m.value = z at value present
    cases value <;> simp_all
  · intro w present
    generalize a.value = x, b.value = y, m.value = z at value present
    cases value <;> simp_all

end BindVariable

end SqlCompose
