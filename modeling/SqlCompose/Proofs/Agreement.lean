import SqlCompose.Proofs.Binding

/-! Agreement of references to bind variables. Whether a row of references can be merged depends on
any two of them alone, not on the order or the grouping in which they are merged: types that are
comparable in pairs have a narrowest one, and values that are equal in pairs have a common one. So
placeholders can be written and builders can be embedded exactly as long as any two references to
one name agree. -/

namespace SqlCompose

namespace TypeTag

variable {s t u m : TypeTag}

def isComparable (s t : TypeTag) : Bool :=
  t.accepts s || s.accepts t

theorem isComparable_iff : s.isComparable t = true ↔
    t.accepts s = true ∨ s.accepts t = true := by
  rw [isComparable, Bool.or_eq_true]

theorem exists_narrower_iff : (∃ m, s.narrower t = some m) ↔ s.isComparable t = true := by
  simp only [narrower_eq_some_iff, isComparable_iff]
  constructor
  · rintro ⟨m, ⟨below, -⟩ | ⟨above, -⟩⟩
    · exact .inl below
    · exact .inr above
  · rintro (below | above)
    · exact ⟨s, .inl ⟨below, rfl⟩⟩
    · exact ⟨t, .inr ⟨above, rfl⟩⟩

theorem isComparable_of_accepts (above : t.accepts s = true) (h : s.isComparable u = true) :
    t.isComparable u = true := by
  rw [isComparable_iff] at h ⊢
  rcases h with wider | below
  · exact (accepts_or_accepts above wider).symm
  · exact .inr (accepts_trans below above)

theorem isComparable_narrower (h : s.narrower t = some m) : m.isComparable u = true ↔
    s.isComparable u = true ∧ t.isComparable u = true := by
  obtain ⟨left, right⟩ := accepts_narrower h
  constructor
  · exact fun g => ⟨isComparable_of_accepts left g, isComparable_of_accepts right g⟩
  · rintro ⟨first, second⟩
    rcases narrower_eq_some_iff.mp h with ⟨-, rfl⟩ | ⟨-, rfl⟩
    · exact first
    · exact second

theorem admits_narrower (h : s.narrower t = some m) (v : Value) :
    m.admits v = true ↔ s.admits v = true ∧ t.admits v = true := by
  obtain ⟨left, right⟩ := accepts_narrower h
  constructor
  · exact fun g => ⟨accepts_trans g left, accepts_trans g right⟩
  · rintro ⟨first, second⟩
    rcases narrower_eq_some_iff.mp h with ⟨-, rfl⟩ | ⟨-, rfl⟩
    · exact first
    · exact second

end TypeTag

namespace BindVariable

variable {a b c m v w : BindVariable}

theorem MergesTo.forall_iff {x y z : Option Value} {P : Value → Prop} (h : MergesTo x y z)
    (respects : ∀ p q : Value, p.same q = true → (P p ↔ P q)) :
    (∀ p ∈ z, P p) ↔ (∀ p ∈ x, P p) ∧ ∀ p ∈ y, P p := by
  cases h with
  | neither => simp
  | left p => simp
  | right q => simp
  | both same => simp [respects _ _ same]

theorem exists_mergesTo_iff {x y : Option Value} :
    (∃ z, MergesTo x y z) ↔ ∀ p ∈ x, ∀ q ∈ y, p.same q = true := by
  constructor
  · rintro ⟨z, merged⟩
    cases merged with
    | both same => simpa using same
    | _ => simp
  · intro same
    cases x with
    | none => cases y <;> exact ⟨_, by constructor⟩
    | some p =>
      cases y with
      | none => exact ⟨_, .left p⟩
      | some q => exact ⟨_, .both (same p rfl q rfl)⟩

/-- Whether two references neither differ in type nor in value: one type accepts the other, each
value is an instance of both types, and the values are equal if both are present. -/
def agrees (v w : BindVariable) : Bool :=
  v.type.isComparable w.type && v.value.all w.type.admits && w.value.all v.type.admits
    && v.value.all fun p => w.value.all p.same

theorem agrees_iff : v.agrees w = true ↔ v.type.isComparable w.type = true ∧
    (∀ p ∈ v.value, w.type.admits p = true) ∧ (∀ q ∈ w.value, v.type.admits q = true) ∧
    ∀ p ∈ v.value, ∀ q ∈ w.value, p.same q = true := by
  simp only [agrees, Bool.and_eq_true, Option.all_eq_true, Option.mem_def, and_assoc]

theorem admits_of_mem_value {p : Value} (present : p ∈ v.value) : v.type.admits p = true :=
  (Option.all_eq_true _ _).mp v.fits p present

theorem admits_iff_of_same {p q : Value} (t : TypeTag) (same : p.same q = true) :
    t.admits p = true ↔ t.admits q = true := by
  rw [TypeTag.admits, TypeTag.admits, Value.typeTag_of_same same]

theorem exists_combine_iff (names : v.name = w.name) :
    (∃ m, v.combine w = .ok m) ↔ v.agrees w = true := by
  rw [agrees_iff]
  constructor
  · rintro ⟨m, merged⟩
    obtain ⟨-, -, type, value⟩ := combine_eq_ok_iff.mp merged
    have both := (value.forall_iff fun p q => admits_iff_of_same m.type).mp fun p =>
      admits_of_mem_value
    refine ⟨TypeTag.exists_narrower_iff.mp ⟨_, type⟩, fun p mem => ?_, fun q mem => ?_,
      exists_mergesTo_iff.mp ⟨_, value⟩⟩
    · exact ((TypeTag.admits_narrower type p).mp (both.1 p mem)).2
    · exact ((TypeTag.admits_narrower type q).mp (both.2 q mem)).1
  · rintro ⟨types, left, right, same⟩
    obtain ⟨t, narrow⟩ := TypeTag.exists_narrower_iff.mpr types
    obtain ⟨z, merged⟩ := exists_mergesTo_iff.mpr same
    have admitted := (merged.forall_iff fun p q => admits_iff_of_same t).mpr
      ⟨fun p mem => (TypeTag.admits_narrower narrow p).mpr ⟨admits_of_mem_value mem, left p mem⟩,
        fun q mem => (TypeTag.admits_narrower narrow q).mpr ⟨right q mem, admits_of_mem_value mem⟩⟩
    have fits : z.all t.admits = true := (Option.all_eq_true _ _).mpr admitted
    exact ⟨⟨v.name, t, z, fits⟩, combine_eq_ok_iff.mpr ⟨names, rfl, narrow, merged⟩⟩

theorem agrees_combine (h : a.combine b = .ok m) :
    m.agrees c = true ↔ a.agrees c = true ∧ b.agrees c = true := by
  obtain ⟨-, -, type, value⟩ := combine_eq_ok_iff.mp h
  have types := TypeTag.isComparable_narrower (u := c.type) type
  have instances := value.forall_iff fun p q => admits_iff_of_same c.type
  have taken : (∀ q ∈ c.value, m.type.admits q = true) ↔
      (∀ q ∈ c.value, a.type.admits q = true) ∧ ∀ q ∈ c.value, b.type.admits q = true := by
    simp only [TypeTag.admits_narrower type, ← forall_and]
  have equal : (∀ p ∈ m.value, ∀ q ∈ c.value, p.same q = true) ↔
      (∀ p ∈ a.value, ∀ q ∈ c.value, p.same q = true) ∧
        ∀ p ∈ b.value, ∀ q ∈ c.value, p.same q = true := by
    refine value.forall_iff fun p p' same => ?_
    constructor
    · exact fun g q mem => Value.same_trans (Value.same_symm same) (g q mem)
    · exact fun g q mem => Value.same_trans same (g q mem)
  rw [agrees_iff, agrees_iff, agrees_iff, types, instances, taken, equal]
  constructor
  · rintro ⟨⟨t, t'⟩, ⟨i, i'⟩, ⟨k, k'⟩, e, e'⟩
    exact ⟨⟨t, i, k, e⟩, t', i', k', e'⟩
  · rintro ⟨⟨t, i, k, e⟩, t', i', k', e'⟩
    exact ⟨⟨t, t'⟩, ⟨i, i'⟩, ⟨k, k'⟩, e, e'⟩

def Compatible (v w : BindVariable) : Prop :=
  v.name = w.name → v.agrees w = true

instance (v w : BindVariable) : Decidable (v.Compatible w) :=
  inferInstanceAs (Decidable (_ → _))

theorem compatible_combine (h : a.combine b = .ok m) :
    m.Compatible c ↔ a.Compatible c ∧ b.Compatible c := by
  obtain ⟨names, name, -⟩ := combine_eq_ok_iff.mp h
  rw [Compatible, Compatible, Compatible, agrees_combine h, name, ← names]
  exact forall_and

end BindVariable

open BindVariable

namespace Ledger

variable {l l' : Ledger} {v w : BindVariable} {ps : List Nat} {vs ws : List BindVariable}

theorem exists_record_iff (distinct : l.names.Nodup) :
    (∃ l', l.record v ps = .ok l') ↔ ∀ e ∈ l, e.bind.Compatible v := by
  induction l with
  | nil => simp [record]
  | cons e l ih =>
    obtain ⟨fresh, distinct⟩ := List.nodup_cons.mp distinct
    rw [List.forall_mem_cons]
    by_cases same : e.bind.name = v.name
    · have others : ∀ f ∈ l, f.bind.Compatible v := by
        intro f mem equal
        exact absurd (List.mem_map.mpr ⟨f, mem, equal.trans same.symm⟩) fresh
      simp only [record_cons_of_eq same, and_iff_left others]
      constructor
      · rintro ⟨_, m, merged, -⟩ _
        exact (BindVariable.exists_combine_iff same).mp ⟨m, merged⟩
      · intro agree
        obtain ⟨m, merged⟩ := (BindVariable.exists_combine_iff same).mpr (agree same)
        exact ⟨_, m, merged, rfl⟩
    · have first : e.bind.Compatible v := fun equal => absurd equal same
      rw [and_iff_right first, ← ih distinct]
      simp only [record_cons_of_ne same]
      constructor
      · rintro ⟨_, rest, recorded, -⟩
        exact ⟨rest, recorded⟩
      · rintro ⟨rest, recorded⟩
        exact ⟨_, rest, recorded, rfl⟩

theorem forall_compatible_record (h : l.record v ps = .ok l') :
    (∀ e ∈ l', e.bind.Compatible w) ↔ (∀ e ∈ l, e.bind.Compatible w) ∧ v.Compatible w := by
  rcases record_cases h with ⟨-, rfl⟩ | ⟨before, e, after, m, rfl, merged, rfl⟩
  · simp [or_imp, forall_and]
  · simp only [List.forall_mem_append, List.forall_mem_cons, compatible_combine merged]
    constructor
    · rintro ⟨front, ⟨here, new⟩, back⟩
      exact ⟨⟨front, here, back⟩, new⟩
    · rintro ⟨⟨front, here, back⟩, new⟩
      exact ⟨front, ⟨here, new⟩, back⟩

theorem forall_compatible_ofUses (h : ofUses vs = .ok l) :
    (∀ e ∈ l, e.bind.Compatible w) ↔ ∀ u ∈ vs, u.Compatible w := by
  induction vs using List.reverseRecOn generalizing l with
  | nil =>
    obtain rfl := Except.ok.inj h
    simp
  | append_singleton vs v ih =>
    obtain ⟨k, uses, last⟩ := ofUses_concat.mp h
    rw [forall_compatible_record last, ih uses]
    simp [or_imp, forall_and]

theorem exists_ofUses_iff :
    (∃ l, ofUses vs = .ok l) ↔ vs.Pairwise Compatible := by
  induction vs using List.reverseRecOn with
  | nil => simp [ofUses, noteAll]
  | append_singleton vs v ih =>
    rw [List.pairwise_append, ← ih]
    constructor
    · rintro ⟨l, whole⟩
      obtain ⟨k, uses, last⟩ := ofUses_concat.mp whole
      have new := (exists_record_iff (sound_ofUses uses).distinct).mp ⟨l, last⟩
      refine ⟨⟨k, uses⟩, List.pairwise_singleton _ v, fun u mem w single => ?_⟩
      rw [List.mem_singleton.mp single]
      exact (forall_compatible_ofUses uses).mp new u mem
    · rintro ⟨⟨k, uses⟩, -, new⟩
      have agree := (forall_compatible_ofUses uses).mpr fun u mem => new u mem v (by simp)
      obtain ⟨l, last⟩ := (exists_record_iff (sound_ofUses uses).distinct).mpr agree
      exact ⟨l, ofUses_concat.mpr ⟨k, uses, last⟩⟩

theorem recordAll_iff_noteAll {count : Nat} {inner : Ledger} (h : ofUses vs = .ok inner) :
    l.recordAll (inner.map (LedgerEntry.shift count)) = (l', .ok ()) ↔
      l.noteAll count vs = .ok l' := by
  refine ⟨noteAll_of_recordAll h, fun g => ?_⟩
  induction vs using List.reverseRecOn generalizing inner l' with
  | nil =>
    obtain rfl := Except.ok.inj h
    obtain rfl := Except.ok.inj g
    rfl
  | append_singleton vs v ih =>
    obtain ⟨k, uses, last⟩ := ofUses_concat.mp h
    obtain ⟨m, front, final⟩ := noteAll_append.mp g
    have distinct : k.names.Nodup := (sound_ofUses uses).distinct
    have position : count + vs.length + 1 = vs.length + 1 + count := by omega
    rw [noteAll_singleton, position] at final
    have shifted : m.record v ([vs.length + 1].map (· + count)) = .ok l' := final
    obtain ⟨inner', noted, all⟩ :=
      (recordAll_shift_record_iff distinct).mpr ⟨m, ih uses front, shifted⟩
    obtain rfl := Except.ok.inj (noted.symm.trans last)
    exact all

end Ledger

namespace Builder

variable {b b' other : Builder} {v : BindVariable} {vs ws : List BindVariable}

theorem Holds.compatible (h : b.Holds vs) : vs.Pairwise Compatible :=
  Ledger.exists_ofUses_iff.mp ⟨_, h.ledger⟩

theorem Holds.exists_appendBind_iff (h : b.Holds vs) :
    (∃ b', b.appendBind v = (b', .ok ())) ↔ (vs ++ [v]).Pairwise Compatible := by
  rw [← Ledger.exists_ofUses_iff]
  constructor
  · rintro ⟨b', written⟩
    exact ⟨_, (h.appendBind written).ledger⟩
  · rintro ⟨l, whole⟩
    obtain ⟨k, uses, recorded⟩ := Ledger.ofUses_concat.mp whole
    obtain rfl := Except.ok.inj (h.ledger.symm.trans uses)
    have settled := (binding_startLine b.settleBreak).trans (binding_settleBreak b)
    rw [← h.count, ← settled] at recorded
    exact ⟨_, appendBind_eq_ok_iff.mpr ⟨_, addBind_eq_ok_iff.mpr ⟨l, recorded, rfl⟩, rfl⟩⟩

theorem Holds.exists_embed_iff (h : b.Holds vs) (g : other.Holds ws) :
    (∃ b', b.embed other = (b', .ok ())) ↔ (vs ++ ws).Pairwise Compatible := by
  rw [← Ledger.exists_ofUses_iff]
  constructor
  · rintro ⟨b', embedded⟩
    exact ⟨_, (h.embed g embedded).ledger⟩
  · rintro ⟨l, whole⟩
    obtain ⟨k, uses, noted⟩ := Ledger.noteAll_append.mp whole
    obtain rfl := Except.ok.inj (h.ledger.symm.trans uses)
    rw [Nat.zero_add, ← h.count] at noted
    have merged : (b.ledger.recordAll (other.ledger.map (LedgerEntry.shift b.bindCount))).2 =
        .ok () :=
      congrArg Prod.snd ((Ledger.recordAll_iff_noteAll g.ledger).mpr noted)
    have outer : (b.withCopy other).ledger = b.ledger :=
      congrArg Binding.ledger (binding_withCopy b other)
    refine ⟨_, (embed_eq b other).trans (Prod.ext rfl ?_)⟩
    rw [outer]
    exact merged

end Builder

end SqlCompose
