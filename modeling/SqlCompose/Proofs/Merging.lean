import Mathlib.Data.List.Pairwise
import SqlCompose.Proofs.Agreement

/-! Merging a row of references to one variable in any order and in any grouping. Whether the row
can be merged, and into which type, depends on the references alone. The order decides only which
of several equal values is kept, and the grouping decides nothing. -/

namespace SqlCompose

namespace TypeTag

variable {s t m : TypeTag} {ss ts : List TypeTag}

/-- The type of a row that all types of the row accept. -/
structure IsNarrowest (t : TypeTag) (ts : List TypeTag) : Prop where
  mem : t ∈ ts
  accepted : ∀ u ∈ ts, u.accepts t = true

namespace IsNarrowest

theorem single (t : TypeTag) : IsNarrowest t [t] := by
  refine ⟨by simp, fun u mem => ?_⟩
  rw [List.mem_singleton.mp mem]
  exact accepts_refl t

theorem unique (h : IsNarrowest s ts) (g : IsNarrowest t ts) : s = t :=
  accepts_antisymm (h.accepted t g.mem) (g.accepted s h.mem)

theorem append (h : IsNarrowest s ss) (g : IsNarrowest t ts) (narrow : s.narrower t = some m) :
    IsNarrowest m (ss ++ ts) := by
  obtain ⟨left, right⟩ := accepts_narrower narrow
  constructor
  · rcases narrower_eq_some_iff.mp narrow with ⟨-, rfl⟩ | ⟨-, rfl⟩
    · exact List.mem_append_left ts h.mem
    · exact List.mem_append_right ss g.mem
  · intro u mem
    rcases List.mem_append.mp mem with first | second
    · exact accepts_trans left (h.accepted u first)
    · exact accepts_trans right (g.accepted u second)

theorem perm (h : IsNarrowest t ss) (order : ss.Perm ts) : IsNarrowest t ts :=
  ⟨order.mem_iff.mp h.mem, fun u mem => h.accepted u (order.mem_iff.mpr mem)⟩

end IsNarrowest

theorem exists_isNarrowest (some : ts ≠ [])
    (pairs : ts.Pairwise fun s t => s.isComparable t = true) : ∃ t, IsNarrowest t ts := by
  induction ts with
  | nil => exact absurd rfl some
  | cons s ts ih =>
    obtain ⟨first, pairs⟩ := List.pairwise_cons.mp pairs
    by_cases last : ts = []
    · rw [last]
      exact ⟨s, .single s⟩
    · obtain ⟨t, narrowest⟩ := ih last pairs
      obtain ⟨m, narrow⟩ := exists_narrower_iff.mpr (first t narrowest.mem)
      exact ⟨m, (IsNarrowest.single s).append narrowest narrow⟩

end TypeTag

open TypeTag BindVariable

namespace BindVariable

variable {a b m v w : BindVariable} {vs ws : List BindVariable}

theorem agrees_symm (h : v.agrees w = true) : w.agrees v = true := by
  rw [agrees_iff] at h ⊢
  obtain ⟨types, left, right, same⟩ := h
  refine ⟨?_, right, left, fun q second p first => Value.same_symm (same p first q second)⟩
  rw [isComparable_iff] at types ⊢
  exact types.symm

def valuesOf (vs : List BindVariable) : List Value :=
  vs.filterMap BindVariable.value

/-- The types of a row are comparable in pairs, its values are equal in pairs, and the values are
instances of the narrowest type. -/
structure Agreeing (vs : List BindVariable) : Prop where
  types : (vs.map BindVariable.type).Pairwise fun s t => s.isComparable t = true
  values : (valuesOf vs).Pairwise fun p q => p.same q = true
  instances : ∀ t, IsNarrowest t (vs.map BindVariable.type) → ∀ p ∈ valuesOf vs, t.admits p = true

theorem agreeing_iff (some : vs ≠ []) :
    Agreeing vs ↔ vs.Pairwise fun v w => v.agrees w = true := by
  constructor
  · rintro ⟨types, values, instances⟩
    obtain ⟨t, narrowest⟩ := exists_isNarrowest (by simpa using some) types
    have admitted : ∀ v ∈ vs, ∀ w ∈ vs, ∀ p ∈ v.value, w.type.admits p = true := by
      intro v first w second p present
      have narrow := instances t narrowest p (List.mem_filterMap.mpr ⟨v, first, present⟩)
      exact accepts_trans narrow (narrowest.accepted w.type (List.mem_map_of_mem second))
    rw [List.pairwise_map] at types
    rw [valuesOf, List.pairwise_filterMap] at values
    refine (types.and values).imp_of_mem fun first second h => agrees_iff.mpr ?_
    exact ⟨h.1, admitted _ first _ second, admitted _ second _ first,
      fun p left q right => h.2 p left q right⟩
  · intro pairs
    refine ⟨?_, ?_, ?_⟩
    · rw [List.pairwise_map]
      exact pairs.imp fun h => (agrees_iff.mp h).1
    · rw [valuesOf, List.pairwise_filterMap]
      exact pairs.imp fun h p left q right => (agrees_iff.mp h).2.2.2 p left q right
    · intro t narrowest p mem
      obtain ⟨v, first, present⟩ := List.mem_filterMap.mp mem
      obtain ⟨w, second, rfl⟩ := List.mem_map.mp narrowest.mem
      by_cases same : v = w
      · exact same ▸ admits_of_mem_value present
      · have symm : Std.Symm fun v w : BindVariable => v.agrees w = true :=
          ⟨fun _ _ => agrees_symm⟩
        exact (agrees_iff.mp (pairs.forall first second same)).2.1 p present

end BindVariable

/-- A row of references with brackets that say how it is merged in pairs. -/
inductive Grouping where
  | single (v : BindVariable)
  | pair (left right : Grouping)

namespace Grouping

variable {g h l r : Grouping} {a b m n w : BindVariable} {name : BindName} {vs : List BindVariable}

def references : Grouping → List BindVariable
  | single v => [v]
  | pair left right => left.references ++ right.references

def merge : Grouping → Except SqlError BindVariable
  | single v => .ok v
  | pair left right => do
    let a ← left.merge
    let b ← right.merge
    a.combine b

theorem references_ne_nil (g : Grouping) : g.references ≠ [] := by
  induction g with
  | single v => simp [references]
  | pair left right first second => simp [references, first]

theorem merge_pair : (pair l r).merge = .ok m ↔
    ∃ a b, l.merge = .ok a ∧ r.merge = .ok b ∧ a.combine b = .ok m := by
  simp only [merge, Except.bind_eq_ok_iff]
  constructor
  · rintro ⟨a, left, b, right, both⟩
    exact ⟨a, b, left, right, both⟩
  · rintro ⟨a, b, left, right, both⟩
    exact ⟨a, left, b, right, both⟩

theorem name_merge (named : ∀ v ∈ g.references, v.name = name) (h : g.merge = .ok m) :
    m.name = name := by
  induction g generalizing m with
  | single v =>
    obtain rfl := Except.ok.inj h
    exact named v (by simp [references])
  | pair left right first second =>
    obtain ⟨a, b, merged, -, both⟩ := merge_pair.mp h
    have onLeft := first (fun v mem => named v (List.mem_append_left _ mem)) merged
    exact (combine_name both).trans onLeft

theorem type_merge (h : g.merge = .ok m) :
    IsNarrowest m.type (g.references.map BindVariable.type) := by
  induction g generalizing m with
  | single v =>
    obtain rfl := Except.ok.inj h
    exact .single v.type
  | pair left right first second =>
    obtain ⟨a, b, onLeft, onRight, both⟩ := merge_pair.mp h
    obtain ⟨-, -, narrow, -⟩ := combine_eq_ok_iff.mp both
    rw [references, List.map_append]
    exact (first onLeft).append (second onRight) narrow

theorem value_merge (h : g.merge = .ok m) : m.value = (valuesOf g.references).head? := by
  induction g generalizing m with
  | single v =>
    obtain rfl := Except.ok.inj h
    cases value : v.value <;> simp [references, valuesOf, value]
  | pair left right first second =>
    obtain ⟨a, b, onLeft, onRight, both⟩ := merge_pair.mp h
    obtain ⟨-, -, -, value⟩ := combine_eq_ok_iff.mp both
    rw [references, valuesOf, List.filterMap_append, List.head?_append, ← valuesOf, ← valuesOf,
      ← first onLeft, ← second onRight]
    generalize a.value = x, b.value = y, m.value = z at value
    cases value <;> rfl

theorem agrees_merge (h : g.merge = .ok m) :
    m.agrees w = true ↔ ∀ v ∈ g.references, v.agrees w = true := by
  induction g generalizing m with
  | single v =>
    obtain rfl := Except.ok.inj h
    simp [references]
  | pair left right first second =>
    obtain ⟨a, b, onLeft, onRight, both⟩ := merge_pair.mp h
    rw [agrees_combine both, first onLeft, second onRight, references, List.forall_mem_append]

theorem exists_merge_iff (named : ∀ v ∈ g.references, v.name = name) :
    (∃ m, g.merge = .ok m) ↔ g.references.Pairwise fun v w => v.agrees w = true := by
  induction g with
  | single v => simp [references, merge]
  | pair left right first second =>
    have namedLeft : ∀ v ∈ left.references, v.name = name :=
      fun v mem => named v (List.mem_append_left _ mem)
    have namedRight : ∀ v ∈ right.references, v.name = name :=
      fun v mem => named v (List.mem_append_right _ mem)
    -- two merged parts agree exactly if each reference of one agrees with each of the other
    have across : ∀ {a b}, left.merge = .ok a → right.merge = .ok b →
        ((∃ m, a.combine b = .ok m) ↔
          ∀ v ∈ left.references, ∀ w ∈ right.references, v.agrees w = true) := by
      intro a b onLeft onRight
      have names := (name_merge namedLeft onLeft).trans (name_merge namedRight onRight).symm
      rw [exists_combine_iff names, agrees_merge onLeft]
      refine forall₂_congr fun v _ => ?_
      constructor
      · exact fun h w mem => agrees_symm ((agrees_merge onRight).mp (agrees_symm h) w mem)
      · exact fun h => agrees_symm ((agrees_merge onRight).mpr fun w mem => agrees_symm (h w mem))
    rw [references, List.pairwise_append, ← first namedLeft, ← second namedRight]
    constructor
    · rintro ⟨m, merged⟩
      obtain ⟨a, b, onLeft, onRight, both⟩ := merge_pair.mp merged
      exact ⟨⟨a, onLeft⟩, ⟨b, onRight⟩, (across onLeft onRight).mp ⟨m, both⟩⟩
    · rintro ⟨⟨a, onLeft⟩, ⟨b, onRight⟩, agree⟩
      obtain ⟨m, both⟩ := (across onLeft onRight).mpr agree
      exact ⟨m, merge_pair.mpr ⟨a, b, onLeft, onRight, both⟩⟩

theorem merge_unique (named : ∀ v ∈ g.references, v.name = name)
    (same : h.references = g.references) (merged : g.merge = .ok m) : h.merge = .ok m := by
  have named' : ∀ v ∈ h.references, v.name = name := by rwa [same]
  obtain ⟨n, other⟩ := (exists_merge_iff named').mpr <| by
    rw [same]
    exact (exists_merge_iff named).mp ⟨m, merged⟩
  rw [other]
  congr 1
  have names := (name_merge named' other).trans (name_merge named merged).symm
  have types := (type_merge other).unique (same ▸ type_merge merged)
  have values : n.value = m.value := by rw [value_merge other, value_merge merged, same]
  cases n
  cases m
  simp_all

/-- The first values of a row of equal values, read in two orders, are equal or the same and only
one. A value need not be equal to itself, so two others are needed to tell that it is. -/
theorem same_or_single {ps qs : List Value} {p q : Value} (order : ps.Perm qs)
    (equal : ps.Pairwise fun p q => p.same q = true) (first : p ∈ ps.head?)
    (second : q ∈ qs.head?) : p.same q = true ∨ (p = q ∧ ps = [p]) := by
  obtain ⟨rest, rfl⟩ := List.head?_eq_some_iff.mp first
  have mem : q ∈ p :: rest := order.mem_iff.mpr (List.mem_of_mem_head? second)
  have behind := (List.pairwise_cons.mp equal).1
  rcases List.mem_cons.mp mem with rfl | later
  · cases rest with
    | nil => exact .inr ⟨rfl, rfl⟩
    | cons r rest =>
      have next := behind r (by simp)
      exact .inl (Value.same_trans next (Value.same_symm next))
  · exact .inl (behind q later)

/-- Merging the references of one name succeeds or fails alike in any order and any grouping: it
succeeds if the types are comparable, the values equal and the values instances of the narrowest
type, and this is then the type of the result. The grouping decides nothing more, and the order
which of the equal values is kept. -/
theorem merge_any_order (named : ∀ v ∈ vs, v.name = name) (order : g.references.Perm vs) :
    ((∃ m, g.merge = .ok m) ↔ Agreeing vs) ∧
    ∀ m, g.merge = .ok m →
      m.name = name ∧ IsNarrowest m.type (vs.map BindVariable.type) ∧
      (∀ h : Grouping, h.references = g.references → h.merge = .ok m) ∧
      ∀ (h : Grouping) (n : BindVariable), h.references.Perm vs → h.merge = .ok n →
        n.type = m.type ∧ n.value.isSome = m.value.isSome ∧
        ∀ p ∈ m.value, ∀ q ∈ n.value, p.same q = true ∨ (p = q ∧ valuesOf vs = [p]) := by
  have some : vs ≠ [] := by
    rintro rfl
    exact g.references_ne_nil order.eq_nil
  have own : ∀ h : Grouping, h.references.Perm vs → ∀ v ∈ h.references, v.name = name :=
    fun h other v mem => named v (other.mem_iff.mp mem)
  have agreeing : (∃ m, g.merge = .ok m) ↔ Agreeing vs := by
    rw [exists_merge_iff (own g order), agreeing_iff some]
    exact order.pairwise_iff agrees_symm
  refine ⟨agreeing, fun m merged => ?_⟩
  have narrowest := (type_merge merged).perm (order.map BindVariable.type)
  refine ⟨name_merge (own g order) merged, narrowest,
    fun h same => merge_unique (own g order) same merged, fun h n other merged' => ?_⟩
  have both : (valuesOf g.references).Perm (valuesOf h.references) :=
    (order.trans other.symm).filterMap BindVariable.value
  have values : (valuesOf g.references).Perm (valuesOf vs) := order.filterMap BindVariable.value
  rw [value_merge merged, value_merge merged']
  refine ⟨((type_merge merged').perm (other.map BindVariable.type)).unique narrowest, ?_,
    fun p first q second => ?_⟩
  · rw [Bool.eq_iff_iff, List.isSome_head?, List.isSome_head?, ← List.length_pos_iff,
      ← List.length_pos_iff, both.length_eq]
  · have equal : (valuesOf g.references).Pairwise fun p q => p.same q = true :=
      (values.pairwise_iff Value.same_symm).mpr (agreeing.mp ⟨m, merged⟩).values
    refine (same_or_single both equal first second).imp_right fun ⟨eq, only⟩ => ⟨eq, ?_⟩
    rw [only] at values
    exact (List.singleton_perm.mp values).symm

def sampleRow : List BindVariable :=
  [⟨⟨"N", by decide⟩, .number, some (.int 1), rfl⟩, ⟨⟨"N", by decide⟩, .int, none, rfl⟩,
    ⟨⟨"N", by decide⟩, .any, some (.int 1), rfl⟩]

def sampleGrouping : Grouping :=
  pair (pair (single ⟨⟨"N", by decide⟩, .any, some (.int 1), rfl⟩)
    (single ⟨⟨"N", by decide⟩, .number, some (.int 1), rfl⟩))
    (single ⟨⟨"N", by decide⟩, .int, none, rfl⟩)

theorem merge_any_order_sample :
    (∀ v ∈ sampleRow, v.name = ⟨"N", by decide⟩) ∧ sampleGrouping.references.Perm sampleRow ∧
    Agreeing sampleRow ∧ IsNarrowest .int (sampleRow.map BindVariable.type) ∧
    ∀ (h : Grouping) (n : BindVariable), h.references.Perm sampleRow → h.merge = .ok n →
      n.type = .int ∧ ∃ q ∈ n.value, (Value.int 1).same q = true := by
  have named : ∀ v ∈ sampleRow, v.name = ⟨"N", by decide⟩ := by decide
  have order : sampleGrouping.references.Perm sampleRow := by decide
  have merged : sampleGrouping.merge = .ok ⟨⟨"N", by decide⟩, .int, some (.int 1), rfl⟩ := by
    decide
  obtain ⟨agreeing, result⟩ := merge_any_order named order
  obtain ⟨-, narrowest, -, others⟩ := result _ merged
  refine ⟨named, order, agreeing.mp ⟨_, merged⟩, narrowest, fun h n other merged' => ?_⟩
  obtain ⟨type, present, same⟩ := others h n other merged'
  obtain ⟨q, value⟩ := Option.isSome_iff_exists.mp present
  refine ⟨type, q, value, (same (.int 1) rfl q value).resolve_right fun only => ?_⟩
  exact absurd only.2 (by decide)

def missingNumber : BindVariable :=
  ⟨⟨"X", by decide⟩, .float, some (.float ⟨0x7ff8000000000000⟩), rfl⟩

def unsetNumber : BindVariable :=
  ⟨⟨"X", by decide⟩, .float, none, rfl⟩

/-- In both orders the two references are merged into the one value that there is, which is not
equal to itself. -/
theorem merge_missing_number :
    (pair (single missingNumber) (single unsetNumber)).merge = .ok missingNumber ∧
    (pair (single unsetNumber) (single missingNumber)).merge = .ok missingNumber ∧
    ¬∀ p ∈ missingNumber.value, ∀ q ∈ missingNumber.value, p.same q = true := by
  refine ⟨by decide, by decide, fun same => ?_⟩
  exact absurd (same (.float ⟨0x7ff8000000000000⟩) rfl _ rfl) (by decide)

end Grouping

end SqlCompose
