import SqlCompose.Bind.Ledger
import SqlCompose.Proofs.Combine
import Mathlib.Data.List.Induction
import Mathlib.Data.List.Nodup

/-! Ledgers as the record of a row of uses. Noting the uses of a text one by one and merging in
the finished ledger of a part of it lead to the same entries, so a text can be put together from
parts in any grouping. The positions of a ledger that was made in this way are exactly those
that were given out. -/

namespace SqlCompose.Ledger

def names (l : Ledger) : List BindName :=
  l.map fun e => e.bind.name

/-- Notes uses one after the other, at the positions behind `count`. -/
def noteAll (count : Nat) (l : Ledger) : List BindVariable → Except SqlError Ledger
  | [] => .ok l
  | v :: vs =>
    match l.record v [count + 1] with
    | .error err => .error err
    | .ok l => noteAll (count + 1) l vs

def ofUses (vs : List BindVariable) : Except SqlError Ledger :=
  noteAll 0 [] vs

@[simp] theorem names_cons (e : LedgerEntry) (l : Ledger) :
    names (e :: l) = e.bind.name :: names l := rfl

section Record

variable {l l' : Ledger} {v w : BindVariable} {ps qs : List Nat}

theorem record_cons_of_eq {e : LedgerEntry} (same : e.bind.name = v.name) :
    record v ps (e :: l) = .ok l' ↔
      ∃ m, e.bind.combine v = .ok m ∧ l' = ⟨m, e.positions ++ ps⟩ :: l := by
  simp only [record, same, if_true]
  cases e.bind.combine v <;> simp [eq_comm]

theorem record_cons_of_ne {e : LedgerEntry} (other : e.bind.name ≠ v.name) :
    record v ps (e :: l) = .ok l' ↔ ∃ rest, l.record v ps = .ok rest ∧ l' = e :: rest := by
  simp only [record, other, if_false]
  cases l.record v ps <;> simp [eq_comm]

theorem record_cases (h : l.record v ps = .ok l') :
    (v.name ∉ l.names ∧ l' = l ++ [⟨v, ps⟩]) ∨
    ∃ before e after m, l = before ++ e :: after ∧ e.bind.combine v = .ok m ∧
      l' = before ++ ⟨m, e.positions ++ ps⟩ :: after := by
  induction l generalizing l' with
  | nil =>
    simp only [record, Except.ok.injEq] at h
    exact .inl ⟨by simp [names], h.symm⟩
  | cons e l ih =>
    by_cases same : e.bind.name = v.name
    · obtain ⟨m, merged, rfl⟩ := (record_cons_of_eq same).mp h
      exact .inr ⟨[], e, l, m, rfl, merged, rfl⟩
    · obtain ⟨rest, tail, rfl⟩ := (record_cons_of_ne same).mp h
      rcases ih tail with ⟨new, rfl⟩ | ⟨before, f, after, m, rfl, merged, rfl⟩
      · exact .inl ⟨by simp [new, Ne.symm same], rfl⟩
      · exact .inr ⟨e :: before, f, after, m, rfl, merged, rfl⟩

theorem names_record (h : l.record v ps = .ok l') :
    l'.names = if v.name ∈ l.names then l.names else l.names ++ [v.name] := by
  rcases record_cases h with ⟨new, rfl⟩ | ⟨before, e, after, m, rfl, merged, rfl⟩
  · rw [if_neg new]
    simp [names]
  · obtain ⟨same, name, -⟩ := BindVariable.combine_eq_ok_iff.mp merged
    simp [names, name, same]

theorem nodup_names_record (distinct : l.names.Nodup) (h : l.record v ps = .ok l') :
    l'.names.Nodup := by
  rw [names_record h]
  split
  · exact distinct
  · next new => exact List.nodup_append.mpr ⟨distinct, by simp, by grind⟩

theorem mem_names_of_record (h : l.record v ps = .ok l') : v.name ∈ l'.names := by
  rw [names_record h]
  split
  · next known => exact known
  · simp

theorem record_regroup {vw : BindVariable} (h : v.combine w = .ok vw)
    (g : l.record vw (ps ++ qs) = .ok l') :
    ∃ m, l.record v ps = .ok m ∧ m.record w qs = .ok l' := by
  obtain ⟨names, name, -⟩ := BindVariable.combine_eq_ok_iff.mp h
  induction l generalizing l' with
  | nil =>
    simp only [record, Except.ok.injEq] at g
    exact ⟨[⟨v, ps⟩], rfl, (record_cons_of_eq names).mpr ⟨vw, h, g.symm⟩⟩
  | cons e l ih =>
    by_cases same : e.bind.name = v.name
    · obtain ⟨m, merged, rfl⟩ := (record_cons_of_eq (same.trans name.symm)).mp g
      obtain ⟨ev, first, second⟩ := BindVariable.combine_regroup h merged
      have kept : ev.name = w.name := (BindVariable.combine_name first).trans (same.trans names)
      exact ⟨_, (record_cons_of_eq same).mpr ⟨ev, first, rfl⟩,
        (record_cons_of_eq kept).mpr ⟨m, second, by simp⟩⟩
    · obtain ⟨rest, tail, rfl⟩ := (record_cons_of_ne (name ▸ same)).mp g
      obtain ⟨m, first, second⟩ := ih tail
      exact ⟨e :: m, (record_cons_of_ne same).mpr ⟨m, first, rfl⟩,
        (record_cons_of_ne (names ▸ same)).mpr ⟨rest, second, rfl⟩⟩

theorem record_ungroup {m : Ledger} (same : v.name = w.name) (h : l.record v ps = .ok m)
    (g : m.record w qs = .ok l') :
    ∃ vw, v.combine w = .ok vw ∧ l.record vw (ps ++ qs) = .ok l' := by
  induction l generalizing m l' with
  | nil =>
    simp only [record, Except.ok.injEq] at h
    subst h
    obtain ⟨vw, merged, rfl⟩ := (record_cons_of_eq same).mp g
    exact ⟨vw, merged, rfl⟩
  | cons e l ih =>
    by_cases here : e.bind.name = v.name
    · obtain ⟨ev, first, rfl⟩ := (record_cons_of_eq here).mp h
      have kept : ev.name = w.name := (BindVariable.combine_name first).trans (here.trans same)
      obtain ⟨n, second, rfl⟩ := (record_cons_of_eq kept).mp g
      obtain ⟨vw, merged, whole⟩ := BindVariable.combine_ungroup first second
      have name : e.bind.name = vw.name := here.trans (BindVariable.combine_name merged).symm
      exact ⟨vw, merged, (record_cons_of_eq name).mpr ⟨n, whole, by simp⟩⟩
    · obtain ⟨k, first, rfl⟩ := (record_cons_of_ne here).mp h
      obtain ⟨rest, second, rfl⟩ := (record_cons_of_ne (same ▸ here)).mp g
      obtain ⟨vw, merged, whole⟩ := ih first second
      have name : e.bind.name ≠ vw.name := (BindVariable.combine_name merged).symm ▸ here
      exact ⟨vw, merged, (record_cons_of_ne name).mpr ⟨rest, whole, rfl⟩⟩

theorem record_comm {k : Ledger} (known : v.name ∈ l.names ∨ w.name ∈ l.names)
    (other : v.name ≠ w.name) (h : l.record v ps = .ok k) (g : k.record w qs = .ok l') :
    ∃ m, l.record w qs = .ok m ∧ m.record v ps = .ok l' := by
  induction l generalizing k l' with
  | nil => simp [names] at known
  | cons e l ih =>
    by_cases same : e.bind.name = v.name
    · obtain ⟨ev, merged, rfl⟩ := (record_cons_of_eq same).mp h
      have kept : ev.name ≠ w.name := by
        rw [BindVariable.combine_name merged, same]
        exact other
      obtain ⟨rest, tail, rfl⟩ := (record_cons_of_ne kept).mp g
      exact ⟨e :: rest, (record_cons_of_ne (same ▸ other)).mpr ⟨rest, tail, rfl⟩,
        (record_cons_of_eq same).mpr ⟨ev, merged, rfl⟩⟩
    · obtain ⟨k, first, rfl⟩ := (record_cons_of_ne same).mp h
      by_cases here : e.bind.name = w.name
      · obtain ⟨ew, merged, rfl⟩ := (record_cons_of_eq here).mp g
        have kept : ew.name ≠ v.name := by
          rw [BindVariable.combine_name merged]
          exact same
        exact ⟨_, (record_cons_of_eq here).mpr ⟨ew, merged, rfl⟩,
          (record_cons_of_ne kept).mpr ⟨k, first, rfl⟩⟩
      · obtain ⟨rest, second, rfl⟩ := (record_cons_of_ne here).mp g
        have later : v.name ∈ names l ∨ w.name ∈ names l := by
          simpa [Ne.symm same, Ne.symm here] using known
        obtain ⟨m, second, first⟩ := ih later first second
        exact ⟨e :: m, (record_cons_of_ne here).mpr ⟨m, second, rfl⟩,
          (record_cons_of_ne same).mpr ⟨rest, first, rfl⟩⟩

theorem recordAll_cons {e : LedgerEntry} {es : List LedgerEntry} :
    l.recordAll (e :: es) = (l', .ok ()) ↔
      ∃ m, l.record e.bind e.positions = .ok m ∧ m.recordAll es = (l', .ok ()) := by
  simp only [recordAll]
  cases l.record e.bind e.positions <;> simp

theorem record_recordAll_comm {k : Ledger} {es : List LedgerEntry} (known : v.name ∈ l.names)
    (other : v.name ∉ names es) (h : l.record v ps = .ok k) (g : k.recordAll es = (l', .ok ())) :
    ∃ m, l.recordAll es = (m, .ok ()) ∧ m.record v ps = .ok l' := by
  induction es generalizing l k with
  | nil =>
    simp only [recordAll, Prod.mk.injEq, and_true] at g
    exact ⟨l, rfl, g ▸ h⟩
  | cons e es ih =>
    simp only [names_cons, List.mem_cons, not_or] at other
    obtain ⟨n, first, rest⟩ := recordAll_cons.mp g
    obtain ⟨m, swapped, again⟩ := record_comm (.inl known) other.1 h first
    have still : v.name ∈ m.names := by
      rw [names_record swapped]
      split <;> simp [known]
    obtain ⟨r, all, last⟩ := ih still other.2 again rest
    exact ⟨r, recordAll_cons.mpr ⟨m, swapped, all⟩, last⟩

theorem recordAll_record_comm {m : Ledger} {es : List LedgerEntry} (known : v.name ∈ l.names)
    (other : v.name ∉ names es) (h : l.recordAll es = (m, .ok ())) (g : m.record v ps = .ok l') :
    ∃ k, l.record v ps = .ok k ∧ k.recordAll es = (l', .ok ()) := by
  induction es generalizing l m with
  | nil =>
    simp only [recordAll, Prod.mk.injEq, and_true] at h
    exact ⟨l', h ▸ g, rfl⟩
  | cons e es ih =>
    simp only [names_cons, List.mem_cons, not_or] at other
    obtain ⟨n, first, rest⟩ := recordAll_cons.mp h
    have still : v.name ∈ n.names := by
      rw [names_record first]
      split <;> simp [known]
    obtain ⟨r, recorded, all⟩ := ih still other.2 rest g
    obtain ⟨k, swapped, again⟩ := record_comm (.inr known) (Ne.symm other.1) first recorded
    exact ⟨k, swapped, recordAll_cons.mpr ⟨r, again, all⟩⟩

theorem recordAll_record {k k' : Ledger} (distinct : k.names.Nodup)
    (h : k.record v ps = .ok k') (g : l.recordAll k' = (l', .ok ())) :
    ∃ m, l.recordAll k = (m, .ok ()) ∧ m.record v ps = .ok l' := by
  induction k generalizing l k' with
  | nil =>
    simp only [record, Except.ok.injEq] at h
    subst h
    obtain ⟨m, first, rest⟩ := recordAll_cons.mp g
    simp only [recordAll, Prod.mk.injEq, and_true] at rest
    exact ⟨l, rfl, rest ▸ first⟩
  | cons e k ih =>
    obtain ⟨fresh, distinct⟩ := List.nodup_cons.mp distinct
    by_cases same : e.bind.name = v.name
    · obtain ⟨ev, merged, rfl⟩ := (record_cons_of_eq same).mp h
      obtain ⟨m, together, rest⟩ := recordAll_cons.mp g
      obtain ⟨n, first, second⟩ := record_regroup merged together
      have known : v.name ∈ n.names := same ▸ mem_names_of_record first
      obtain ⟨r, all, last⟩ := record_recordAll_comm known (same ▸ fresh) second rest
      exact ⟨r, recordAll_cons.mpr ⟨n, first, all⟩, last⟩
    · obtain ⟨k', tail, rfl⟩ := (record_cons_of_ne same).mp h
      obtain ⟨n, first, rest⟩ := recordAll_cons.mp g
      obtain ⟨m, all, last⟩ := ih distinct tail rest
      exact ⟨m, recordAll_cons.mpr ⟨n, first, all⟩, last⟩

theorem exists_record_of_recordAll {k m : Ledger} (distinct : k.names.Nodup)
    (h : l.recordAll k = (m, .ok ())) (g : m.record v ps = .ok l') :
    ∃ k', k.record v ps = .ok k' ∧ l.recordAll k' = (l', .ok ()) := by
  induction k generalizing l m with
  | nil =>
    simp only [recordAll, Prod.mk.injEq, and_true] at h
    subst h
    exact ⟨_, rfl, recordAll_cons.mpr ⟨l', g, rfl⟩⟩
  | cons e k ih =>
    obtain ⟨fresh, distinct⟩ := List.nodup_cons.mp distinct
    obtain ⟨n, first, rest⟩ := recordAll_cons.mp h
    by_cases same : e.bind.name = v.name
    · have known : v.name ∈ n.names := same ▸ mem_names_of_record first
      obtain ⟨r, recorded, all⟩ := recordAll_record_comm known (same ▸ fresh) rest g
      obtain ⟨ev, merged, together⟩ := record_ungroup same first recorded
      exact ⟨_, (record_cons_of_eq same).mpr ⟨ev, merged, rfl⟩,
        recordAll_cons.mpr ⟨r, together, all⟩⟩
    · obtain ⟨k', tail, all⟩ := ih distinct rest g
      exact ⟨_, (record_cons_of_ne same).mpr ⟨k', tail, rfl⟩,
        recordAll_cons.mpr ⟨n, first, all⟩⟩

theorem record_shift (v : BindVariable) (ps : List Nat) (n : Nat) (l : Ledger) :
    record v (ps.map (· + n)) (l.map (LedgerEntry.shift n)) =
      (l.record v ps).map (List.map (LedgerEntry.shift n)) := by
  induction l with
  | nil => rfl
  | cons e l ih =>
    simp only [record, List.map_cons]
    split
    · next same =>
      have unshifted : e.bind.name = v.name := same
      simp only [unshifted, if_true, LedgerEntry.shift]
      cases e.bind.combine v <;> simp [Except.map, LedgerEntry.shift]
    · next other =>
      have unshifted : e.bind.name ≠ v.name := other
      simp only [unshifted, if_false, ih]
      cases record v ps l <;> rfl

theorem recordAll_shift_record_iff {k : Ledger} {count : Nat} (distinct : k.names.Nodup) :
    (∃ k', k.record v ps = .ok k' ∧
      l.recordAll (k'.map (LedgerEntry.shift count)) = (l', .ok ())) ↔
    ∃ m, l.recordAll (k.map (LedgerEntry.shift count)) = (m, .ok ()) ∧
      m.record v (ps.map (· + count)) = .ok l' := by
  have names : (names (k.map (LedgerEntry.shift count))).Nodup := by
    simpa [Ledger.names, LedgerEntry.shift, Function.comp_def] using distinct
  have shifted := record_shift v ps count k
  constructor
  · rintro ⟨k', noted, merged⟩
    rw [noted] at shifted
    exact recordAll_record names shifted merged
  · rintro ⟨m, merged, noted⟩
    obtain ⟨k', first, all⟩ := exists_record_of_recordAll names merged noted
    have whole := shifted.symm.trans first
    cases known : k.record v ps with
    | error e =>
      rw [known] at whole
      cases whole
    | ok k'' =>
      rw [known] at whole
      obtain rfl := Except.ok.inj whole
      exact ⟨k'', rfl, all⟩

theorem nodup_names_recordAll {es : List LedgerEntry} (distinct : l.names.Nodup)
    (h : l.recordAll es = (l', .ok ())) : l'.names.Nodup := by
  induction es generalizing l with
  | nil =>
    obtain rfl := (Prod.mk.inj h).1
    exact distinct
  | cons e es ih =>
    obtain ⟨m, first, rest⟩ := recordAll_cons.mp h
    exact ih (nodup_names_record distinct first) rest

theorem recordAll_append {es fs : List LedgerEntry} : l.recordAll (es ++ fs) = (l', .ok ()) ↔
    ∃ m, l.recordAll es = (m, .ok ()) ∧ m.recordAll fs = (l', .ok ()) := by
  induction es generalizing l with
  | nil => simp [recordAll]
  | cons e es ih =>
    simp only [List.cons_append, recordAll_cons, ih]
    constructor
    · rintro ⟨n, first, m, rest, last⟩
      exact ⟨m, ⟨n, first, rest⟩, last⟩
    · rintro ⟨m, ⟨n, first, rest⟩, last⟩
      exact ⟨n, first, m, rest, last⟩

theorem recordAll_shift_recordAll_iff {k : Ledger} {es : List LedgerEntry} {count inner : Nat}
    (distinct : k.names.Nodup) :
    (∃ k', k.recordAll (es.map (LedgerEntry.shift inner)) = (k', .ok ()) ∧
      l.recordAll (k'.map (LedgerEntry.shift count)) = (l', .ok ())) ↔
    ∃ m, l.recordAll (k.map (LedgerEntry.shift count)) = (m, .ok ()) ∧
      m.recordAll (es.map (LedgerEntry.shift (count + inner))) = (l', .ok ()) := by
  induction es generalizing k with
  | nil => simp [recordAll]
  | cons e es ih =>
    have positions : (e.positions.map (· + inner)).map (· + count) =
        e.positions.map (· + (count + inner)) := by
      rw [List.map_map]
      exact congrArg (e.positions.map ·) (funext fun p => by simp only [Function.comp]; omega)
    have here : ∀ m : Ledger,
        (∃ n, k.record e.bind (e.positions.map (· + inner)) = .ok n ∧
          l.recordAll (n.map (LedgerEntry.shift count)) = (m, .ok ())) ↔
        ∃ r, l.recordAll (k.map (LedgerEntry.shift count)) = (r, .ok ()) ∧
          r.record e.bind (e.positions.map (· + (count + inner))) = .ok m := by
      intro m
      rw [← positions]
      exact recordAll_shift_record_iff distinct
    simp only [List.map_cons, recordAll_cons]
    constructor
    · rintro ⟨k', ⟨n, first, rest⟩, merged⟩
      obtain ⟨m, before, behind⟩ := (ih (nodup_names_record distinct first)).mp ⟨k', rest, merged⟩
      obtain ⟨r, before, noted⟩ := (here m).mp ⟨n, first, before⟩
      exact ⟨r, before, m, noted, behind⟩
    · rintro ⟨r, before, m, noted, behind⟩
      obtain ⟨n, first, before⟩ := (here m).mpr ⟨r, before, noted⟩
      obtain ⟨k', rest, merged⟩ := (ih (nodup_names_record distinct first)).mpr ⟨m, before, behind⟩
      exact ⟨k', ⟨n, first, rest⟩, merged⟩

theorem record_covers (h : l.record v ps = .ok l') :
    (∃ e ∈ l', e.bind.Covers v ∧ ps ⊆ e.positions) ∧
    ∀ e ∈ l, ∃ e' ∈ l', e'.bind.Covers e.bind ∧ e.positions ⊆ e'.positions := by
  rcases record_cases h with ⟨-, rfl⟩ | ⟨before, e, after, m, rfl, merged, rfl⟩
  · refine ⟨⟨⟨v, ps⟩, by simp, .refl v, List.Subset.refl _⟩, fun e mem => ?_⟩
    exact ⟨e, by simp [mem], .refl _, List.Subset.refl _⟩
  · obtain ⟨covers, covers'⟩ := BindVariable.combine_covers merged
    have here : (⟨m, e.positions ++ ps⟩ : LedgerEntry) ∈
        before ++ ⟨m, e.positions ++ ps⟩ :: after := by simp
    refine ⟨⟨_, here, covers', List.subset_append_right _ _⟩, fun f mem => ?_⟩
    rcases List.mem_append.mp mem with mem | mem
    · exact ⟨f, by simp [mem], .refl _, List.Subset.refl _⟩
    · rcases List.mem_cons.mp mem with rfl | mem
      · exact ⟨_, here, covers, List.subset_append_left _ _⟩
      · exact ⟨f, by simp [mem], .refl _, List.Subset.refl _⟩

end Record

/-- What holds of a ledger behind `count` placeholders: every position belongs to exactly one
variable, no variable stands twice, and the variables stand in the order of first use. -/
structure Sound (count : Nat) (l : Ledger) : Prop where
  distinct : l.names.Nodup
  used : ∀ e ∈ l, e.positions ≠ []
  increasing : ∀ e ∈ l, e.positions.Pairwise (· < ·)
  ordered : (l.map fun e => e.positions.headD 0).Pairwise (· < ·)
  covered : (l.flatMap LedgerEntry.positions).Perm (List.range' 1 count)

namespace Sound

variable {count : Nat} {l l' : Ledger} {v : BindVariable}

theorem nil : Sound 0 [] :=
  ⟨by simp [names], by simp, by simp, by simp, by simp⟩

theorem position_le (h : Sound count l) {e : LedgerEntry} (mem : e ∈ l) {p : Nat}
    (at_ : p ∈ e.positions) : p ≤ count := by
  have covered : p ∈ List.range' 1 count :=
    h.covered.subset (List.mem_flatMap.mpr ⟨e, mem, at_⟩)
  rw [List.mem_range'_1] at covered
  omega

theorem range'_succ_count (count : Nat) :
    List.range' 1 (count + 1) = List.range' 1 count ++ [count + 1] := by
  rw [List.range'_concat, Nat.one_mul, Nat.add_comm 1 count]

theorem concat (h : Sound count l) (distinct : (l ++ [⟨v, [count + 1]⟩] : Ledger).names.Nodup) :
    Sound (count + 1) (l ++ [⟨v, [count + 1]⟩]) := by
  refine ⟨distinct, ?_, ?_, ?_, ?_⟩
  · simpa [or_imp, forall_and] using h.used
  · simpa [or_imp, forall_and] using h.increasing
  · rw [List.map_append, List.pairwise_append]
    refine ⟨h.ordered, by simp, ?_⟩
    simp only [List.mem_map, List.map_cons, List.map_nil, List.mem_singleton]
    rintro _ ⟨e, mem, rfl⟩ _ rfl
    have first : e.positions.headD 0 ∈ e.positions := by
      cases same : e.positions with
      | nil => exact absurd same (h.used e mem)
      | cons p ps => simp
    exact Nat.lt_succ_of_le (h.position_le mem first)
  · rw [List.flatMap_append, range'_succ_count]
    simpa using h.covered.append_right [count + 1]

theorem extend {before after : Ledger} {e : LedgerEntry} (h : Sound count (before ++ e :: after))
    (m : BindVariable)
    (distinct : (before ++ ⟨m, e.positions ++ [count + 1]⟩ :: after : Ledger).names.Nodup) :
    Sound (count + 1) (before ++ ⟨m, e.positions ++ [count + 1]⟩ :: after) := by
  have known : e ∈ before ++ e :: after := by simp
  refine ⟨distinct, ?_, ?_, ?_, ?_⟩
  · have used := h.used
    simp_all [or_imp, forall_and]
  · have increasing := h.increasing
    simp only [List.mem_append, List.mem_cons, or_imp, forall_and, forall_eq] at increasing ⊢
    refine ⟨increasing.1, ?_, increasing.2.2⟩
    rw [List.pairwise_append]
    refine ⟨increasing.2.1, by simp, fun p mem q last => ?_⟩
    rw [List.mem_singleton.mp last]
    exact Nat.lt_succ_of_le (h.position_le known mem)
  · have first : (e.positions ++ [count + 1]).headD 0 = e.positions.headD 0 := by
      cases same : e.positions with
      | nil => exact absurd same (h.used e known)
      | cons p ps => rfl
    have ordered := h.ordered
    simp only [List.map_append, List.map_cons] at ordered ⊢
    rwa [first]
  · have covered := h.covered
    rw [range'_succ_count]
    refine List.Perm.trans ?_ (covered.append_right [count + 1])
    simp only [List.flatMap_append, List.flatMap_cons, List.append_assoc]
    refine List.Perm.append_left _ (List.Perm.append_left _ ?_)
    exact List.perm_append_comm

theorem record (h : Sound count l) (g : l.record v [count + 1] = .ok l') :
    Sound (count + 1) l' := by
  have distinct : l'.names.Nodup := nodup_names_record h.distinct g
  rcases record_cases g with ⟨-, rfl⟩ | ⟨before, e, after, m, rfl, -, rfl⟩
  · exact h.concat distinct
  · exact h.extend m distinct

end Sound

section Notes

variable {count : Nat} {l l' : Ledger} {vs ws : List BindVariable}

theorem noteAll_cons {v : BindVariable} : l.noteAll count (v :: vs) = .ok l' ↔
    ∃ k, l.record v [count + 1] = .ok k ∧ k.noteAll (count + 1) vs = .ok l' := by
  simp only [noteAll]
  cases l.record v [count + 1] <;> simp

theorem noteAll_append : l.noteAll count (vs ++ ws) = .ok l' ↔
    ∃ k, l.noteAll count vs = .ok k ∧ k.noteAll (count + vs.length) ws = .ok l' := by
  induction vs generalizing count l with
  | nil => simp [noteAll]
  | cons v vs ih =>
    simp only [List.cons_append, noteAll_cons, ih, List.length_cons]
    grind

theorem noteAll_singleton {v : BindVariable} :
    l.noteAll count [v] = l.record v [count + 1] := by
  simp only [noteAll]
  cases l.record v [count + 1] <;> rfl

theorem ofUses_concat {v : BindVariable} : ofUses (vs ++ [v]) = .ok l ↔
    ∃ k, ofUses vs = .ok k ∧ k.record v [vs.length + 1] = .ok l := by
  simp only [ofUses, noteAll_append, noteAll_singleton, Nat.zero_add]

theorem sound_ofUses (h : ofUses vs = .ok l) : Sound vs.length l := by
  induction vs using List.reverseRecOn generalizing l with
  | nil =>
    obtain rfl := Except.ok.inj h
    exact .nil
  | append_singleton vs v ih =>
    obtain ⟨k, uses, last⟩ := ofUses_concat.mp h
    rw [List.length_append]
    exact (ih uses).record last

theorem covers_ofUses (h : ofUses vs = .ok l) {k : Nat} {v : BindVariable}
    (use : vs[k]? = some v) : ∃ e ∈ l, k + 1 ∈ e.positions ∧ e.bind.Covers v := by
  induction vs using List.reverseRecOn generalizing l with
  | nil => simp at use
  | append_singleton vs w ih =>
    obtain ⟨m, uses, last⟩ := ofUses_concat.mp h
    obtain ⟨⟨e, mem, covers, noted⟩, before⟩ := record_covers last
    by_cases here : k < vs.length
    · rw [List.getElem?_append_left here] at use
      obtain ⟨f, known, position, covers⟩ := ih uses use
      obtain ⟨g, mem, more, kept⟩ := before f known
      exact ⟨g, mem, kept position, more.trans covers⟩
    · obtain ⟨rfl, rfl⟩ : k = vs.length ∧ w = v := by
        have bound := (List.getElem?_eq_some_iff.mp use).1
        rw [List.length_append, List.length_singleton] at bound
        obtain rfl : k = vs.length := by omega
        simpa using use
      exact ⟨e, mem, noted (by simp), covers⟩

theorem noteAll_of_recordAll {inner : Ledger} (h : ofUses vs = .ok inner)
    (g : l.recordAll (inner.map (LedgerEntry.shift count)) = (l', .ok ())) :
    l.noteAll count vs = .ok l' := by
  induction vs using List.reverseRecOn generalizing inner l' with
  | nil =>
    obtain rfl := Except.ok.inj h
    obtain rfl := (Prod.mk.inj g).1
    rfl
  | append_singleton vs v ih =>
    obtain ⟨k, uses, last⟩ := ofUses_concat.mp h
    have distinct : k.names.Nodup := (sound_ofUses uses).distinct
    obtain ⟨m, all, final⟩ := (recordAll_shift_record_iff distinct).mp ⟨inner, last, g⟩
    have position : count + vs.length + 1 = vs.length + 1 + count := by omega
    refine noteAll_append.mpr ⟨m, ih uses all, ?_⟩
    rw [noteAll_singleton, position]
    exact final

end Notes

end SqlCompose.Ledger
