import Mathlib.Data.List.Pairwise
import SqlCompose.Render.Select

/-! Qualifiers of columns. A written qualifier is looked up among aliases and names of tables at
once, from the innermost select outwards, and the qualifier of the source that is found is written
instead. What SQL finds under the new qualifier is the same source only where the lookup cannot
tell aliases from names of tables: a table that stands earlier takes the columns of a later alias
of its name, and an alias that is written for the name of a table may stand for another source in a
select further inside. -/

namespace SqlCompose

namespace NamePath

variable {p q r : NamePath} {a : SimpleName}

theorem endsWith_iff : p.endsWith q = true ↔ q.segments <:+ p.segments :=
  List.isSuffixOf_iff_suffix

theorem endsWith_refl (p : NamePath) : p.endsWith p = true :=
  endsWith_iff.mpr (List.suffix_refl _)

theorem endsWith_trans (h : p.endsWith q = true) (g : q.endsWith r = true) :
    p.endsWith r = true :=
  endsWith_iff.mpr ((endsWith_iff.mp g).trans (endsWith_iff.mp h))

theorem endsWith_ofSimple_iff : p.endsWith (.ofSimple a) = true ↔ p.last = a := by
  have single : (ofSimple a).segments = [a] := rfl
  rw [endsWith_iff, single, segments]
  constructor
  · rintro ⟨front, split⟩
    exact (List.append_inj_right' split rfl |> List.singleton_inj.mp).symm
  · rintro rfl
    exact List.suffix_append _ _

theorem eq_ofSimple_of_endsWith (h : (ofSimple a).endsWith q = true) : q = .ofSimple a := by
  obtain ⟨front, split⟩ := endsWith_iff.mp h
  have whole : front ++ q.qualifiers ++ [q.last] = [] ++ [a] := by
    rw [List.append_assoc]
    exact split
  obtain ⟨none, last⟩ := List.append_inj' whole rfl
  obtain ⟨-, unqualified⟩ := List.append_eq_nil_iff.mp none
  obtain ⟨qualifiers, segment⟩ := q
  obtain rfl : qualifiers = [] := unqualified
  obtain rfl : segment = a := List.singleton_inj.mp last
  rfl

end NamePath

namespace Source

variable {s t : Source} {a : SimpleName} {q w : NamePath}

def isTableNamed (a : SimpleName) : Source → Bool
  | table name _ => name.last = a
  | _ => false

/-- Whether a qualifier stands for the source in SQL: with an alias, a source goes by the alias
only, and a table without one by its name and by the ends of that name. -/
def goesBy (s : Source) (q : NamePath) : Bool :=
  match s.aliasName, s with
  | some a, _ => q == .ofSimple a
  | none, table name _ => name.endsWith q
  | none, _ => false

theorem qualifier_of_aliasName (named : s.aliasName = some a) :
    s.qualifier = some (.ofSimple a) := by
  simp only [qualifier, named]

theorem resolves_ofSimple_iff :
    s.resolves (.ofSimple a) = true ↔ s.aliasName = some a ∨ s.isTableNamed a = true := by
  have byAlias : s.aliasName.any (fun b => NamePath.ofSimple a == .ofSimple b) = true ↔
      s.aliasName = some a := by
    simp [Option.any_eq_true, NamePath.ofSimple]
  simp only [resolves, Bool.or_eq_true, byAlias]
  cases s with
  | table name given => simp [isTableNamed, NamePath.endsWith_ofSimple_iff]
  | subselect select given => simp [isTableNamed]
  | raw sql given => simp [isTableNamed]

theorem goesBy_qualifier (h : s.qualifier = some q) : s.goesBy q = true := by
  cases s with
  | table name given =>
    cases given with
    | none =>
      obtain rfl := Option.some.inj h
      exact NamePath.endsWith_refl _
    | some a =>
      obtain rfl := Option.some.inj h
      exact beq_self_eq_true _
  | subselect select a =>
    obtain rfl := Option.some.inj h
    exact beq_self_eq_true _
  | raw sql given =>
    cases given with
    | none => cases h
    | some a =>
      obtain rfl := Option.some.inj h
      exact beq_self_eq_true _

theorem qualifier_of_goesBy (named : s.aliasName = some a) (h : s.goesBy q = true) :
    s.qualifier = some q := by
  simp only [goesBy, named, beq_iff_eq] at h
  rw [qualifier_of_aliasName named, h]

theorem resolves_of_goesBy (h : s.goesBy q = true) (ends : q.endsWith w = true) :
    s.resolves w = true := by
  cases named : s.aliasName with
  | some a =>
    simp only [goesBy, named, beq_iff_eq] at h
    subst h
    obtain rfl := NamePath.eq_ofSimple_of_endsWith ends
    exact resolves_ofSimple_iff.mpr (.inl named)
  | none =>
    cases s with
    | table name given =>
      obtain rfl : given = none := named
      simpa [resolves, aliasName] using NamePath.endsWith_trans h ends
    | subselect select a => cases named
    | raw sql given => simp [goesBy, named] at h

theorem goesBy_eq_false (h : s.resolves w = false) (ends : q.endsWith w = true) :
    s.goesBy q = false := by
  by_contra taken
  rw [resolves_of_goesBy (Bool.not_eq_false _ ▸ taken) ends] at h
  cases h

theorem exists_qualifier_of_resolves (h : s.resolves w = true) : ∃ q, s.qualifier = some q := by
  cases s with
  | table name given => cases given <;> exact ⟨_, rfl⟩
  | subselect select a => exact ⟨_, rfl⟩
  | raw sql given =>
    cases given with
    | none => cases h
    | some a => exact ⟨_, rfl⟩

theorem endsWith_of_resolves (h : s.resolves w = true) (own : s.qualifier = some q)
    (plain : ∀ a, s.aliasName = some a → w = .ofSimple a) : q.endsWith w = true := by
  cases named : s.aliasName with
  | some a =>
    obtain rfl := Option.some.inj (own.symm.trans (qualifier_of_aliasName named))
    rw [plain a named]
    exact NamePath.endsWith_refl _
  | none =>
    cases s with
    | table name given =>
      obtain rfl : given = none := named
      obtain rfl := Option.some.inj own
      simpa [resolves, aliasName] using h
    | subselect select a => cases named
    | raw sql given =>
      obtain rfl : given = none := named
      cases own

def Distinct (ss : List Source) : Prop :=
  ss.Pairwise fun s t => ∀ q ∈ s.qualifier, q ∉ t.qualifier

theorem Distinct.eq {ss : List Source} (h : Distinct ss) (left : s ∈ ss) (right : t ∈ ss)
    (own : s.qualifier = some q) (other : t.qualifier = some q) : s = t := by
  by_contra differ
  have symmetric : Std.Symm fun s t : Source => ∀ q ∈ s.qualifier, q ∉ t.qualifier :=
    ⟨fun s t apart q mem mem' => apart q mem' mem⟩
  exact h.forall left right differ q own other

theorem Distinct.eq_or_of_goesBy {ss : List Source} (h : Distinct ss) (left : s ∈ ss)
    (own : s.qualifier = some q) (right : t ∈ ss) (goes : t.goesBy q = true) :
    t = s ∨ t.aliasName = none := by
  cases named : t.aliasName with
  | none => exact .inr rfl
  | some a => exact .inl (h.eq right left (qualifier_of_goesBy named goes) own)

end Source

theorem Select.distinct_of_make {columns : List SelectColumn} {sources : List Source}
    {condition : Condition} {s : Select} (made : Select.make columns sources condition = .ok s) :
    s.sources = sources ∧ Source.Distinct sources := by
  simp only [make] at made
  split at made
  · cases made
  · split at made
    · cases made
    · split at made
      · cases made
      · next unique =>
        obtain rfl := Except.ok.inj made
        refine ⟨rfl, ?_⟩
        have nodup := ((firstRepeated_eq_none_iff _ _).mp unique).1
        rw [List.Nodup, List.pairwise_filterMap] at nodup
        exact nodup.imp fun apart q mem mem' => apart q mem q mem' rfl

section Lookup

variable {scope : Scope} {c : ColumnRef} {w : NamePath} {e : Source}

theorem Scope.qualifierFor_of_resolve? (written : c.table = some w)
    (found : scope.resolve? w = some e) {q : NamePath} (own : e.qualifier = some q) :
    scope.qualifierFor c = some q := by
  simp [qualifierFor, written, found, own]

variable {before after : List Source} {a : SimpleName}

theorem Source.find?_resolves_eq (distinct : Distinct (before ++ e :: after))
    (named : e.aliasName = some a) :
    before.find? (fun s => s.resolves (.ofSimple a)) = before.find? (isTableNamed a) := by
  have apart := (List.pairwise_append.mp distinct).2.2
  have other : ∀ s ∈ before, s.aliasName ≠ some a := by
    intro s mem same
    exact apart s mem e (by simp) _ (qualifier_of_aliasName same) (qualifier_of_aliasName named)
  have same : ∀ s ∈ before, s.resolves (.ofSimple a) = s.isTableNamed a := by
    intro s mem
    rw [Bool.eq_iff_iff, resolves_ofSimple_iff, or_iff_right (other s mem)]
  clear distinct apart other
  induction before with
  | nil => rfl
  | cons s before ih =>
    rw [List.find?_cons, List.find?_cons, same s (by simp),
      ih fun t mem => same t (List.mem_cons_of_mem s mem)]

theorem Scope.resolve?_enter_ofSimple (scope : Scope)
    (distinct : Source.Distinct (before ++ e :: after)) (named : e.aliasName = some a) :
    (scope.enter (before ++ e :: after)).resolve? (.ofSimple a) =
      (before.find? (Source.isTableNamed a)).or (some e) := by
  have here : e.resolves (.ofSimple a) = true := Source.resolves_ofSimple_iff.mpr (.inl named)
  rw [resolve?, enter, List.flatten_cons, List.append_assoc, List.find?_append,
    Source.find?_resolves_eq distinct named, List.cons_append, List.find?_cons, here]

/-- A column that is qualified with the alias of a source is written with this alias exactly if no
source that stands before is a table with a name that ends in the alias. The first such table takes
the column otherwise, whose qualifier then is another one. -/
theorem Select.qualifierFor_alias {columns : List SelectColumn} {sources : List Source}
    {condition : Condition} {s : Select} (made : Select.make columns sources condition = .ok s)
    (split : s.sources = before ++ e :: after) (named : e.aliasName = some a) (scope : Scope)
    (written : c.table = some (.ofSimple a)) :
    ((scope.enter s.sources).qualifierFor c = some (.ofSimple a) ↔
      ∀ t ∈ before, t.isTableNamed a = false) ∧
    ∀ t, before.find? (Source.isTableNamed a) = some t →
      (scope.enter s.sources).qualifierFor c = t.qualifier ∧ t.qualifier ≠ e.qualifier := by
  obtain ⟨rfl, distinct⟩ := Select.distinct_of_make made
  rw [split] at distinct ⊢
  have own := Source.qualifier_of_aliasName named
  have lookup := scope.resolve?_enter_ofSimple distinct named
  have taken : ∀ t, before.find? (Source.isTableNamed a) = some t →
      (scope.enter (before ++ e :: after)).qualifierFor c = t.qualifier ∧
        t.qualifier ≠ e.qualifier := by
    intro t found
    have mem := List.mem_of_find?_eq_some found
    have resolved := Source.resolves_ofSimple_iff.mpr (.inr (List.find?_some found))
    obtain ⟨q, qualified⟩ := Source.exists_qualifier_of_resolves resolved
    rw [found, Option.some_or] at lookup
    rw [Scope.qualifierFor_of_resolve? written lookup qualified, qualified]
    refine ⟨rfl, fun same => ?_⟩
    exact (List.pairwise_append.mp distinct).2.2 t mem e (by simp) q qualified same.symm
  refine ⟨⟨fun kept t mem => ?_, fun none => ?_⟩, taken⟩
  · cases found : before.find? (Source.isTableNamed a) with
    | none => simpa using List.find?_eq_none.mp found t mem
    | some u =>
      obtain ⟨moved, differ⟩ := taken u found
      exact absurd (moved.symm.trans (kept.trans own.symm)) differ
  · have nowhere : before.find? (Source.isTableNamed a) = Option.none :=
      List.find?_eq_none.mpr fun t mem => by simp [none t mem]
    rw [nowhere, Option.none_or] at lookup
    exact Scope.qualifierFor_of_resolve? written lookup own

def takenColumn : ColumnRef :=
  ⟨some (.ofSimple (.unquoted "e" (by decide))), .unquoted "day" (by decide), .any⟩

/-- `e x` and `events e`: the name of the first table is the alias of the second. -/
def crossedSources : List Source :=
  [.table (.ofSimple (.unquoted "e" (by decide))) (some (.unquoted "x" (by decide))),
    .table (.ofSimple (.unquoted "events" (by decide))) (some (.unquoted "e" (by decide)))]

def crossedSelect : Select :=
  ⟨[⟨.column takenColumn, none⟩], crossedSources, .empty⟩

/-- The column of the second table is read from the first. -/
theorem Select.qualifierFor_alias_sample :
    Select.make crossedSelect.columns crossedSources .empty = .ok crossedSelect ∧
    ((Scope.outermost .defaults).enter crossedSources).qualifierFor takenColumn =
      some (.ofSimple (.unquoted "x" (by decide))) ∧
    (Renderer.defaults.render crossedSelect).toOption.map (·.sql) =
      some "SELECT\n    x.day\nFROM\n    e x\n  , events e\n".toList := by
  have made : Select.make crossedSelect.columns crossedSources .empty = .ok crossedSelect := rfl
  refine ⟨made, ?_, by decide +kernel⟩
  have split : crossedSelect.sources = crossedSources.take 1 ++ crossedSources[1] :: [] := rfl
  have named : crossedSources[1].aliasName = some (.unquoted "e" (by decide)) := rfl
  have written : takenColumn.table = some (.ofSimple (.unquoted "e" (by decide))) := rfl
  have both := Select.qualifierFor_alias made split named (.outermost .defaults) written
  exact (both.2 _ rfl).1

namespace Scope

/-- The sources that SQL takes a qualifier for: those that go by it in the innermost select that has
such sources. -/
def meant (scope : Scope) (q : NamePath) : List Source :=
  match scope.sources.find? fun ss => ss.any (·.goesBy q) with
  | some ss => ss.filter (·.goesBy q)
  | none => []

variable {inner outer : List (List Source)} {level : List Source} {q : NamePath}

theorem meant_eq_of_none (split : scope.sources = inner ++ level :: outer) (mem : e ∈ level)
    (own : e.goesBy q = true) (none : ∀ t ∈ inner.flatten, t.goesBy q = false) :
    scope.meant q = level.filter (·.goesBy q) := by
  have passed : inner.find? (fun ss => ss.any (·.goesBy q)) = Option.none := by
    refine List.find?_eq_none.mpr fun ss inside => ?_
    simpa using fun t mem => none t (List.mem_flatten.mpr ⟨ss, inside, mem⟩)
  have here : level.any (·.goesBy q) = true := List.any_eq_true.mpr ⟨e, mem, own⟩
  rw [meant, split, List.find?_append, passed, Option.none_or, List.find?_cons, here]

theorem mem_inner_of_mem_meant (split : scope.sources = inner ++ level :: outer) {t u : Source}
    (inside : t ∈ inner.flatten) (taken : t.goesBy q = true) (mem : u ∈ scope.meant q) :
    u ∈ inner.flatten := by
  obtain ⟨ss, ofInner, within⟩ := List.mem_flatten.mp inside
  obtain ⟨first, found⟩ : ∃ first, inner.find? (fun ss => ss.any (·.goesBy q)) = some first := by
    refine Option.isSome_iff_exists.mp (List.find?_isSome.mpr ⟨ss, ofInner, ?_⟩)
    exact List.any_eq_true.mpr ⟨t, within, taken⟩
  rw [meant, split, List.find?_append, found, Option.some_or] at mem
  exact List.mem_flatten.mpr ⟨first, List.mem_of_find?_eq_some found, (List.mem_filter.mp mem).1⟩

/-- The qualifier that is written for a source stands for it in SQL exactly if no source of the
selects that the lookup has passed goes by it. None does if the source has no alias or its alias
was written; an alias that is written for the name of a table may be taken by such a source. Beside
the source itself, the qualifier can only stand for tables of the same select without an alias. -/
theorem mem_meant_iff
    (made : ∀ ss ∈ scope.sources, ∃ columns condition s, Select.make columns ss condition = .ok s)
    (written : c.table = some w) (found : scope.resolve? w = some e) :
    ∃ q inner level outer, scope.sources = inner ++ level :: outer ∧ e ∈ level ∧
      (∀ t ∈ inner.flatten, t.resolves w = false) ∧
      e.qualifier = some q ∧ scope.qualifierFor c = some q ∧
      (e ∈ scope.meant q ↔ ∀ t ∈ inner.flatten, t.goesBy q = false) ∧
      ((∀ a, e.aliasName = some a → w = .ofSimple a) → e ∈ scope.meant q) ∧
      (e ∈ scope.meant q → ∀ t ∈ scope.meant q, t = e ∨ t.aliasName = none) := by
  obtain ⟨resolved, inner, front, behind, outer, split, passed, -⟩ :=
    List.find?_flatten_eq_some_iff.mp found
  obtain ⟨q, own⟩ := Source.exists_qualifier_of_resolves resolved
  have mem : e ∈ front ++ e :: behind := by simp
  have goes := Source.goesBy_qualifier own
  have skipped : ∀ t ∈ inner.flatten, t.resolves w = false := by
    intro t inside
    obtain ⟨ss, ofInner, within⟩ := List.mem_flatten.mp inside
    simpa using passed ss ofInner t within
  have free : e ∈ scope.meant q ↔ ∀ t ∈ inner.flatten, t.goesBy q = false := by
    constructor
    · intro meant t inside
      by_contra taken
      have within := mem_inner_of_mem_meant split inside (Bool.not_eq_false _ ▸ taken) meant
      exact absurd resolved (by simp [skipped e within])
    · intro none
      rw [meant_eq_of_none split mem goes none]
      exact List.mem_filter.mpr ⟨mem, goes⟩
  refine ⟨q, inner, _, outer, split, mem, skipped, own, qualifierFor_of_resolve? written found own,
    free, fun plain => free.mpr fun t inside => ?_, fun meant t other => ?_⟩
  · have ends := Source.endsWith_of_resolves resolved own plain
    exact Source.goesBy_eq_false (skipped t inside) ends
  · rw [meant_eq_of_none split mem goes (free.mp meant)] at other
    obtain ⟨beside, goesToo⟩ := List.mem_filter.mp other
    obtain ⟨columns, condition, s, ok⟩ := made (front ++ e :: behind) (by simp [split])
    exact (Select.distinct_of_make ok).2.eq_or_of_goesBy mem own beside goesToo

end Scope

end Lookup

def innerSource : Source :=
  .table (.ofSimple (.unquoted "visits" (by decide))) (some (.unquoted "e" (by decide)))

def outerSource : Source :=
  .table (.ofSimple (.unquoted "events" (by decide))) (some (.unquoted "e" (by decide)))

/-- Inside of a select from `visits e` that is a source beside `events e`. -/
def nestedScope : Scope :=
  ⟨.defaults, [[innerSource], [outerSource]]⟩

def capturedColumn : ColumnRef :=
  ⟨some (.ofSimple (.unquoted "events" (by decide))), .unquoted "day" (by decide), .any⟩

/-- For `events.day` the column `e.day` is written, which SQL reads from the visits. -/
theorem Scope.mem_meant_iff_sample :
    (∀ ss ∈ nestedScope.sources,
      ∃ columns condition s, Select.make columns ss condition = .ok s) ∧
    nestedScope.resolve? (.ofSimple (.unquoted "events" (by decide))) = some outerSource ∧
    nestedScope.qualifierFor capturedColumn = some (.ofSimple (.unquoted "e" (by decide))) ∧
    outerSource ∉ nestedScope.meant (.ofSimple (.unquoted "e" (by decide))) := by
  have made : ∀ ss ∈ nestedScope.sources,
      ∃ columns condition s, Select.make columns ss condition = .ok s := by
    intro ss mem
    have either : ss = [innerSource] ∨ ss = [outerSource] := by simpa [nestedScope] using mem
    rcases either with rfl | rfl
    · exact ⟨crossedSelect.columns, .empty, _, rfl⟩
    · exact ⟨crossedSelect.columns, .empty, _, rfl⟩
  have found : nestedScope.resolve? (.ofSimple (.unquoted "events" (by decide))) =
      some outerSource := rfl
  have written : capturedColumn.table = some (.ofSimple (.unquoted "events" (by decide))) := rfl
  refine ⟨made, found, ?_⟩
  obtain ⟨q, inner, level, outer, split, mem, -, own, kept, free, -⟩ :=
    Scope.mem_meant_iff made written found
  obtain rfl := Option.some.inj own
  refine ⟨kept, fun meant => ?_⟩
  have visits : innerSource ∈ inner.flatten := by
    cases inner with
    | nil =>
      obtain ⟨rfl, -⟩ := List.cons.inj split
      have same := (Source.table.inj (List.mem_singleton.mp mem)).1
      exact absurd same (by decide)
    | cons ss inner =>
      obtain ⟨rfl, -⟩ := List.cons.inj split
      simp
  exact absurd (free.mp meant innerSource visits) (by decide)

end SqlCompose
