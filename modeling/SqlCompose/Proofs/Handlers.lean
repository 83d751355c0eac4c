import Mathlib.Data.List.Induction
import SqlCompose.Literal.Registry
import SqlCompose.Proofs.Combine

/-! The handler that serves a type, told from what was registered and when. Of the registrations for
one type the latest counts, and of the supertypes the nearest one that has a registration, whenever
it was made. -/

namespace SqlCompose

/-- What was registered, earliest first. -/
abbrev History := List (TypeTag × Handler)

namespace History

variable {history : History} {t u : TypeTag} {g h : Handler}

def Has (history : History) (t : TypeTag) : Prop :=
  ∃ h, (t, h) ∈ history

def IsLatest (history : History) (t : TypeTag) (h : Handler) : Prop :=
  ∃ before after, history = before ++ (t, h) :: after ∧ ∀ e ∈ after, e.1 ≠ t

theorem isLatest_iff : history.IsLatest t h ↔ history.reverse.lookup t = some h := by
  rw [List.lookup_eq_some_iff]
  constructor
  · rintro ⟨before, after, rfl, later⟩
    refine ⟨after.reverse, before.reverse, by simp, fun e inside => bne_iff_ne.mpr ?_⟩
    exact (later e (List.mem_reverse.mp inside)).symm
  · rintro ⟨after, before, split, later⟩
    refine ⟨before.reverse, after.reverse, ?_, fun e inside => ?_⟩
    · rw [← List.reverse_reverse history, split]
      simp
    · exact (bne_iff_ne.mp (later e (List.mem_reverse.mp inside))).symm

theorem not_has_iff : ¬ history.Has t ↔ history.reverse.lookup t = none := by
  rw [List.lookup_eq_none_iff]
  constructor
  · intro none e inside
    refine bne_iff_ne.mpr fun same => none ⟨e.2, ?_⟩
    rw [same]
    exact List.mem_reverse.mp inside
  · rintro none ⟨h, inside⟩
    exact bne_iff_ne.mp (none (t, h) (List.mem_reverse.mpr inside)) rfl

end History

namespace Registry

variable {r : Registry} {t u : TypeTag} {g h : Handler} {ts : List TypeTag}

def IsUnique (r : Registry) : Prop :=
  (r.entries.map Prod.fst).Nodup

theorem isUnique_empty : empty.IsUnique :=
  List.nodup_nil

theorem isUnique_defaults : defaults.IsUnique := by
  rw [IsUnique]
  decide

theorem IsUnique.find?_eq (unique : r.IsUnique) (t : TypeTag) :
    r.find? t = r.entries.reverse.lookup t := by
  apply Option.ext
  intro h
  rw [← History.isLatest_iff, find?, List.lookup_eq_some_iff]
  -- An entry for the same type on either side of another would be a second one for it.
  have alone : ∀ {before after}, r.entries = before ++ (t, h) :: after →
      ∀ e, e ∈ before ∨ e ∈ after → e.1 ≠ t := by
    intro before after split e inside same
    rw [IsUnique, split, List.map_append, List.map_cons, List.nodup_append] at unique
    obtain ⟨-, behind, apart⟩ := unique
    rcases inside with front | back
    · exact apart e.1 (List.mem_map_of_mem front) t List.mem_cons_self same
    · have twice : e.1 ∈ after.map Prod.fst := List.mem_map_of_mem back
      rw [same] at twice
      exact (List.nodup_cons.mp behind).1 twice
  constructor
  · rintro ⟨before, after, split, -⟩
    exact ⟨before, after, split, fun e inside => alone split e (.inr inside)⟩
  · rintro ⟨before, after, split, -⟩
    exact ⟨before, after, split,
      fun e inside => bne_iff_ne.mpr (alone split e (.inl inside)).symm⟩

theorem find?_register_of_ne (other : u ≠ t) : (r.register u h).find? t = r.find? t := by
  have skip : (t == u) = false := beq_eq_false_iff_ne.mpr other.symm
  simp only [register, find?, List.lookup_cons, skip]
  induction r.entries with
  | nil => rfl
  | cons e entries ih =>
    by_cases same : e.1 = u
    · have apart : (t == e.1) = false := by rw [same, skip]
      rw [List.filter_cons_of_neg (by simpa using same), List.lookup_cons, apart]
      exact ih
    · rw [List.filter_cons_of_pos (by simpa using same), List.lookup_cons, List.lookup_cons, ih]

def registerAll (r : Registry) (history : History) : Registry :=
  history.foldl (fun r e => r.register e.1 e.2) r

theorem registerAll_concat (r : Registry) (history : History) (u : TypeTag) (g : Handler) :
    r.registerAll (history ++ [(u, g)]) = (r.registerAll history).register u g := by
  rw [registerAll, List.foldl_append]
  rfl

theorem find?_registerAll (unique : r.IsUnique) (history : History) (t : TypeTag) :
    (r.registerAll history).find? t = (r.entries ++ history).reverse.lookup t := by
  induction history using List.reverseRecOn with
  | nil =>
    rw [List.append_nil]
    exact unique.find?_eq t
  | append_singleton history e ih =>
    obtain ⟨u, g⟩ := e
    rw [registerAll_concat, ← List.append_assoc, List.reverse_append, List.reverse_singleton,
      List.singleton_append, List.lookup_cons]
    by_cases same : u = t
    · subst same
      rw [find?_register_self, beq_self_eq_true]
    · rw [find?_register_of_ne same, beq_eq_false_iff_ne.mpr (Ne.symm same), ih]

theorem handlerFor_eq_ok_iff : r.handlerFor t = .ok h ↔ t.chain.findSome? r.find? = some h := by
  rw [handlerFor]
  cases t.chain.findSome? r.find? <;> simp

theorem handlerFor_eq_error_iff {e : SqlError} :
    r.handlerFor t = .error e ↔ e = .noHandler t ∧ t.chain.findSome? r.find? = none := by
  rw [handlerFor]
  cases t.chain.findSome? r.find? <;> simp [eq_comm]

theorem findSome?_register_of_not_mem (outside : u ∉ ts) :
    ts.findSome? (r.register u h).find? = ts.findSome? r.find? := by
  induction ts with
  | nil => rfl
  | cons w ts ih =>
    obtain ⟨other, outside⟩ := List.ne_and_not_mem_of_not_mem_cons outside
    rw [List.findSome?_cons, List.findSome?_cons, find?_register_of_ne other, ih outside]

theorem findSome?_register_of_eq_some (found : ts.findSome? r.find? = some g) :
    ts.findSome? (r.register u h).find? = some g ∨
      ts.findSome? (r.register u h).find? = some h := by
  induction ts with
  | nil => cases found
  | cons w ts ih =>
    rw [List.findSome?_cons] at found
    rw [List.findSome?_cons]
    by_cases same : u = w
    · subst same
      rw [find?_register_self]
      exact .inr rfl
    · rw [find?_register_of_ne same]
      cases here : r.find? w with
      | some g' =>
        rw [here] at found
        exact .inl found
      | none =>
        rw [here] at found
        exact ih found

/-- Whatever is registered on a registry with every type at most once, as the empty one and the
defaults are: the nearest type of the chain that was ever given a handler serves with its latest
one, and if there is none, the type has no handler. So the order of registrations for different types does not
count, and a further registration changes no type but its own and those below it, and takes no
handler away. -/
theorem handlerFor_registerAll (unique : r.IsUnique) (history : History) (t : TypeTag) :
    (∀ h, (r.registerAll history).handlerFor t = .ok h ↔
      ∃ front u back, t.chain = front ++ u :: back ∧
        (∀ w ∈ front, ¬ History.Has (r.entries ++ history) w) ∧
        History.IsLatest (r.entries ++ history) u h) ∧
    (∀ e, (r.registerAll history).handlerFor t = .error e ↔
      e = .noHandler t ∧ ∀ u ∈ t.chain, ¬ History.Has (r.entries ++ history) u) ∧
    (∀ u h, u.accepts t = false →
      (r.registerAll (history ++ [(u, h)])).handlerFor t = (r.registerAll history).handlerFor t) ∧
    ∀ u h g, (r.registerAll history).handlerFor t = .ok g →
      (r.registerAll (history ++ [(u, h)])).handlerFor t = .ok g ∨
      (r.registerAll (history ++ [(u, h)])).handlerFor t = .ok h := by
  refine ⟨fun h => ?_, fun e => ?_, fun u h apart => ?_, fun u h g served => ?_⟩
  · rw [handlerFor_eq_ok_iff, List.findSome?_eq_some_iff]
    simp only [find?_registerAll unique, ← History.isLatest_iff, ← History.not_has_iff]
    constructor
    · rintro ⟨front, u, back, chain, latest, none⟩
      exact ⟨front, u, back, chain, none, latest⟩
    · rintro ⟨front, u, back, chain, none, latest⟩
      exact ⟨front, u, back, chain, latest, none⟩
  · rw [handlerFor_eq_error_iff, List.findSome?_eq_none_iff]
    simp only [find?_registerAll unique, ← History.not_has_iff]
  · have outside : u ∉ t.chain := fun inside =>
      Bool.false_ne_true (apart.symm.trans (TypeTag.accepts_iff.mpr inside))
    rw [registerAll_concat, handlerFor, handlerFor, findSome?_register_of_not_mem outside]
  · rw [registerAll_concat]
    simp only [handlerFor_eq_ok_iff] at *
    exact findSome?_register_of_eq_some served

def handlersSample : History :=
  [(.number, .int), (.decimal, .domain "MONEY" .decimal), (.number, .float)]

theorem handlerFor_registerAll_sample :
    (empty.registerAll handlersSample).handlerFor .int = .ok .float ∧
    (defaults.registerAll handlersSample).handlerFor .number = .ok .float ∧
    (defaults.registerAll handlersSample).handlerFor .decimal = .ok (.domain "MONEY" .decimal) ∧
    (defaults.registerAll handlersSample).handlerFor .temporal = .error (.noHandler .temporal) ∧
    (defaults.registerAll (handlersSample ++ [(.temporal, .date)])).handlerFor .decimal =
      .ok (.domain "MONEY" .decimal) := by
  obtain ⟨int, -⟩ := handlerFor_registerAll isUnique_empty handlersSample .int
  obtain ⟨number, -⟩ := handlerFor_registerAll isUnique_defaults handlersSample .number
  obtain ⟨decimal, -, apart, -⟩ := handlerFor_registerAll isUnique_defaults handlersSample .decimal
  obtain ⟨-, temporal, -⟩ := handlerFor_registerAll isUnique_defaults handlersSample .temporal
  have served : (defaults.registerAll handlersSample).handlerFor .decimal =
      .ok (.domain "MONEY" .decimal) :=
    (decimal _).mpr ⟨[], .decimal, [.number, .any], rfl, by simp,
      defaults.entries ++ [(.number, .int)], [(.number, .float)], rfl, by decide⟩
  refine ⟨(int _).mpr ⟨[.int], .number, [.any], rfl, ?_, handlersSample.take 2, [], rfl, by simp⟩,
    (number _).mpr ⟨[], .number, [.any], rfl, by simp, defaults.entries ++ handlersSample.take 2, [],
      rfl, by simp⟩, served, (temporal _).mpr ⟨rfl, ?_⟩, (apart .temporal .date rfl).trans served⟩
  · simp [History.Has, empty, handlersSample]
  · simp [TypeTag.chain, TypeTag.supertypes, History.Has, defaults, handlersSample]

end Registry

end SqlCompose
