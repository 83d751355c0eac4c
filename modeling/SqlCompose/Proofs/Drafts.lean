import Mathlib.Data.List.Forall2
import SqlCompose.Query.Steps

/-! Selects that are written step by step. The draft keeps the first error and goes on, which is the
same as making the parts one after the other and stopping at the first failure: the parts come to
stand in the select in the order of their steps, and steps behind a failure change nothing. -/

namespace SqlCompose

namespace SelectPart

def column? : SelectPart → Option SelectColumn
  | column c => some c
  | _ => none

def source? : SelectPart → Option Source
  | source s => some s
  | _ => none

def condition? : SelectPart → Option Condition
  | condition c => some c
  | _ => none

end SelectPart

namespace SelectStep

def made? (s : SelectStep) : Option SelectPart :=
  s.part.toOption

def fault? (s : SelectStep) : Option SqlError :=
  match s.part with
  | .ok _ => none
  | .error e => some e

variable {s : SelectStep} {p : SelectPart} {e : SqlError}

theorem made?_of_ok (h : s.part = .ok p) : s.made? = some p ∧ s.fault? = none := by
  simp [made?, fault?, h, Except.toOption]

theorem made?_of_error (h : s.part = .error e) : s.made? = none ∧ s.fault? = some e := by
  simp [made?, fault?, h, Except.toOption]

theorem filterMap_made?_cons (s : SelectStep) (steps : List SelectStep) :
    (s :: steps).filterMap made? = s.made?.toList ++ steps.filterMap made? := by
  rw [List.filterMap_cons]
  cases s.made? <;> rfl

theorem mapM_part (steps : List SelectStep) : steps.mapM part =
    match steps.findSome? fault? with
    | some e => .error e
    | none => .ok (steps.filterMap made?) := by
  induction steps with
  | nil => rfl
  | cons s steps ih =>
    rw [List.mapM_cons, ih, List.findSome?_cons]
    cases result : s.part with
    | error e =>
      rw [(made?_of_error result).2]
      rfl
    | ok p =>
      obtain ⟨made, sound⟩ := made?_of_ok result
      rw [sound, List.filterMap_cons_some made]
      cases steps.findSome? fault? <;> rfl

end SelectStep

namespace SelectDraft

open SelectPart SelectStep

def assemble (parts : List SelectPart) : Except SqlError Select :=
  Select.make (parts.filterMap column?) (parts.filterMap source?)
    (match parts.filterMap condition? with
      | [] => .empty
      | cs => Condition.all cs)

theorem step_eq (d : SelectDraft) (s : SelectStep) : d.step s =
    ⟨d.columns ++ s.made?.toList.filterMap column?, d.sources ++ s.made?.toList.filterMap source?,
      d.conditions ++ s.made?.toList.filterMap condition?, d.failure.or s.fault?⟩ := by
  rw [step]
  cases result : s.part with
  | error e =>
    obtain ⟨none, fault⟩ := made?_of_error result
    simp [none, fault]
  | ok p =>
    obtain ⟨made, sound⟩ := made?_of_ok result
    rw [made, sound]
    cases p <;> simp [add, column?, source?, condition?]

theorem foldl_step (d : SelectDraft) (steps : List SelectStep) : steps.foldl step d =
    ⟨d.columns ++ (steps.filterMap made?).filterMap column?,
      d.sources ++ (steps.filterMap made?).filterMap source?,
      d.conditions ++ (steps.filterMap made?).filterMap condition?,
      d.failure.or (steps.findSome? fault?)⟩ := by
  induction steps generalizing d with
  | nil => simp
  | cons s steps ih =>
    have fault : (s :: steps).findSome? fault? = s.fault?.or (steps.findSome? fault?) := by
      rw [List.findSome?_cons]
      cases s.fault? <;> rfl
    rw [List.foldl_cons, ih, step_eq, filterMap_made?_cons, fault]
    simp only [List.filterMap_append, List.append_assoc, Option.or_assoc]

theorem ofSteps_eq (steps : List SelectStep) : ofSteps steps =
    match steps.findSome? fault? with
    | some e => .error e
    | none => assemble (steps.filterMap made?) := by
  rw [ofSteps, foldl_step]
  cases steps.findSome? fault? with
  | some e => rfl
  | none =>
    simp only [build, empty, assemble, List.nil_append, Option.none_or]
    cases (steps.filterMap made?).filterMap condition? <;> rfl

/-- A chain of steps ends with the error of its first step whose part cannot be made, whatever
follows. If all parts can be made, it ends with the select of the columns and the sources in the
order of their steps, where all conditions have to hold. So it ends as if the parts were made one
after the other, up to the first failure. -/
theorem ofSteps_one_by_one (steps : List SelectStep) :
    (∀ before s after e, steps = before ++ s :: after → (∀ t ∈ before, ∃ p, t.part = .ok p) →
      s.part = .error e → ofSteps steps = .error e) ∧
    (∀ parts, List.Forall₂ (fun s p => s.part = .ok p) steps parts →
      ofSteps steps = Select.make (parts.filterMap column?) (parts.filterMap source?)
        (match parts.filterMap condition? with
          | [] => .empty
          | cs => Condition.all cs)) ∧
    ofSteps steps = steps.mapM part >>= assemble := by
  refine ⟨?_, fun parts each => ?_, ?_⟩
  · rintro before s after e rfl sound failed
    have passed : before.findSome? fault? = none := by
      refine List.findSome?_eq_none_iff.mpr fun t mem => ?_
      obtain ⟨p, ok⟩ := sound t mem
      exact (made?_of_ok ok).2
    rw [ofSteps_eq, List.findSome?_append, passed, List.findSome?_cons, (made?_of_error failed).2]
    rfl
  · have whole : steps.findSome? fault? = none ∧ steps.filterMap made? = parts := by
      induction each with
      | nil => exact ⟨rfl, rfl⟩
      | cons first _ ih =>
        obtain ⟨made, sound⟩ := made?_of_ok first
        rw [List.findSome?_cons, sound, List.filterMap_cons_some made]
        exact ⟨ih.1, congrArg _ ih.2⟩
    rw [ofSteps_eq, whole.1, whole.2]
    rfl
  · rw [ofSteps_eq, mapM_part]
    cases steps.findSome? fault? <;> rfl

def refusedSteps : List SelectStep :=
  [.table "orders", .source "items" "bad alias", .tryExpr (.error (.name .nul)),
    .expr (.literal (.int 1))]

def mixedSteps : List SelectStep :=
  [.where (.or []), .table "orders", .expr (.literal (.int 1)),
    .tryWhere (.ok (.isNull (.literal (.int 2)) true))]

theorem ofSteps_one_by_one_sample :
    ofSteps refusedSteps = .error (.name (.badCharacter "bad alias" ' ')) ∧
    ofSteps mixedSteps = Select.make [.ofExpr (.literal (.int 1))]
      [.table ⟨[], .unquoted "orders" (by decide)⟩ none]
      (Condition.all [.or [], .isNull (.literal (.int 2)) true]) := by
  have orders : NamePath.parse "orders" = .ok ⟨[], .unquoted "orders" (by decide)⟩ := by
    decide +kernel
  have items : NamePath.parse "items" = .ok ⟨[], .unquoted "items" (by decide)⟩ := by
    decide +kernel
  have aliasName : NamePath.parse "bad alias" = .error (.name (.badCharacter "bad alias" ' ')) := by
    decide +kernel
  have table : (SelectStep.table "orders").part =
      .ok (.source (.table ⟨[], .unquoted "orders" (by decide)⟩ none)) := by
    rw [part, Source.parseTable, orders]
    rfl
  have refused : (SelectStep.source "items" "bad alias").part =
      .error (.name (.badCharacter "bad alias" ' ')) := by
    rw [part, Source.parseAliased, items, SimpleName.parse, aliasName]
    rfl
  constructor
  · refine (ofSteps_one_by_one refusedSteps).1 [.table "orders"] _ _ _ rfl (fun t mem => ?_) refused
    obtain rfl := List.mem_singleton.mp mem
    exact ⟨_, table⟩
  · exact (ofSteps_one_by_one mixedSteps).2.1 _
      (.cons rfl (.cons table (.cons rfl (.cons rfl .nil))))

end SelectDraft

end SqlCompose
