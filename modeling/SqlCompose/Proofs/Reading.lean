import Mathlib.Data.List.Forall2
import SqlCompose.Render.Select

/-! What printed conditions mean. The pieces of a condition are read with the usual precedence:
`NOT` before `AND` before `OR`, and parentheses first. What is read has the value of the condition:
parentheses stand wherever two connectives would mix, and what is left out always holds. -/

namespace SqlCompose.Condition

/-- Truth values of comparisons, null tests and fragments. -/
structure Assignment where
  compare : Expr → Comparison → Expr → Bool
  isNull : Expr → Bool → Bool
  raw : RawSql → Bool

def Assignment.Lawful (v : Assignment) : Prop :=
  ∀ left right, left.same right = true → v.compare left .equal right = true

mutual

def isStructured : Condition → Bool
  | compare _ _ _ => true
  | isNull _ _ => true
  | and cs => allStructured cs
  | or cs => allStructured cs
  | not c => c.isStructured
  | raw _ => false
  | empty => true

def allStructured : List Condition → Bool
  | [] => true
  | c :: cs => c.isStructured && allStructured cs

end

variable (v : Assignment)

mutual

def holds : Condition → Bool
  | compare left op right => v.compare left op right
  | isNull expr negated => v.isNull expr negated
  | and cs => allHold cs
  | or cs => anyHolds cs
  | not c => !c.holds
  | raw sql => v.raw sql
  | empty => true

def allHold : List Condition → Bool
  | [] => true
  | c :: cs => c.holds && allHold cs

def anyHolds : List Condition → Bool
  | [] => false
  | c :: cs => c.holds || anyHolds cs

end

theorem allStructured_eq (cs : List Condition) : allStructured cs = cs.all isStructured := by
  induction cs with
  | nil => rfl
  | cons c cs ih => simp [allStructured, ih]

theorem allHold_eq (cs : List Condition) : allHold v cs = cs.all (holds v) := by
  induction cs with
  | nil => rfl
  | cons c cs ih => simp [allHold, ih]

theorem anyHolds_eq (cs : List Condition) : anyHolds v cs = cs.any (holds v) := by
  induction cs with
  | nil => rfl
  | cons c cs ih => simp [anyHolds, ih]

/-- How tightly a row of pieces holds together. -/
inductive Rank where
  | factor
  | conjunction
  | disjunction

/-- The row of pieces is read with this value. There is no rule for fragments, which may hold
connectives of their own. -/
inductive Reads : Rank → List Piece → Bool → Prop
  | compare (left : Expr) (op : Comparison) (right : Expr) :
    Reads .factor [.compare left op right] (v.compare left op right)
  | isNull (expr : Expr) (negated : Bool) :
    Reads .factor [.isNull expr negated] (v.isNull expr negated)
  | always : Reads .factor [.always] true
  | never : Reads .factor [.never] false
  | not {ps : List Piece} {t : Bool} (inner : Reads .factor ps t) :
    Reads .factor (.not :: ps) (!t)
  | group {ps : List Piece} {t : Bool} (inner : Reads .disjunction ps t) :
    Reads .factor (.opening :: ps ++ [.closing]) t
  | ofFactor {ps : List Piece} {t : Bool} (single : Reads .factor ps t) :
    Reads .conjunction ps t
  | and {ps qs : List Piece} {s t : Bool} (left : Reads .conjunction ps s)
    (right : Reads .factor qs t) : Reads .conjunction (ps ++ .and :: qs) (s && t)
  | ofConjunction {ps : List Piece} {t : Bool} (single : Reads .conjunction ps t) :
    Reads .disjunction ps t
  | or {ps qs : List Piece} {s t : Bool} (left : Reads .disjunction ps s)
    (right : Reads .conjunction qs t) : Reads .disjunction (ps ++ .or :: qs) (s || t)

/-- A disjunction that has been read in part: whether a conjunction in it held, whether all
factors of the last one held so far, and whether the next factor is negated. -/
structure Frame where
  either : Bool
  all : Bool
  negated : Bool

def Frame.fresh (either : Bool) : Frame :=
  ⟨either, true, false⟩

def Frame.value (f : Frame) : Bool :=
  f.either || f.all

def Frame.factor (f : Frame) (t : Bool) : Frame :=
  ⟨f.either, f.all && (t != f.negated), false⟩

/-- The disjunction that is read, and those around it, innermost first. -/
structure Reader where
  top : Frame
  around : List Frame

namespace Reader

def factor (r : Reader) (t : Bool) : Reader :=
  { r with top := r.top.factor t }

def step (r : Reader) : Piece → Reader
  | .compare left op right => r.factor (v.compare left op right)
  | .isNull expr negated => r.factor (v.isNull expr negated)
  | .raw _ => r
  | .always => r.factor true
  | .never => r.factor false
  | .and => r
  | .or => { r with top := .fresh r.top.value }
  | .not => { r with top := { r.top with negated := !r.top.negated } }
  | .opening => ⟨.fresh false, r.top :: r.around⟩
  | .closing =>
    match r.around with
    | [] => r
    | f :: around => ⟨f.factor r.top.value, around⟩

def run (r : Reader) (ps : List Piece) : Reader :=
  ps.foldl (step v) r

theorem run_cons (r : Reader) (p : Piece) (ps : List Piece) :
    r.run v (p :: ps) = (r.step v p).run v ps :=
  rfl

theorem run_append (r : Reader) (ps qs : List Piece) :
    r.run v (ps ++ qs) = (r.run v ps).run v qs :=
  List.foldl_append

/-- What reading a row does where a row of this rank can stand. -/
def Takes (ps : List Piece) (t : Bool) : Rank → Prop
  | .factor => ∀ r : Reader, r.run v ps = r.factor t
  | .conjunction => ∀ r : Reader, r.top.negated = false → r.run v ps = r.factor t
  | .disjunction => ∀ (either : Bool) (around : List Frame), ∃ f : Frame,
      run v ⟨.fresh either, around⟩ ps = ⟨f, around⟩ ∧ f.value = (either || t)

end Reader

variable {v}

open Reader in
/-- Every rule of the grammar is what the reader does. -/
theorem Reads.takes {rank : Rank} {ps : List Piece} {t : Bool} (h : Reads v rank ps t) :
    Takes v ps t rank := by
  induction h with
  | compare left op right => exact fun _ => rfl
  | isNull expr negated => exact fun _ => rfl
  | always => exact fun _ => rfl
  | never => exact fun _ => rfl
  | @not ps t _ ih =>
    intro r
    rw [run_cons, ih]
    simp [Reader.factor, Frame.factor, step]
  | @group ps t _ ih =>
    intro r
    obtain ⟨f, inner, value⟩ := ih false (r.top :: r.around)
    have opened : r.step v .opening = ⟨.fresh false, r.top :: r.around⟩ := rfl
    rw [List.cons_append, run_cons, run_append, opened, inner]
    simp [run, step, Reader.factor, value]
  | ofFactor _ ih => exact fun r _ => ih r
  | @and ps qs s t _ _ left right =>
    intro r notNegated
    rw [run_append, run_cons, left r notNegated]
    refine (right (r.factor s)).trans ?_
    simp [Reader.factor, Frame.factor, notNegated, Bool.and_assoc]
  | @ofConjunction ps t _ ih =>
    intro either around
    exact ⟨_, ih _ rfl, by simp [Frame.factor, Frame.fresh, Frame.value]⟩
  | @or ps qs s t _ _ left right =>
    intro either around
    obtain ⟨f, read, value⟩ := left either around
    rw [run_append, run_cons, read]
    refine ⟨_, right ⟨.fresh f.value, around⟩ rfl, ?_⟩
    simp [Frame.factor, Frame.fresh, Frame.value] at value ⊢
    rw [value, Bool.or_assoc]

theorem Reads.unique {ps : List Piece} {s t : Bool} (h : Reads v .disjunction ps s)
    (g : Reads v .disjunction ps t) : s = t := by
  obtain ⟨f, read, value⟩ := h.takes false []
  obtain ⟨f', read', value'⟩ := g.takes false []
  obtain rfl : f = f' := congrArg Reader.top (read.symm.trans read')
  rw [Bool.false_or] at value value'
  exact value.symm.trans value'

theorem Reads.iff_of_conjunction {ps : List Piece} {s : Bool} (h : Reads v .conjunction ps s)
    (t : Bool) :
    Reads v .disjunction ps t ↔ t = s :=
  ⟨fun g => g.unique (.ofConjunction h), fun same => same ▸ .ofConjunction h⟩

mutual

theorem holds_of_isEmpty (lawful : v.Lawful) (c : Condition) (h : c.isEmpty = true) :
    c.holds v = true := by
  cases c with
  | compare left op right =>
    obtain ⟨isEqual, same⟩ := (Bool.and_eq_true _ _).mp h
    obtain rfl := beq_iff_eq.mp isEqual
    exact lawful left right same
  | isNull expr negated => cases h
  | and cs => exact allHold_of_allEmpty lawful cs h
  | or cs => exact anyHolds_of_anyEmpty lawful cs h
  | not c => cases h
  | raw sql => cases h
  | empty => rfl

theorem allHold_of_allEmpty (lawful : v.Lawful) (cs : List Condition) (h : allEmpty cs = true) :
    allHold v cs = true := by
  cases cs with
  | nil => rfl
  | cons c cs =>
    obtain ⟨first, rest⟩ := (Bool.and_eq_true _ _).mp h
    rw [allHold, holds_of_isEmpty lawful c first, allHold_of_allEmpty lawful cs rest]
    rfl

theorem anyHolds_of_anyEmpty (lawful : v.Lawful) (cs : List Condition) (h : anyEmpty cs = true) :
    anyHolds v cs = true := by
  cases cs with
  | nil => cases h
  | cons c cs =>
    rw [anyHolds]
    rcases (Bool.or_eq_true _ _).mp h with first | rest
    · rw [holds_of_isEmpty lawful c first, Bool.true_or]
    · rw [anyHolds_of_anyEmpty lawful cs rest, Bool.or_true]

end

theorem all_live (lawful : v.Lawful) (cs : List Condition) :
    (live cs).all (holds v) = cs.all (holds v) := by
  induction cs with
  | nil => rfl
  | cons c cs ih =>
    rw [live] at ih ⊢
    rw [List.filter_cons, List.all_cons, ← ih]
    split
    · rfl
    · next dropped =>
      rw [holds_of_isEmpty lawful c (by simpa using dropped), Bool.true_and]

def joined (joiner : Piece) : List (List Piece) → List Piece
  | [] => []
  | ps :: rest => ps ++ rest.flatMap fun qs => joiner :: qs

theorem group_eq_joined (joiner : Piece) (ps qs : List Piece) (rest : List (List Piece)) :
    group joiner (ps :: qs :: rest) =
      .opening :: joined joiner (ps :: qs :: rest) ++ [.closing] :=
  rfl

variable {cs : List Condition} {ps : List Piece} {s : Bool}

theorem reads_behind_and (first : Reads v .conjunction ps s)
    (rest : ∀ c ∈ cs, Reads v .factor c.pieces (c.holds v)) :
    Reads v .conjunction (ps ++ (cs.map pieces).flatMap fun qs => .and :: qs)
      (s && cs.all (holds v)) := by
  induction cs generalizing ps s with
  | nil => simpa using first
  | cons c cs ih =>
    have next := first.and (rest c (by simp))
    have whole := ih next fun d mem => rest d (List.mem_cons_of_mem c mem)
    simpa [Bool.and_assoc] using whole

theorem reads_behind_or (first : Reads v .disjunction ps s)
    (rest : ∀ c ∈ cs, Reads v .factor c.pieces (c.holds v)) :
    Reads v .disjunction (ps ++ (cs.map pieces).flatMap fun qs => .or :: qs)
      (s || cs.any (holds v)) := by
  induction cs generalizing ps s with
  | nil => simpa using first
  | cons c cs ih =>
    have next := first.or (.ofFactor (rest c (by simp)))
    have whole := ih next fun d mem => rest d (List.mem_cons_of_mem c mem)
    simpa [Bool.or_assoc] using whole

theorem reads_joined_and (all : ∀ c ∈ cs, Reads v .factor c.pieces (c.holds v)) (some : cs ≠ []) :
    Reads v .conjunction (joined .and (cs.map pieces)) (cs.all (holds v)) := by
  cases cs with
  | nil => exact absurd rfl some
  | cons c cs =>
    have first := Reads.ofFactor (all c (by simp))
    exact reads_behind_and first fun d mem => all d (List.mem_cons_of_mem c mem)

theorem reads_group_and (all : ∀ c ∈ cs, Reads v .factor c.pieces (c.holds v)) (some : cs ≠ []) :
    Reads v .factor (group .and (cs.map pieces)) (cs.all (holds v)) := by
  match cs with
  | [] => exact absurd rfl some
  | [c] => simpa [group] using all c (by simp)
  | c :: d :: cs => exact .group (.ofConjunction (reads_joined_and all some))

theorem reads_group_or (all : ∀ c ∈ cs, Reads v .factor c.pieces (c.holds v)) :
    Reads v .factor (group .or (cs.map pieces)) (cs.any (holds v)) := by
  match cs with
  | [] => exact .never
  | [c] => simpa [group] using all c (by simp)
  | c :: d :: cs =>
    have first : Reads v .disjunction c.pieces (c.holds v) :=
      .ofConjunction (.ofFactor (all c (by simp)))
    exact .group (reads_behind_or first fun e mem => all e (List.mem_cons_of_mem c mem))

mutual

theorem reads_pieces (lawful : v.Lawful) (c : Condition) (structured : c.isStructured = true) :
    Reads v .factor c.pieces (c.holds v) := by
  cases c with
  | compare left op right =>
    rw [pieces]
    split
    · next empty =>
      rw [holds_of_isEmpty lawful _ empty]
      exact .always
    · exact .compare left op right
  | isNull expr negated => exact .isNull expr negated
  | and cs =>
    have all := reads_pieces_of_mem lawful cs structured
    rw [pieces, holds]
    split
    · next empty =>
      rw [allHold_of_allEmpty lawful cs empty]
      exact .always
    · next notEmpty =>
      have some : live cs ≠ [] := by
        simpa [allEmpty_eq, live, List.filter_eq_nil_iff] using notEmpty
      have inLive : ∀ c ∈ live cs, Reads v .factor c.pieces (c.holds v) := fun c mem =>
        all c (List.mem_of_mem_filter mem)
      have grouped := reads_group_and inLive some
      rwa [all_live lawful, ← livePieces_eq, ← allHold_eq] at grouped
  | or cs =>
    have all := reads_pieces_of_mem lawful cs structured
    rw [pieces, holds]
    split
    · next empty =>
      rw [anyHolds_of_anyEmpty lawful cs empty]
      exact .always
    · rw [branchPieces_eq, anyHolds_eq]
      exact reads_group_or all
  | not c =>
    have inner := reads_pieces lawful c structured
    rw [pieces, holds]
    split
    · exact .not inner
    · exact .not (.group (.ofConjunction (.ofFactor inner)))
  | raw sql => cases structured
  | empty => exact .always

theorem reads_pieces_of_mem (lawful : v.Lawful) (cs : List Condition)
    (structured : allStructured cs = true) : ∀ c ∈ cs, Reads v .factor c.pieces (c.holds v) := by
  cases cs with
  | nil => exact fun c mem => absurd mem List.not_mem_nil
  | cons c cs =>
    obtain ⟨first, rest⟩ := (Bool.and_eq_true _ _).mp structured
    intro d mem
    rcases List.mem_cons.mp mem with same | later
    · rw [same]
      exact reads_pieces lawful c first
    · exact reads_pieces_of_mem lawful cs rest d later

end

theorem all_items (lawful : v.Lawful) (c : Condition) : c.items.all (holds v) = c.holds v := by
  have single : ∀ c : Condition, (live [c]).all (holds v) = c.holds v := by
    intro c
    rw [all_live lawful, List.all_cons, List.all_nil, Bool.and_true]
  cases c with
  | and cs => rw [items, all_live lawful, holds, allHold_eq]
  | _ => exact single _

theorem isStructured_of_mem_items {c d : Condition} (structured : c.isStructured = true)
    (mem : d ∈ c.items) : d.isStructured = true := by
  have single : ∀ c : Condition, c.isStructured = true → d ∈ live [c] → d.isStructured = true := by
    intro c structured mem
    obtain rfl := List.mem_singleton.mp (List.mem_of_mem_filter mem)
    exact structured
  cases c with
  | and cs =>
    rw [isStructured, allStructured_eq, List.all_eq_true] at structured
    exact structured d (List.mem_of_mem_filter mem)
  | _ => exact single _ structured mem

/-- A condition without fragments is written so that it is read with its value, alone and as the
`WHERE` list of a select: the items of the list with `AND` between them are read with the value of
the condition, and a condition without items is left out and holds. An assignment may give any
values to comparisons and null tests, as long as expressions are equal to themselves. -/
theorem read_printed (lawful : v.Lawful) {c : Condition} (structured : c.isStructured = true) :
    (∀ t, Reads v .disjunction c.pieces t ↔ t = c.holds v) ∧
    ∀ (scope : Scope) (b : Builder) (columns : List SelectColumn) (sources : List Source),
      (c.items = [] → c.holds v = true ∧
        Select.write scope b ⟨columns, sources, c⟩ =
          Select.write scope b ⟨columns, sources, .empty⟩) ∧
      (c.items ≠ [] →
        (∀ t, Reads v .disjunction (joined .and (c.items.map pieces)) t ↔ t = c.holds v) ∧
        Select.write scope b ⟨columns, sources, c⟩ =
          Select.write scope b ⟨columns, sources, .empty⟩ >>=
            writeClause scope "WHERE" (andLead scope.renderer.config)
              (c.items.map fun item => item.write (scope.enter sources))) := by
  have alone := reads_pieces lawful c structured
  have all := all_items lawful c
  refine ⟨(Reads.ofFactor alone).iff_of_conjunction, fun scope b columns sources => ⟨?_, ?_⟩⟩
  · intro none
    rw [none, List.all_nil] at all
    exact ⟨all.symm, Select.write_of_items_eq_nil none⟩
  · intro some
    have factors : ∀ d ∈ c.items, Reads v .factor d.pieces (d.holds v) := fun d mem =>
      reads_pieces lawful d (isStructured_of_mem_items structured mem)
    have list := reads_joined_and factors some
    rw [all] at list
    exact ⟨list.iff_of_conjunction, Select.write_of_items_ne_nil some⟩

/-- Expressions are equal only to themselves, no expression is less than another, and all are
null. -/
def sampleAssignment : Assignment :=
  ⟨fun left op right => op == .equal && left.same right, fun _ negated => !negated, fun _ => false⟩

theorem sampleAssignment_lawful : sampleAssignment.Lawful := by
  intro left right same
  exact (Bool.and_eq_true _ _).mpr ⟨rfl, same⟩

/-- `(x IS NULL OR NOT (1=1)) AND NOT (x IS NULL AND NOT (x < y))`, and a third item that always
holds. Without its parentheses it would be read as true. -/
def readingSample : Condition :=
  let x := Expr.bind (.unvalued ⟨['X'], by decide⟩ .int)
  let y := Expr.bind (.unvalued ⟨['Y'], by decide⟩ .int)
  .and [.or [.isNull x false, .not (.compare x .equal x)], .compare y .equal y,
    .not (.and [.isNull x false, .empty, .not (.compare x .less y)])]

theorem read_printed_sample : readingSample.items.length = 2 ∧
    (∀ t, Reads sampleAssignment .disjunction readingSample.pieces t ↔ t = false) ∧
    ∀ t, Reads sampleAssignment .disjunction (joined .and (readingSample.items.map pieces)) t ↔
      t = false := by
  have read := read_printed (c := readingSample) sampleAssignment_lawful (by decide)
  have items : readingSample.items ≠ [] := by decide
  have value : readingSample.holds sampleAssignment = false := by decide
  rw [value] at read
  exact ⟨by decide, read.1, ((read.2 (.outermost .defaults) (.empty .question) [] []).2 items).1⟩

end SqlCompose.Condition
