import SqlCompose.Query.Expr

/-! Conditions. A condition is *empty* when it always holds and can be left out. A condition is
written as a row of pieces: comparisons, null tests and fragments, and between them the
connectives and parentheses that keep them together. -/

namespace SqlCompose

inductive Condition where
  | compare (left : Expr) (op : Comparison) (right : Expr)
  | isNull (expr : Expr) (negated : Bool)
  | and (cs : List Condition)
  /-- Without branches it never holds. -/
  | or (cs : List Condition)
  | not (c : Condition)
  | raw (sql : RawSql)
  | empty

namespace Condition

def ofComparison (left : Expr) (op : Comparison) (right : Expr) : Except SqlError Condition := do
  op.check left.typeTag right.typeTag
  .ok (.compare left op right)

def conjuncts : Condition → List Condition
  | and cs => cs
  | empty => []
  | c => [c]

def disjuncts : Condition → List Condition
  | or cs => cs
  | c => [c]

/-- The conjunction, with conjunctions in it flattened and `empty` left out. -/
def all (cs : List Condition) : Condition :=
  .and (cs.flatMap conjuncts)

def any (cs : List Condition) : Condition :=
  .or (cs.flatMap disjuncts)

def parseRaw (sql : Text) (binds : List BindVariable) : Except SqlError Condition := do
  .ok (.raw (← RawSql.parse defaultTokenLimit sql binds))

mutual

/-- Whether the condition always holds: nothing to check, an expression equal to itself, a
conjunction of empty conditions, or a disjunction with an empty one. -/
def isEmpty : Condition → Bool
  | compare left op right => op == .equal && left.same right
  | isNull _ _ => false
  | and cs => allEmpty cs
  | or cs => anyEmpty cs
  | not _ => false
  | raw _ => false
  | empty => true

def allEmpty : List Condition → Bool
  | [] => true
  | c :: cs => c.isEmpty && allEmpty cs

def anyEmpty : List Condition → Bool
  | [] => false
  | c :: cs => c.isEmpty || anyEmpty cs

end

theorem allEmpty_eq (cs : List Condition) : allEmpty cs = cs.all isEmpty := by
  induction cs with
  | nil => rfl
  | cons c cs ih => simp [allEmpty, ih]

def live (cs : List Condition) : List Condition :=
  cs.filter fun c => !c.isEmpty

def items : Condition → List Condition
  | and cs => live cs
  | c => live [c]

inductive Piece where
  | compare (left : Expr) (op : Comparison) (right : Expr)
  | isNull (expr : Expr) (negated : Bool)
  | raw (sql : RawSql)
  | always
  | never
  | and
  | or
  | not
  | opening
  | closing

def isParenthesized (c : Condition) : Bool :=
  !c.isEmpty &&
    match c with
    | and cs => 1 < (live cs).length
    | or cs => 1 < cs.length
    | _ => false

/-- Pieces with a joiner between neighbours, in parentheses if there are several. -/
def group (joiner : Piece) : List (List Piece) → List Piece
  | [] => [.never]
  | [ps] => ps
  | ps :: rest => .opening :: ps ++ rest.flatMap (fun qs => joiner :: qs) ++ [.closing]

mutual

def pieces : Condition → List Piece
  | compare left op right =>
    if (compare left op right).isEmpty then [.always] else [.compare left op right]
  | isNull expr negated => [.isNull expr negated]
  | and cs => if allEmpty cs then [.always] else group .and (livePieces cs)
  | or cs => if anyEmpty cs then [.always] else group .or (branchPieces cs)
  | not c =>
    if c.isParenthesized then .not :: c.pieces else .not :: .opening :: c.pieces ++ [.closing]
  | raw sql => [.raw sql]
  | empty => [.always]

def livePieces : List Condition → List (List Piece)
  | [] => []
  | c :: cs => if c.isEmpty then livePieces cs else c.pieces :: livePieces cs

def branchPieces : List Condition → List (List Piece)
  | [] => []
  | c :: cs => c.pieces :: branchPieces cs

end

theorem livePieces_eq (cs : List Condition) : livePieces cs = (live cs).map pieces := by
  induction cs with
  | nil => rfl
  | cons c cs ih =>
    by_cases h : c.isEmpty = true <;> simp_all [livePieces, live]

theorem branchPieces_eq (cs : List Condition) : branchPieces cs = cs.map pieces := by
  induction cs with
  | nil => rfl
  | cons c cs ih => simp [branchPieces, ih]

end Condition

end SqlCompose
