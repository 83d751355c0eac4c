import SqlCompose.Render.Expr

/-! Rendering conditions: their pieces are written one after the other. -/

namespace SqlCompose.Condition

def alwaysText : Text := "1=1"

def neverText : Text := "1=0"

def Piece.write (scope : Scope) (b : Builder) : Piece → Except SqlError Builder
  | .compare left op right => do
    let args ← Expr.writeArgs scope false b.style [left, right]
    Template.apply op.name (scope.renderer.comparisonTemplate op) args b
  | .isNull expr negated => do
    let b ← expr.write scope b
    .ok (b.append (if negated then " IS NOT NULL" else " IS NULL"))
  | .raw sql => sql.write scope b
  | .always => .ok (b.append alwaysText)
  | .never => .ok (b.append neverText)
  | .and => .ok (b.append " AND ")
  | .or => .ok (b.append " OR ")
  | .not => .ok (b.append "NOT ")
  | .opening => .ok (b.append ['('])
  | .closing => .ok (b.append [')'])

def Piece.writeAll (scope : Scope) (b : Builder) : List Piece → Except SqlError Builder
  | [] => .ok b
  | p :: ps => do Piece.writeAll scope (← p.write scope b) ps

theorem Piece.writeAll_append {ps qs : List Piece} {scope : Scope} {b : Builder} :
    Piece.writeAll scope b (ps ++ qs) =
      Piece.writeAll scope b ps >>= fun c => Piece.writeAll scope c qs := by
  induction ps generalizing b with
  | nil => rfl
  | cons p ps ih =>
    rw [List.cons_append, Piece.writeAll, Piece.writeAll, bind_assoc]
    exact congrArg _ (funext fun c => ih)

def write (scope : Scope) (c : Condition) (b : Builder) : Except SqlError Builder :=
  Piece.writeAll scope b c.pieces

end SqlCompose.Condition
