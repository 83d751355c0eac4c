import SqlCompose.Render.Scope
import SqlCompose.Template

/-! Rendering expressions. The arguments of a call are rendered on their own and then embedded
where the template has its slots. -/

namespace SqlCompose

def ColumnRef.write (scope : Scope) (c : ColumnRef) (b : Builder) : Builder :=
  match scope.qualifierFor c with
  | some q => ((b.appendName q.sql).append ['.']).append c.column.sql
  | none => b.appendName c.column.sql

def RawPart.writeAll (binds : List BindVariable) (b : Builder) : List RawPart → Attempt
  | [] => (b, .ok ())
  | .text s :: rest => RawPart.writeAll binds (b.append s) rest
  | .literal s :: rest => RawPart.writeAll binds (b.appendKept s) rest
  | .bind i :: rest =>
    match binds[i]? with
    | none => RawPart.writeAll binds b rest
    | some v =>
      match b.appendBind v with
      | (b, .error e) => (b, .error e)
      | (b, .ok ()) => RawPart.writeAll binds b rest

/-- Writes a fragment with its later lines one column to the right. What follows a line comment
begins on a new line. -/
def RawSql.write (scope : Scope) (raw : RawSql) (b : Builder) : Except SqlError Builder :=
  let limit := scope.renderer.config.maxTokens
  if limit < raw.body.tokenCount then .error (.tooManyTokens limit)
  else do
    let b ← (b.wrapped 0 fun b => RawPart.writeAll raw.binds b raw.body.parts).toExcept
    .ok (if raw.body.endsInLineComment then b.breakBeforeNext else b)

mutual

def Expr.write (scope : Scope) (b : Builder) : Expr → Except SqlError Builder
  | .literal v => do .ok (b.append (← scope.renderer.registry.literal v))
  | .column c => .ok (c.write scope b)
  | .bind v => (b.appendBind v).toExcept
  | .call f args _ => do
    let rendered ← Expr.writeArgs scope f.spec.isOperator b.style args
    Template.apply f.name (scope.renderer.template f) rendered b
  | .raw sql _ => sql.write scope b

/-- Renders arguments on builders of their own. Inside an operator, an argument that is written
with an operator stands in parentheses. -/
def Expr.writeArgs (scope : Scope) (isOperator : Bool) (style : PlaceholderStyle) :
    List Expr → Except SqlError (List Builder)
  | [] => .ok []
  | arg :: rest => do
    let own := Builder.empty style
    let b ←
      if isOperator && arg.isOperator then do
        let b ← Expr.write scope (own.append ['(']) arg
        .ok (b.append [')'])
      else Expr.write scope own arg
    .ok (b :: (← Expr.writeArgs scope isOperator style rest))

end

end SqlCompose
