import SqlCompose.Code.Builder

/-! Scripts: sequences of builder operations as data. A script stops at its first failure and
keeps what was written before it. -/

namespace SqlCompose

inductive BuilderOp where
  | append (s : Text)
  | appendInt (n : Int)
  | appendName (s : Text)
  | appendKept (s : Text)
  | endLine
  | breakBeforeNext
  | pushIndent (lead : Lead)
  | popIndent
  | wrap (s : Text) (extra : Nat)
  | wrapKeeping (s : Text) (ranges : List ByteRange) (extra : Nat)
  | addBind (v : BindVariable)
  | appendBind (v : BindVariable)
  | wrapped (extra : Nat) (ops : List BuilderOp)
  | apply (ops : List BuilderOp)
  /-- Runs a script on a new builder, of the same style if none is given, and embeds it. -/
  | embed (style : Option PlaceholderStyle) (ops : List BuilderOp)
  /-- An operation whose argument could not be made. -/
  | refused (e : SqlError)

mutual

def BuilderOp.run (b : Builder) : BuilderOp → Attempt
  | .append s => (b.append s, .ok ())
  | .appendInt n => (b.appendInt n, .ok ())
  | .appendName s => (b.appendName s, .ok ())
  | .appendKept s => (b.appendKept s, .ok ())
  | .endLine => (b.endLine, .ok ())
  | .breakBeforeNext => (b.breakBeforeNext, .ok ())
  | .pushIndent lead => (b.pushIndent lead, .ok ())
  | .popIndent => (b.popIndent, .ok ())
  | .wrap s extra => (b.wrap s extra, .ok ())
  | .wrapKeeping s ranges extra => (b.wrapKeeping s ranges extra, .ok ())
  | .addBind v => b.addBind v
  | .appendBind v => b.appendBind v
  | .wrapped extra ops => b.wrapped extra fun b => BuilderOp.runAll b ops
  | .apply ops => BuilderOp.runAll b ops
  | .embed style ops =>
    match BuilderOp.runAll (Builder.empty (style.getD b.style)) ops with
    | (_, .error e) => (b, .error e)
    | (inner, .ok ()) => b.embed inner
  | .refused e => (b, .error e)

def BuilderOp.runAll (b : Builder) : List BuilderOp → Attempt
  | [] => (b, .ok ())
  | op :: ops =>
    match BuilderOp.run b op with
    | (b, .error e) => (b, .error e)
    | (b, .ok ()) => BuilderOp.runAll b ops

end

end SqlCompose
