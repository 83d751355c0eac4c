import SqlCompose.Query.Select
import SqlCompose.Render.Renderer

/-! Scopes: the sources of the selects around a column, and the qualifier that the column is
written with. -/

namespace SqlCompose

/-- What a node is rendered in: the renderer and the sources of the selects around it, those of
the innermost select first. -/
structure Scope where
  renderer : Renderer
  sources : List (List Source)

namespace Scope

def outermost (r : Renderer) : Scope :=
  ⟨r, []⟩

def enter (scope : Scope) (sources : List Source) : Scope :=
  { scope with sources := sources :: scope.sources }

/-- The first source, from the innermost select outwards, that a qualifier refers to. -/
def resolve? (scope : Scope) (written : NamePath) : Option Source :=
  scope.sources.flatten.find? fun s => s.resolves written

/-- The qualifier to write before a column. A written qualifier becomes the one of the source
that it refers to, and is kept if there is none. A bare column is qualified only where the
innermost select has exactly one source. -/
def qualifierFor (scope : Scope) (c : ColumnRef) : Option NamePath :=
  match c.table with
  | none =>
    match scope.sources with
    | [only] :: _ => only.qualifier
    | _ => none
  | some written => some (((scope.resolve? written).bind Source.qualifier).getD written)

end Scope

end SqlCompose
