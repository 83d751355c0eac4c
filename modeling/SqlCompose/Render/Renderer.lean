import SqlCompose.BuiltIn.Operator
import SqlCompose.Config.Render
import SqlCompose.Literal.Registry

/-! What rendering needs besides the query: the handlers of literals, the templates of functions
and operators, and the layout. -/

namespace SqlCompose

structure Renderer where
  registry : Registry
  config : RenderConfig
  template : BuiltIn → Text
  comparisonTemplate : Comparison → Text

namespace Renderer

def defaults : Renderer :=
  ⟨Registry.defaults, RenderConfig.defaults, fun f => f.spec.template, Comparison.template⟩

def ofConfig (c : RenderConfig) : Except SqlError Renderer := do
  c.check
  .ok { defaults with config := c }

def withRegistry (r : Renderer) (registry : Registry) : Renderer :=
  { r with registry }

def withTemplate (r : Renderer) (f : BuiltIn) (template : Text) : Renderer :=
  { r with template := fun g => if g = f then template else r.template g }

def withComparisonTemplate (r : Renderer) (op : Comparison) (template : Text) : Renderer :=
  { r with comparisonTemplate := fun o => if o = op then template else r.comparisonTemplate o }

end Renderer

end SqlCompose
