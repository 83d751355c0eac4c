import SqlCompose.Code.Cell
import SqlCompose.Error
import SqlCompose.Token.Scan

/-! Configuration of the layout of rendered SQL. -/

namespace SqlCompose

structure RenderConfig where
  indent : Nat
  placeholder : PlaceholderStyle
  maxTokens : Nat
  deriving DecidableEq

namespace RenderConfig

def defaults : RenderConfig :=
  ⟨4, .question, defaultTokenLimit⟩

def indentText (c : RenderConfig) : Text :=
  Text.spaces c.indent

/-- Whether a configuration can be used: list items need two columns in front of them. -/
def check (c : RenderConfig) : Except SqlError Unit :=
  if c.indent < 2 then .error (.config (.narrowIndent c.indent))
  else if c.maxTokens = 0 then .error (.config .noTokens)
  else .ok ()

end RenderConfig

end SqlCompose
