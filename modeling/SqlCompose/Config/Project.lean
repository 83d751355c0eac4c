import SqlCompose.Config.Expand
import SqlCompose.Config.Render
import SqlCompose.Config.Toml
import SqlCompose.Text.Blank

/-! Configurations as they are written: the render configuration on its own, and the project file
that holds it in a table beside the version of the format. -/

namespace SqlCompose

namespace RenderConfig

def set (c : RenderConfig) (key : Text) (value : Toml.Value) : Option RenderConfig :=
  match value with
  | .integer n =>
    if n < 0 then none
    else if key = "indent" then some { c with indent := n.toNat }
    else if key = "max_tokens" then some { c with maxTokens := n.toNat }
    else none
  | .string s =>
    if key ≠ "placeholder" then none
    else if s = "question" then some { c with placeholder := .question }
    else if s = "dollar" then some { c with placeholder := .dollar }
    else none

def ofEntries (entries : List Toml.Entry) : Option RenderConfig :=
  entries.foldlM (fun c e => c.set e.key e.value) defaults

def read (s : Text) : Option RenderConfig := do
  let d ← Toml.parse s
  if d.tables = [] then ofEntries d.entries else none

def parse (s : Text) : Except SqlError RenderConfig :=
  match read s with
  | none => .error (.config .notToml)
  | some c => do
    c.check
    .ok c

end RenderConfig

structure ProjectConfig where
  version : Text
  render : RenderConfig
  deriving DecidableEq

inductive ProjectFault where
  | reference (fault : Expand.Fault)
  | notToml
  | version (given : Text)
  | render (e : SqlError)
  deriving DecidableEq

def ProjectFault.message : ProjectFault → Text
  | reference fault => fault.message
  | notToml => ConfigFault.message .notToml
  | version given => "unsupported config version: " ++ given
  | render e => e.message

namespace ProjectConfig

def defaults : ProjectConfig :=
  ⟨"1", RenderConfig.defaults⟩

def renderTable : Text := "render"

def readVersion : List Toml.Entry → Option Text
  | [⟨_, key, .string s⟩] => if key = "version" then some s else none
  | _ => none

def read (s : Text) : Option ProjectConfig := do
  let d ← Toml.parse s
  if d.tables ≠ [] ∧ d.tables ≠ [renderTable] then none
  let version ← readVersion (d.entries.filter fun e => e.table = none)
  let render ← RenderConfig.ofEntries (d.entries.filter fun e => e.table ≠ none)
  some ⟨version, render⟩

/-- Reads a project file, in which references to variables are expanded first. -/
def parse (lookup : Text → Option Text) (s : Text) : Except ProjectFault ProjectConfig := do
  let expanded ← (Expand.expand lookup s).mapError .reference
  match read expanded with
  | none => .error .notToml
  | some c =>
    if c.version.trim ≠ ['1'] then .error (.version c.version)
    else do
      c.render.check.mapError .render
      .ok c

end ProjectConfig

end SqlCompose
