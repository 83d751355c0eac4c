import SqlCompose.Statement
import SqlCompose.RawSql
import SqlCompose.Config.Render

/-! Formatting a fragment on its own, as rendering would write it in a clause: one level in, and
later lines one column further to the right. -/

namespace SqlCompose

/-- The formatted fragment. Its later lines are moved `extra` more columns to the right. -/
def formatFragment (c : RenderConfig) (extra : Nat) (sql : Text) : Except SqlError Text := do
  let tokens ← tokenize c.maxTokens sql
  let b := (Builder.empty c.placeholder).pushIndent (.simple c.indentText)
  .ok (b.wrapKeeping sql (longLiterals tokens) extra).popIndent.endLine.finish.sql

end SqlCompose
