import SqlCompose.Bind.Variable
import SqlCompose.Fragment
import SqlCompose.Token.Scan

/-! SQL that a caller writes by hand. A fragment is split into tokens once: that refuses what has
no business in SQL, and finds the real placeholders, since a question mark in a literal or in
a comment is text. String literals that run over several lines are kept as they are; all
other text is normalized. -/

namespace SqlCompose

inductive RawPart where
  | text (s : Text)
  | literal (s : Text)
  /-- The placeholder with this number, counted from zero. -/
  | bind (index : Nat)
  deriving DecidableEq

def longLiterals (tokens : List Token) : List ByteRange :=
  (tokens.filter Token.isLongLiteral).map fun t => ⟨t.start, t.stop⟩

/-- A fragment in normal form, cut at its placeholders and long literals. -/
structure RawText where
  text : Text
  parts : List RawPart
  placeholders : Nat
  tokenCount : Nat
  /-- Such a comment would swallow whatever is written behind it on its line. -/
  endsInLineComment : Bool
  deriving DecidableEq

namespace RawText

def cut (offset index : Nat) (rest : Text) : List Token → List RawPart
  | [] => if rest = [] then [] else [.text rest]
  | t :: tokens =>
    let gap := rest.takeBytes (t.start - offset)
    let before := if gap = [] then [] else [RawPart.text gap]
    let after := rest.dropBytes (t.stop - offset)
    if t.kind = .placeholder then
      before ++ .bind index :: cut t.stop (index + 1) after tokens
    else if t.isLongLiteral then
      before ++ .literal t.text :: cut t.stop index after tokens
    else cut offset index rest tokens

def ofNormal (text : Text) (tokens : List Token) : RawText :=
  { text
    parts := cut 0 0 text tokens
    placeholders := (tokens.filter fun t => t.kind = .placeholder).length
    tokenCount := tokens.length
    endsInLineComment := tokens.getLast?.any Token.isLineComment }

/-- Reads a fragment of at most `limit` tokens. Offsets move when a text is brought into normal
form, so the tokens of the result are found anew. -/
def read (limit : Nat) (sql : Text) : Except SqlError RawText := do
  let tokens ← tokenize limit sql
  let (text, _) := Fragment.normalizeKeeping (longLiterals tokens) sql
  let normalTokens ← tokenize limit text
  .ok (ofNormal text normalTokens)

end RawText

/-- A fragment with one variable for each of its placeholders. -/
structure RawSql where
  body : RawText
  binds : List BindVariable
  isRead : ∃ limit sql, RawText.read limit sql = .ok body
  isBound : body.placeholders = binds.length
  deriving DecidableEq

namespace RawSql

def parse (limit : Nat) (sql : Text) (binds : List BindVariable) : Except SqlError RawSql :=
  match h : RawText.read limit sql with
  | .error e => .error e
  | .ok body =>
    if isBound : body.placeholders = binds.length then
      .ok ⟨body, binds, ⟨limit, sql, h⟩, isBound⟩
    else .error (.bindCount body.placeholders binds.length)

def same (a b : RawSql) : Bool :=
  a.body == b.body && a.binds.length == b.binds.length
    && (a.binds.zip b.binds).all fun p => p.1.same p.2

end RawSql

end SqlCompose
