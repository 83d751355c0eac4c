import SqlCompose.Token.Basic

/-! Lists of tokens for people, as a table, and for programs, as JSON. -/

namespace SqlCompose.Cli

def onOneLine (s : Text) : Text :=
  s.flatMap fun c => if c = '\n' then ['\\', 'n'] else [c]

def placeLabel (t : Token) : Text :=
  Numeral.ofNat t.place.line ++ ':' :: Numeral.ofNat t.place.column

def widest (xs : List Text) : Nat :=
  (xs.map List.length).foldl max 0

def tokenTable (tokens : List Token) : Text :=
  let places := widest (tokens.map placeLabel)
  let kinds := widest (tokens.map fun t => t.kind.label)
  (tokens.flatMap fun t =>
    Text.padRight places (placeLabel t) ++ [' ', ' '] ++ Text.padRight kinds t.kind.label
      ++ [' ', ' '] ++ onOneLine t.text ++ ['\n'])
    ++ Numeral.ofNat tokens.length ++ " token(s)\n".toList

def jsonChar (c : Char) : Text :=
  match c with
  | '"' => "\\\""
  | '\\' => "\\\\"
  | '\n' => "\\n"
  | '\x0d' => "\\r"
  | '\t' => "\\t"
  | '\x08' => "\\b"
  | '\x0c' => "\\f"
  | c => if c.toNat < 0x20 then "\\u" ++ Numeral.paddedHex 4 c.toNat else [c]

def jsonString (s : Text) : Text :=
  '"' :: s.flatMap jsonChar ++ ['"']

def jsonMembers (t : Token) : List (Text × Text) :=
  [("kind", jsonString t.kind.label), ("text", jsonString t.text),
    ("line", Numeral.ofNat t.place.line), ("column", Numeral.ofNat t.place.column),
    ("start", Numeral.ofNat t.start), ("end", Numeral.ofNat t.stop)]

def jsonToken (t : Token) : Text :=
  let members := (jsonMembers t).map fun (key, value) => "    " ++ jsonString key ++ ": " ++ value
  "  \x7b\n" ++ Text.joinWith ",\n" members ++ "\n  \x7d"

def tokenJson (tokens : List Token) : Text :=
  if tokens.isEmpty then "[]\n"
  else "[\n" ++ Text.joinWith ",\n" (tokens.map jsonToken) ++ "\n]\n"

end SqlCompose.Cli
