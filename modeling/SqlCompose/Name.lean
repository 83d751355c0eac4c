import SqlCompose.Error
import SqlCompose.Text.Blank
import SqlCompose.Text.Doubled

/-! SQL identifiers and dotted paths of identifiers. An unquoted identifier is folded to lower
case; a quoted one keeps its characters, and a quote inside it is written twice. -/

namespace SqlCompose

def isNameStart (c : Char) : Bool :=
  c.isAlpha || c == '_'

def isNameChar (c : Char) : Bool :=
  c.isAlphanum || c == '_' || c == '$' || c == '#'

def isPlainName : Text → Bool
  | [] => false
  | c :: s => isNameStart c && s.all isNameChar

def isFoldedName (s : Text) : Bool :=
  isPlainName s && s.all fun c => !c.isUpper

/-- A single identifier, with what reading establishes of it: an unquoted one is in lower case, and
a quoted one holds something, but no NUL. Names that a caller puts together by hand without this are
left out. -/
inductive SimpleName where
  | unquoted (text : Text) (folded : isFoldedName text = true)
  | quoted (text : Text) (printable : text ≠ [] ∧ '\x00' ∉ text)
  deriving DecidableEq

structure NamePath where
  qualifiers : List SimpleName
  last : SimpleName
  deriving DecidableEq

namespace SimpleName

def text : SimpleName → Text
  | unquoted s _ => s
  | quoted s _ => s

def sql : SimpleName → Text
  | unquoted s _ => s
  | quoted s _ => Doubled.enclose '"' s

end SimpleName

namespace NamePath

def segments (p : NamePath) : List SimpleName :=
  p.qualifiers ++ [p.last]

def ofSimple (n : SimpleName) : NamePath :=
  ⟨[], n⟩

def ofSegments : List SimpleName → Option NamePath
  | [] => none
  | n :: rest => some ⟨(n :: rest).dropLast, (n :: rest).getLast (List.cons_ne_nil n rest)⟩

theorem segments_ofSegments {ns : List SimpleName} {p : NamePath}
    (h : ofSegments ns = some p) : p.segments = ns := by
  cases ns with
  | nil => simp [ofSegments] at h
  | cons n rest =>
    simp only [ofSegments, Option.some.injEq] at h
    subst h
    exact List.dropLast_concat_getLast (List.cons_ne_nil n rest)

theorem ofSegments_segments (p : NamePath) : ofSegments p.segments = some p := by
  obtain ⟨qualifiers, last⟩ := p
  cases qualifiers with
  | nil => rfl
  | cons n rest =>
    simp only [segments, List.cons_append, ofSegments, Option.some.injEq, NamePath.mk.injEq]
    exact ⟨(List.dropLast_concat : ((n :: rest) ++ [last]).dropLast = n :: rest),
      (List.getLast_concat : ((n :: rest) ++ [last]).getLast _ = last)⟩

def sql (p : NamePath) : Text :=
  Text.joinWith ['.'] (p.segments.map SimpleName.sql)

def endsWith (p other : NamePath) : Bool :=
  other.segments.isSuffixOf p.segments

/-- The first character that keeps a text from being an unquoted identifier. -/
def badCharacter : Text → Option Char
  | [] => none
  | c :: s => if isNameStart c then s.find? fun d => !isNameChar d else some c

def readPlain (full word : Text) : Except NameFault SimpleName :=
  if h : isFoldedName (word.map Char.toLower) = true then
    .ok (.unquoted (word.map Char.toLower) h)
  else
    match badCharacter word with
    | some c => .error (.badCharacter full c)
    | none => .error (.emptySegment full)

def readSegment (full : Text) : Text → Except NameFault (SimpleName × Text)
  | '"' :: s =>
    match Doubled.read '"' s with
    | none => .error (.unclosedQuote full)
    | some (inner, after) =>
      if h : inner ≠ [] ∧ '\x00' ∉ inner then .ok (.quoted inner h, after)
      else .error .emptyQuoted
  | s => do
    let name ← readPlain full (s.takeWhile (· ≠ '.'))
    .ok (name, s.dropWhile (· ≠ '.'))

theorem length_readSegment {full s after : Text} {n : SimpleName}
    (h : readSegment full s = .ok (n, after)) : after.length ≤ s.length := by
  unfold readSegment at h
  split at h
  · next s =>
    split at h
    · simp at h
    · next inner after' hr =>
      split at h
      · simp only [Except.ok.injEq, Prod.mk.injEq] at h
        have := Doubled.length_read hr
        simp only [← h.2, List.length_cons]
        omega
      · simp at h
  · cases hp : readPlain full (s.takeWhile (· ≠ '.')) with
    | error e => rw [hp] at h; simp [bind, Except.bind] at h
    | ok name =>
      rw [hp] at h
      simp only [bind, Except.bind, Except.ok.injEq, Prod.mk.injEq] at h
      rw [← h.2]
      exact (List.dropWhile_sublist _).length_le

def readRest (full : Text) : Text → Except NameFault (List SimpleName)
  | [] => .ok []
  | c :: s =>
    if c ≠ '.' then .error (.missingDot full c)
    else if s = [] then .error (.trailingDot full)
    else
      match _h : readSegment full s with
      | .error e => .error e
      | .ok (name, after) => (readRest full after).map (name :: ·)
  termination_by s => s.length
  decreasing_by
    have := length_readSegment _h
    simp only [List.length_cons]
    omega

def readSegments (full : Text) : Except NameFault NamePath :=
  if full = [] then .error .empty
  else if '\x00' ∈ full then .error .nul
  else
    match readSegment full full with
    | .error e => .error e
    | .ok (name, after) =>
      match readRest full after with
      | .error e => .error e
      | .ok rest =>
        .ok ⟨(name :: rest).dropLast, (name :: rest).getLast (List.cons_ne_nil name rest)⟩

def parse (s : Text) : Except SqlError NamePath :=
  (readSegments s.trim).mapError .name

end NamePath

def SimpleName.parse (s : Text) : Except SqlError SimpleName := do
  let path ← NamePath.parse s
  if path.qualifiers = [] then .ok path.last else .error (.name (.qualified s))

end SqlCompose
