import SqlCompose.Code.Builder

/-! Templates: texts with slots for the arguments of a call. A number in braces stands for the
argument with this number, counted from zero, and a star in braces for all arguments with commas
between them. Braces around anything else are text. -/

namespace SqlCompose

inductive TemplateSlot where
  | text (s : Text)
  | argument (n : Nat)
  | all
  deriving DecidableEq

namespace Template

def readSlot (inner : Text) : Option TemplateSlot :=
  if inner = ['*'] then some .all else (Numeral.readSize inner).map .argument

def textSlot (s : Text) : List TemplateSlot :=
  if s = [] then [] else [.text s]

/-- The slots of a template. An opening brace goes with the next closing one; without one, the
rest is text. -/
def slots (s : Text) : List TemplateSlot :=
  let before := s.takeWhile (· ≠ '\x7b')
  match _h : s.dropWhile (· ≠ '\x7b') with
  | [] => textSlot s
  | _ :: behind =>
    let inner := behind.takeWhile (· ≠ '\x7d')
    match _g : behind.dropWhile (· ≠ '\x7d') with
    | [] => textSlot s
    | _ :: rest =>
      match readSlot inner with
      | some slot => textSlot before ++ slot :: slots rest
      | none => .text (before ++ '\x7b' :: inner ++ ['\x7d']) :: slots rest
  termination_by s.length
  decreasing_by
    all_goals
      have outer := (List.dropWhile_sublist (· ≠ '\x7b') (l := s)).length_le
      have later := (List.dropWhile_sublist (· ≠ '\x7d') (l := behind)).length_le
      simp only [_h, _g, List.length_cons] at outer later
      omega

def isBinary (ts : List TemplateSlot) : Bool :=
  ts.all (fun
    | .text _ => true
    | .argument n => n ≤ 1
    | .all => false)
  && ts.contains (.argument 1)

def embedAll (isFirst : Bool) (b : Builder) : List Builder → Except SqlError Builder
  | [] => .ok b
  | arg :: rest => do
    let b := if isFirst then b else b.append ", "
    embedAll false (← (b.embed arg).toExcept) rest

def fill (name : Text) (args : List Builder) (b : Builder) :
    List TemplateSlot → Except SqlError Builder
  | [] => .ok b
  | .text s :: rest => fill name args (b.append s) rest
  | .argument n :: rest =>
    match args[n]? with
    | none => .error (.misuse name (.emptySlot n))
    | some arg => do fill name args (← (b.embed arg).toExcept) rest
  | .all :: rest => do fill name args (← embedAll true b args) rest

/-- Folds further arguments into the first one, two at a time. -/
def foldLeft (name : Text) (ts : List TemplateSlot) (style : PlaceholderStyle) (first : Builder) :
    List Builder → Except SqlError Builder
  | [] => .ok first
  | next :: rest => do
    foldLeft name ts style (← fill name [first, next] (Builder.empty style) ts) rest

def apply (name : Text) (template : Text) (args : List Builder) (b : Builder) :
    Except SqlError Builder :=
  let ts := slots template
  if isBinary ts && 2 < args.length then
    match args with
    | [] => .ok b
    | first :: rest => do (b.embed (← foldLeft name ts b.style first rest)).toExcept
  else fill name args b ts

end Template

end SqlCompose
