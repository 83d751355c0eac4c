import SqlCompose.Query.Expr

/-! What printed arithmetic means. Sums, differences, products and quotients are read with the
usual precedence: parentheses first, then products and quotients, then sums and differences, each
of them from the left. What is read has the value of the expression: an operator stands in
parentheses wherever it is an operand of another one, and the operands of one call are combined
from the left. Whatever is no operator is read as a unit. -/

namespace SqlCompose

namespace Arithmetic

inductive Sign where
  | plus
  | minus
  | star
  | slash

/-- How tightly a row of glyphs holds together. -/
inductive Rank where
  | factor
  | term
  | sum
  deriving DecidableEq

namespace Sign

def symbol : Sign → Char
  | plus => '+'
  | minus => '-'
  | star => '*'
  | slash => '/'

def rank : Sign → Rank
  | plus | minus => .sum
  | star | slash => .term

def text (s : Sign) : Text :=
  [' ', s.symbol, ' ']

end Sign

/-- Printed arithmetic is made of characters and of expressions that are read as a whole. -/
inductive Glyph where
  | unit (e : Expr)
  | char (c : Char)

variable {α : Type} (op : Sign → α → α → α) (v : Expr → α)

/-- The row of glyphs is read with this value. Blanks have no meaning. -/
inductive Reads : Rank → List Glyph → α → Prop
  | unit (e : Expr) : Reads .factor [.unit e] (v e)
  | group {gs : List Glyph} {x : α} (inner : Reads .sum gs x) :
    Reads .factor (.char '(' :: (gs ++ [.char ')'])) x
  | blankBefore {rank : Rank} {gs : List Glyph} {x : α} (read : Reads rank gs x) :
    Reads rank (.char ' ' :: gs) x
  | blankBehind {rank : Rank} {gs : List Glyph} {x : α} (read : Reads rank gs x) :
    Reads rank (gs ++ [.char ' ']) x
  | ofFactor {gs : List Glyph} {x : α} (single : Reads .factor gs x) : Reads .term gs x
  | product {s : Sign} {gs hs : List Glyph} {x y : α} (isProduct : s.rank = .term)
    (left : Reads .term gs x) (right : Reads .factor hs y) :
    Reads .term (gs ++ .char s.symbol :: hs) (op s x y)
  | ofTerm {gs : List Glyph} {x : α} (single : Reads .term gs x) : Reads .sum gs x
  | total {s : Sign} {gs hs : List Glyph} {x y : α} (isSum : s.rank = .sum)
    (left : Reads .sum gs x) (right : Reads .term hs y) :
    Reads .sum (gs ++ .char s.symbol :: hs) (op s x y)

/-- A sum that has been read in part: what is done with the value of its last term, what is done
with the next factor of this term, and the value of the term so far. -/
structure Frame (α : Type) where
  outer : α → α
  inner : α → α
  term : Option α

namespace Frame

def fresh : Frame α :=
  ⟨id, id, none⟩

def value (f : Frame α) : Option α :=
  f.term.map f.outer

def factor (f : Frame α) (y : α) : Frame α :=
  { f with term := some (f.inner y) }

def sign (f : Frame α) (s : Sign) : Frame α :=
  match f.term with
  | none => f
  | some t =>
    if s.rank = .term then { f with inner := op s t } else ⟨op s (f.outer t), id, none⟩

end Frame

/-- The sum that is read, and those around it, innermost first. -/
structure Reader (α : Type) where
  top : Frame α
  around : List (Frame α)

namespace Reader

def factor (r : Reader α) (y : α) : Reader α :=
  { r with top := r.top.factor y }

def sign (r : Reader α) (s : Sign) : Reader α :=
  { r with top := r.top.sign op s }

def close (r : Reader α) : Reader α :=
  match r.top.value, r.around with
  | some x, f :: around => ⟨f.factor x, around⟩
  | _, _ => r

def step (r : Reader α) : Glyph → Reader α
  | .unit e => r.factor (v e)
  | .char '(' => ⟨.fresh, r.top :: r.around⟩
  | .char ')' => r.close
  | .char '+' => r.sign op .plus
  | .char '-' => r.sign op .minus
  | .char '*' => r.sign op .star
  | .char '/' => r.sign op .slash
  | .char _ => r

def run (r : Reader α) (gs : List Glyph) : Reader α :=
  gs.foldl (step op v) r

theorem run_cons (r : Reader α) (g : Glyph) (gs : List Glyph) :
    r.run op v (g :: gs) = (r.step op v g).run op v gs :=
  rfl

theorem run_append (r : Reader α) (gs hs : List Glyph) :
    r.run op v (gs ++ hs) = (r.run op v gs).run op v hs :=
  List.foldl_append

theorem run_blank_before (r : Reader α) (gs : List Glyph) :
    r.run op v (.char ' ' :: gs) = r.run op v gs :=
  rfl

theorem run_blank_behind (r : Reader α) (gs : List Glyph) :
    r.run op v (gs ++ [.char ' ']) = r.run op v gs := by
  rw [run_append]
  rfl

theorem step_symbol (r : Reader α) (s : Sign) : r.step op v (.char s.symbol) = r.sign op s := by
  cases s <;> rfl

/-- What reading a row does where a row of this rank can stand. -/
def Takes (gs : List Glyph) (x : α) : Rank → Prop
  | .factor => ∀ r : Reader α, r.run op v gs = r.factor x
  | .term => ∀ r : Reader α, r.top.inner = id →
      ∃ inner, r.run op v gs = ⟨⟨r.top.outer, inner, some x⟩, r.around⟩
  | .sum => ∀ around : List (Frame α),
      ∃ f, run op v ⟨.fresh, around⟩ gs = ⟨f, around⟩ ∧ f.value = some x

variable {op v}

theorem Takes.of_run {gs hs : List Glyph} {x : α} {rank : Rank} (h : Takes op v gs x rank)
    (same : ∀ r : Reader α, r.run op v hs = r.run op v gs) : Takes op v hs x rank := by
  cases rank <;> simpa only [Takes, same] using h

end Reader

variable {op v}

open Reader in
/-- Every rule of the grammar is what the reader does. -/
theorem Reads.takes {rank : Rank} {gs : List Glyph} {x : α} (h : Reads op v rank gs x) :
    Takes op v gs x rank := by
  induction h with
  | unit e => exact fun _ => rfl
  | @group gs x _ ih =>
    intro r
    -- the sum inside is read in a frame of its own
    obtain ⟨f, inner, value⟩ := ih (r.top :: r.around)
    have opened : r.step op v (.char '(') = ⟨.fresh, r.top :: r.around⟩ := rfl
    have closed : (⟨f, r.top :: r.around⟩ : Reader α).close = r.factor x := by
      simp only [close, value]
      rfl
    rw [run_cons, run_append, opened, inner]
    exact closed
  | blankBefore _ ih => exact ih.of_run (run_blank_before op v · _)
  | blankBehind _ ih => exact ih.of_run (run_blank_behind op v · _)
  | @ofFactor gs x _ ih =>
    intro r first
    -- nothing of the term stands in front, so its value is that of the factor
    refine ⟨r.top.inner, (ih r).trans ?_⟩
    rw [Reader.factor, Frame.factor, first]
    rfl
  | @product s gs hs x y isProduct _ _ left right =>
    intro r first
    obtain ⟨inner, read⟩ := left r first
    refine ⟨op s x, ?_⟩
    rw [run_append, run_cons, read, step_symbol, right]
    simp [Reader.sign, Frame.sign, Reader.factor, Frame.factor, isProduct]
  | @ofTerm gs x _ ih =>
    intro around
    obtain ⟨inner, read⟩ := ih ⟨.fresh, around⟩ rfl
    exact ⟨_, read, rfl⟩
  | @total s gs hs x y isSum _ _ left right =>
    intro around
    obtain ⟨f, read, value⟩ := left around
    obtain ⟨t, term, rfl⟩ := Option.map_eq_some_iff.mp value
    have signed : (⟨f, around⟩ : Reader α).sign op s = ⟨⟨op s (f.outer t), id, none⟩, around⟩ := by
      simp [Reader.sign, Frame.sign, term, isSum]
    obtain ⟨inner, last⟩ := right ⟨⟨op s (f.outer t), id, none⟩, around⟩ rfl
    rw [run_append, run_cons, read, step_symbol, signed, last]
    exact ⟨_, rfl, rfl⟩

theorem Reads.unique {gs : List Glyph} {x y : α} (h : Reads op v .sum gs x)
    (g : Reads op v .sum gs y) : x = y := by
  obtain ⟨f, read, value⟩ := h.takes []
  obtain ⟨f', read', value'⟩ := g.takes []
  obtain rfl : f = f' := congrArg Reader.top (read.symm.trans read')
  exact Option.some.inj (value.symm.trans value')

def Glyph.ofText (t : Text) : List Glyph :=
  t.map .char

def behind (s : Sign) (rows : List (List Glyph)) : List Glyph :=
  rows.flatMap fun gs => Glyph.ofText s.text ++ gs

def between (s : Sign) : List (List Glyph) → List Glyph
  | [] => []
  | gs :: rows => gs ++ behind s rows

theorem forall_mem_between {P : Glyph → Prop} {s : Sign} {rows : List (List Glyph)}
    (chars : ∀ c, P (.char c)) (each : ∀ gs ∈ rows, ∀ g ∈ gs, P g) : ∀ g ∈ between s rows, P g := by
  cases rows with
  | nil => simp [between]
  | cons gs rows =>
    simp only [between, behind, List.forall_mem_append, List.forall_mem_flatMap]
    refine ⟨each gs List.mem_cons_self, fun hs mem => ⟨?_, ?_⟩⟩
    · intro g inText
      obtain ⟨c, -, rfl⟩ := List.mem_map.mp inText
      exact chars c
    · exact each hs (List.mem_cons_of_mem gs mem)

theorem Reads.beside {s : Sign} {gs hs : List Glyph} {x y : α} (left : Reads op v s.rank gs x)
    (right : Reads op v .factor hs y) :
    Reads op v s.rank (gs ++ (Glyph.ofText s.text ++ hs)) (op s x y) := by
  have spaced : gs ++ (Glyph.ofText s.text ++ hs) =
      (gs ++ [.char ' ']) ++ .char s.symbol :: .char ' ' :: hs := by
    simp [Glyph.ofText, Sign.text]
  rw [spaced]
  cases known : s.rank with
  | factor => cases s <;> cases known
  | term => exact .product known (known ▸ left).blankBehind right.blankBefore
  | sum => exact .total known (known ▸ left).blankBehind (.ofFactor right.blankBefore)

theorem Reads.toSum {s : Sign} {gs : List Glyph} {x : α} (h : Reads op v s.rank gs x) :
    Reads op v .sum gs x := by
  cases s with
  | plus | minus => exact h
  | star | slash => exact .ofTerm h

theorem Reads.ofOperand {s : Sign} {gs : List Glyph} {x : α} (h : Reads op v .factor gs x) :
    Reads op v s.rank gs x := by
  cases s with
  | plus | minus => exact .ofTerm (.ofFactor h)
  | star | slash => exact .ofFactor h

theorem reads_behind {s : Sign} {es : List Expr} {glyphs : Expr → List Glyph} {value : Expr → α}
    (each : ∀ e ∈ es, Reads op v .factor (glyphs e) (value e)) {gs : List Glyph} {x : α}
    (first : Reads op v s.rank gs x) :
    Reads op v s.rank (gs ++ behind s (es.map glyphs)) ((es.map value).foldl (op s) x) := by
  induction es generalizing gs x with
  | nil => simpa [behind] using first
  | cons e es ih =>
    have next := first.beside (each e (by simp))
    have whole := ih (fun d mem => each d (List.mem_cons_of_mem e mem)) next
    simpa [behind] using whole

end Arithmetic

open Arithmetic

def BuiltIn.sign? : BuiltIn → Option Sign
  | add => some .plus
  | subtract => some .minus
  | multiply => some .star
  | divide => some .slash
  | _ => none

theorem BuiltIn.isOperator_of_sign? {f : BuiltIn} {s : Sign} (h : f.sign? = some s) :
    f.spec.isOperator = true := by
  cases f with
  | add | subtract | multiply | divide => rfl
  | _ => cases h

namespace Expr

mutual

/-- Sums, differences, products and quotients of two or more operands, over everything that is
neither written with another operator nor a fragment. Any expressions may stand in other calls. -/
def isArithmetic : Expr → Bool
  | literal _ => true
  | column _ => true
  | bind _ => true
  | call f args _ =>
    if f.sign?.isSome then 2 ≤ args.length && allArithmetic args else !f.spec.isOperator
  | raw _ _ => false

def allArithmetic : List Expr → Bool
  | [] => true
  | e :: es => e.isArithmetic && allArithmetic es

end

theorem allArithmetic_eq (es : List Expr) : allArithmetic es = es.all isArithmetic := by
  induction es with
  | nil => rfl
  | cons e es ih => rw [allArithmetic, ih, List.all_cons]

section Value

variable {α : Type} (op : Sign → α → α → α) (v : Expr → α)

mutual

/-- The value of an expression. The operands of a call are combined from the left. -/
def value : Expr → α
  | call f args type =>
    match f.sign?, values args with
    | some s, x :: xs => xs.foldl (op s) x
    | _, _ => v (call f args type)
  | e => v e

def values : List Expr → List α
  | [] => []
  | e :: es => e.value :: values es

end

theorem values_eq (es : List Expr) : values op v es = es.map (value op v) := by
  induction es with
  | nil => rfl
  | cons e es ih => rw [values, ih, List.map_cons]

end Value

/-- An operand stands in parentheses if it is written with an operator. -/
def inOperand (e : Expr) (gs : List Glyph) : List Glyph :=
  if e.isOperator then .char '(' :: (gs ++ [.char ')']) else gs

mutual

def glyphs : Expr → List Glyph
  | call f args type =>
    match f.sign? with
    | some s => between s (operands args)
    | none => [.unit (call f args type)]
  | e => [.unit e]

def operands : List Expr → List (List Glyph)
  | [] => []
  | e :: es => e.inOperand e.glyphs :: operands es

end

def operand (e : Expr) : List Glyph :=
  e.inOperand e.glyphs

theorem operands_eq (es : List Expr) : operands es = es.map operand := by
  induction es with
  | nil => rfl
  | cons e es ih => rw [operands, ih, List.map_cons, operand]

theorem glyphs_of_isOperator_eq_false {e : Expr} (atom : e.isOperator = false) :
    e.glyphs = [.unit e] := by
  cases e with
  | call f args type =>
    cases known : f.sign? with
    | none => rw [glyphs, known]
    | some s => cases atom.symm.trans (BuiltIn.isOperator_of_sign? known)
  | _ => rfl

theorem value_of_isOperator_eq_false {α : Type} (op : Sign → α → α → α) (v : Expr → α) {e : Expr}
    (atom : e.isOperator = false) : e.value op v = v e := by
  cases e with
  | call f args type =>
    cases known : f.sign? with
    | none => rw [value, known]
    | some s => cases atom.symm.trans (BuiltIn.isOperator_of_sign? known)
  | _ => rfl

section Signs

variable {f : BuiltIn} {s : Sign} (known : f.sign? = some s) {args : List Expr} {type : TypeTag}

include known

theorem operands_of_isArithmetic (arithmetic : (call f args type).isArithmetic = true) :
    2 ≤ args.length ∧ ∀ e ∈ args, e.isArithmetic = true := by
  rw [isArithmetic, known] at arithmetic
  obtain ⟨two, all⟩ := (Bool.and_eq_true _ _).mp arithmetic
  rw [allArithmetic_eq, List.all_eq_true] at all
  exact ⟨of_decide_eq_true two, all⟩

theorem glyphs_call : (call f args type).glyphs = between s (args.map operand) := by
  rw [glyphs, known, operands_eq]

theorem value_call {α : Type} (op : Sign → α → α → α) (v : Expr → α) (first : Expr) :
    (call f (first :: args) type).value op v =
      (args.map (value op v)).foldl (op s) (first.value op v) := by
  rw [value, known, values_eq]
  rfl

end Signs

@[elab_as_elim]
theorem arithmetic_induction {P : Expr → Prop}
    (unit : ∀ e : Expr, e.isArithmetic = true → e.isOperator = false → P e)
    (operator : ∀ (f : BuiltIn) (args : List Expr) (type : TypeTag) (s : Sign),
      f.sign? = some s → 2 ≤ args.length → (∀ e ∈ args, P e) → P (call f args type)) :
    (e : Expr) → e.isArithmetic = true → P e
  | call f args type, arithmetic => by
    cases known : f.sign? with
    | none =>
      have noOperator : (call f args type).isOperator = false := by
        rw [isArithmetic, known] at arithmetic
        simpa [isOperator] using arithmetic
      exact unit _ arithmetic noOperator
    | some s =>
      obtain ⟨two, all⟩ := operands_of_isArithmetic known arithmetic
      exact operator f args type s known two fun e mem =>
        arithmetic_induction unit operator e (all e mem)
  | literal _, arithmetic | column _, arithmetic | bind _, arithmetic => unit _ arithmetic rfl
termination_by e => sizeOf e
decreasing_by
  have smaller := List.sizeOf_lt_of_mem mem
  simp only [call.sizeOf_spec]
  omega

section Reading

variable {α : Type} {op : Sign → α → α → α} {v : Expr → α} {e : Expr}

theorem reads_unit (atom : e.isOperator = false) :
    Reads op v .factor e.glyphs (e.value op v) := by
  rw [glyphs_of_isOperator_eq_false atom, value_of_isOperator_eq_false op v atom]
  exact .unit e

theorem reads_operand (inner : Reads op v .sum e.glyphs (e.value op v)) :
    Reads op v .factor e.operand (e.value op v) := by
  rw [operand, inOperand]
  split
  · exact .group inner
  · next atom => exact reads_unit (by simpa using atom)

theorem reads_glyphs (op : Sign → α → α → α) (v : Expr → α) (arithmetic : e.isArithmetic = true) :
    Reads op v .sum e.glyphs (e.value op v) := by
  refine arithmetic_induction ?unit ?operator e arithmetic
  case unit => exact fun e _ atom => .ofTerm (.ofFactor (reads_unit atom))
  case operator =>
    intro f args type s known two inner
    have each := fun e mem => reads_operand (inner e mem)
    cases args with
    | nil => simp at two
    | cons first rest =>
      rw [glyphs_call known, value_call known]
      have row := reads_behind (s := s) (fun e mem => each e (List.mem_cons_of_mem first mem))
        (.ofOperand (each first List.mem_cons_self))
      exact row.toSum

end Reading

def IsAtomic : Glyph → Prop
  | .unit e => e.isArithmetic = true ∧ e.isOperator = false
  | .char _ => True

theorem isAtomic_of_mem_operand {e : Expr} (inner : ∀ g ∈ e.glyphs, IsAtomic g) :
    ∀ g ∈ e.operand, IsAtomic g := by
  rw [operand, inOperand]
  split
  · simpa [IsAtomic, or_imp, forall_and] using inner
  · exact inner

theorem isAtomic_of_mem_glyphs {e : Expr} (arithmetic : e.isArithmetic = true) :
    ∀ g ∈ e.glyphs, IsAtomic g := by
  refine arithmetic_induction ?unit ?operator e arithmetic
  case unit =>
    intro e arithmetic atom
    rw [glyphs_of_isOperator_eq_false atom]
    exact List.forall_mem_singleton.mpr ⟨arithmetic, atom⟩
  case operator =>
    intro f args type s known _ inner
    rw [glyphs_call known]
    refine forall_mem_between (fun _ => trivial) fun gs mem => ?_
    obtain ⟨e, here, rfl⟩ := List.mem_map.mp mem
    exact isAtomic_of_mem_operand (inner e here)

end Expr

end SqlCompose
