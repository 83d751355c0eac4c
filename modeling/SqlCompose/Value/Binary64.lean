import SqlCompose.Decimal.Layout

/-! Floating-point values of 64 bits, kept as their bit patterns. Their texts are the fewest
digits that read back as the same value. -/

namespace SqlCompose

structure Binary64 where
  bits : UInt64
  deriving DecidableEq

namespace Binary64

def isNegative (x : Binary64) : Bool :=
  x.bits.toNat / Nat.pow 2 63 == 1

def exponentField (x : Binary64) : Nat :=
  x.bits.toNat / Nat.pow 2 52 % Nat.pow 2 11

def fraction (x : Binary64) : Nat :=
  x.bits.toNat % Nat.pow 2 52

def isFinite (x : Binary64) : Bool :=
  x.exponentField != 2047

def isNaN (x : Binary64) : Bool :=
  !x.isFinite && x.fraction != 0

def isZero (x : Binary64) : Bool :=
  x.exponentField == 0 && x.fraction == 0

def same (x y : Binary64) : Bool :=
  !x.isNaN && !y.isNaN && ((x.isZero && y.isZero) || x.bits == y.bits)

/-- The interval of a finite nonzero magnitude: it ends halfway to the neighbouring values, and
the lower neighbour of a power of two is twice as near. An even significand owns the ends. -/
def target (x : Binary64) : Decimal.Target :=
  let significand := if x.exponentField = 0 then x.fraction else x.fraction + Nat.pow 2 52
  let lowGap := if x.exponentField ≠ 0 ∧ x.fraction = 0 then 1 else 2
  -- the value is `significand * 2 ^ (exponentField - 1075)`, or 1074 for the smallest exponent
  let up := Nat.pow 2 (x.exponentField - 1075)
  let den := Nat.pow 2 (1075 - max x.exponentField 1)
  { value := 4 * significand * up
    low := (4 * significand - lowGap) * up
    high := (4 * significand + 2) * up
    den := 4 * den
    closed := significand % 2 == 0 }

def sign (x : Binary64) : Text :=
  if x.isNegative then ['-'] else []

/-- The text of a number: never with an exponent, and a whole number without a point. -/
def text (x : Binary64) : Text :=
  if x.isNaN then "NaN"
  else if !x.isFinite then x.sign ++ "inf"
  else if x.isZero then x.sign ++ "0"
  else x.sign ++ x.target.shortest.positional []

/-- The text of a parameter: a whole number ends in `.0`, and a nonzero magnitude below `10^-4`
or from `10^16` on has an exponent. -/
def parameterText (x : Binary64) : Text :=
  if x.isNaN then "NaN"
  else if !x.isFinite then x.sign ++ "inf"
  else if x.isZero then x.sign ++ "0.0"
  else
    let d := x.target.shortest
    x.sign ++ if d.point < -3 ∨ 16 < d.point then d.scientific else d.positional ".0"

end Binary64

end SqlCompose
