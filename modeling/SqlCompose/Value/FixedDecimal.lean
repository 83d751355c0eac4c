import SqlCompose.Text.Numeral

/-! Decimal numbers with a fixed number of places. The places are part of the text and not of
the value: `1.0` and `1.00` are equal. A text has all its places, and a sign exactly for a number
below zero, as a zero has none. The bounds of the number type, a coefficient below `2 ^ 96` and 28
places, are left out, and so are arithmetic and rounding. -/

namespace SqlCompose

/-- The number `coefficient / 10 ^ scale`, written with `scale` places. -/
structure FixedDecimal where
  coefficient : Int
  scale : Nat
  deriving DecidableEq

namespace FixedDecimal

def same (x y : FixedDecimal) : Bool :=
  x.coefficient * Int.pow 10 y.scale == y.coefficient * Int.pow 10 x.scale

def text (x : FixedDecimal) : Text :=
  let digits := Numeral.padded (x.scale + 1) x.coefficient.natAbs
  let whole := digits.length - x.scale
  (if x.coefficient < 0 then ['-'] else []) ++ digits.take whole
    ++ if x.scale = 0 then [] else '.' :: digits.drop whole

example : text ⟨-725, 2⟩ = "-7.25".toList ∧ text ⟨0, 2⟩ = "0.00".toList := by decide

end FixedDecimal

end SqlCompose
