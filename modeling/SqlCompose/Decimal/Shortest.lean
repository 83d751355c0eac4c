import SqlCompose.Text.Numeral

/-! The fewest decimal digits that single out a number within an interval. The interval holds
all the real numbers that a binary number format rounds to the number; it is given by
numerators over one denominator, so every comparison below is exact. -/

namespace SqlCompose.Decimal

/-- A positive number `value / den` and the interval around it from `low / den` to
`high / den`; the ends belong to it when `closed`. -/
structure Target where
  value : Nat
  low : Nat
  high : Nat
  den : Nat
  closed : Bool

/-- The digits `d1 d2 ..` and the number that they write, `0.d1d2..` times ten to the `point`. -/
structure Digits where
  digits : Text
  point : Int
  deriving DecidableEq

/-- Decimal places enough to give every number of the format a nonzero first place. -/
def places : Nat := 400

def Target.point (t : Target) : Int :=
  (Numeral.ofNat (t.value * Nat.pow 10 places / t.den)).length - places

def dropTrailingZeros (s : Text) : Text :=
  (s.reverse.dropWhile (· == '0')).reverse

/-- The point of the grid of `n`-digit decimals that lies in the interval and is next to the
number. Of two such points the nearer one counts, and the upper one if both are as near. -/
def Target.onGrid (t : Target) (n : Nat) : Option Digits :=
  let finer := (n - t.point).toNat
  let coarser := (t.point - n).toNat
  let up := Nat.pow 10 finer
  let unit := t.den * Nat.pow 10 coarser
  let below := t.value * up / unit
  let rest := t.value * up % unit
  let lowOk := if t.closed then t.low * up ≤ below * unit else t.low * up < below * unit
  let highOk := if t.closed then (below + 1) * unit ≤ t.high * up
    else (below + 1) * unit < t.high * up
  let chosen :=
    if lowOk ∧ highOk then some (if 2 * rest < unit then below else below + 1)
    else if lowOk then some below
    else if highOk then some (below + 1)
    else none
  chosen.map fun k =>
    let digits := Numeral.ofNat k
    ⟨dropTrailingZeros digits, t.point - n + digits.length⟩

/-- The point of the coarsest grid that has one. Seventeen digits always suffice for a binary
number of 53 bits. -/
def Target.shortest (t : Target) : Digits :=
  ((List.range 17).findSome? fun i => t.onGrid (i + 1)).getD
    ⟨Numeral.ofNat (t.value / t.den), t.point⟩

end SqlCompose.Decimal
