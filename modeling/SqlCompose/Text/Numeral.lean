import SqlCompose.Text.Basic

/-! Written numbers: decimal and hexadecimal numerals, with or without leading zeros, and
reading a natural number below a bound. -/

namespace SqlCompose.Numeral

def ofNat (n : Nat) : Text :=
  Nat.toDigits 10 n

def ofInt (n : Int) : Text :=
  if n < 0 then '-' :: ofNat n.natAbs else ofNat n.natAbs

def padded (width n : Nat) : Text :=
  List.replicate (width - (ofNat n).length) '0' ++ ofNat n

def hex (n : Nat) : Text :=
  Nat.toDigits 16 n

def paddedHex (width n : Nat) : Text :=
  List.replicate (width - (hex n).length) '0' ++ hex n

def isDigit (c : Char) : Bool :=
  '0' ≤ c && c ≤ '9'

def digitValue (c : Char) : Nat :=
  c.toNat - '0'.toNat

def value (digits : Text) : Nat :=
  digits.foldl (fun n c => 10 * n + digitValue c) 0

/-- Reads a natural number below 2^64: decimal digits, with one plus sign allowed in front. -/
def readSize (s : Text) : Option Nat :=
  let digits := match s with
    | '+' :: rest => rest
    | _ => s
  if digits ≠ [] ∧ digits.all isDigit ∧ value digits < Nat.pow 2 64 then some (value digits)
  else none

end SqlCompose.Numeral
