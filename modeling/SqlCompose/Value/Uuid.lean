import SqlCompose.Text.Numeral

/-! Universally unique identifiers: 128 bits, written as five groups of lower-case hexadecimal
digits with dashes between them. The other ways to write them, in upper case, without dashes, in
braces or with a scheme, are left out, and so is what the bits say of version and variant. -/

namespace SqlCompose

structure Uuid where
  bits : BitVec 128
  deriving DecidableEq

def Uuid.text (u : Uuid) : Text :=
  let digits := Numeral.paddedHex 32 u.bits.toNat
  digits.take 8 ++ '-' :: (digits.drop 8).take 4 ++ '-' :: (digits.drop 12).take 4
    ++ '-' :: (digits.drop 16).take 4 ++ '-' :: digits.drop 20

end SqlCompose
