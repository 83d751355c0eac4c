import SqlCompose.Decimal.Shortest

/-! Two ways to write decimal digits: positionally, with as many zeros as it takes, and with an
exponent of ten. -/

namespace SqlCompose.Decimal

def zeros (n : Nat) : Text :=
  List.replicate n '0'

/-- All places written out; a whole number gets `whole` behind its digits. -/
def Digits.positional (whole : Text) (d : Digits) : Text :=
  if d.point ≤ 0 then "0." ++ zeros (-d.point).toNat ++ d.digits
  else if d.digits.length ≤ d.point then
    d.digits ++ zeros (d.point - d.digits.length).toNat ++ whole
  else d.digits.take d.point.toNat ++ '.' :: d.digits.drop d.point.toNat

def Digits.scientific (d : Digits) : Text :=
  let exponent := 'e' :: Numeral.ofInt (d.point - 1)
  match d.digits with
  | [] => exponent
  | [c] => c :: exponent
  | c :: rest => c :: '.' :: rest ++ exponent

end SqlCompose.Decimal
