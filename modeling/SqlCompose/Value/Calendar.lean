import SqlCompose.Text.Numeral

/-! Dates, times of day and timestamps, with their texts in the extended form of ISO 8601: years of
four digits or with a sign, other fields of two digits, fractions of three, six or nine places, and
a leap second as second 60. Those with the same fields are equal. Which days and times there are is
not checked here, and the bounds of the calendar, zones and arithmetic are left out. -/

namespace SqlCompose

/-- A day of the proleptic calendar; the year before year 1 is year 0. -/
structure Date where
  year : Int
  month : Nat
  day : Nat
  deriving DecidableEq

/-- A time of day. A leap second is second 59 with `nanos` of one thousand million or more. -/
structure Time where
  hour : Nat
  minute : Nat
  second : Nat
  nanos : Nat
  deriving DecidableEq

structure Timestamp where
  date : Date
  time : Time
  deriving DecidableEq

/-- Four digits without a sign for the years 0 to 9999, and a sign for all others. -/
def Date.yearText (d : Date) : Text :=
  if d.year < 0 then '-' :: Numeral.padded 4 d.year.natAbs
  else if d.year ≤ 9999 then Numeral.padded 4 d.year.natAbs
  else '+' :: Numeral.ofNat d.year.natAbs

def Date.text (d : Date) : Text :=
  d.yearText ++ '-' :: Numeral.padded 2 d.month ++ '-' :: Numeral.padded 2 d.day

/-- The fraction of a second in the fewest of zero, three, six or nine places that is exact. -/
def Time.fractionText (nanos : Nat) : Text :=
  if nanos = 0 then []
  else if nanos % 1000000 = 0 then '.' :: Numeral.padded 3 (nanos / 1000000)
  else if nanos % 1000 = 0 then '.' :: Numeral.padded 6 (nanos / 1000)
  else '.' :: Numeral.padded 9 nanos

def Time.text (t : Time) : Text :=
  let leap := 1000000000 ≤ t.nanos
  let second := if leap then t.second + 1 else t.second
  let nanos := if leap then t.nanos - 1000000000 else t.nanos
  Numeral.padded 2 t.hour ++ ':' :: Numeral.padded 2 t.minute ++ ':' :: Numeral.padded 2 second
    ++ Time.fractionText nanos

def Timestamp.textWith (gap : Char) (t : Timestamp) : Text :=
  t.date.text ++ gap :: t.time.text

def Timestamp.text (t : Timestamp) : Text :=
  t.textWith ' '

end SqlCompose
