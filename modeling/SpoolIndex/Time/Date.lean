/-!
# Calendar dates

Days since 1970-01-01 and dates of the proleptic Gregorian calendar. Years are counted from
March, so that a leap day is the last day of its year: 400 such years have 146097 days, and
within them a century has 36524, a group of four years 1461 and a year 365.
-/

namespace SpoolIndex

structure Date where
  year : Int
  month : Nat
  day : Nat
deriving DecidableEq, Repr

namespace Date

/-- Days from 0000-03-01 to 1970-01-01. -/
def epochOffset : Int := 719468

def isLeapYear (year : Int) : Bool := year % 4 == 0 && (year % 100 != 0 || year % 400 == 0)

def daysInMonth (year : Int) : Nat → Nat
  | 2 => if isLeapYear year then 29 else 28
  | 4 | 6 | 9 | 11 => 30
  | _ => 31

/-- The month is one of the twelve, and it has such a day. -/
def IsValid (d : Date) : Prop :=
  1 ≤ d.month ∧ d.month ≤ 12 ∧ 1 ≤ d.day ∧ d.day ≤ daysInMonth d.year d.month

instance (d : Date) : Decidable d.IsValid := inferInstanceAs (Decidable (_ ∧ _ ∧ _ ∧ _))

/-- Month and day of a day counted from the first of March. -/
def monthDay (dayOfYear : Nat) : Nat × Nat :=
  let m := (5 * dayOfYear + 2) / 153
  (if m < 10 then m + 3 else m - 9, dayOfYear - (153 * m + 2) / 5 + 1)

/-- The day counted from the first of March. -/
def dayOfYear (month day : Nat) : Nat :=
  (153 * (if 3 ≤ month then month - 3 else month + 9) + 2) / 5 + (day - 1)

def ofDays (days : Int) : Date :=
  let shifted := days + epochOffset
  let era := shifted / 146097
  let inEra := (shifted % 146097).toNat
  let century := min (inEra / 36524) 3
  let inCentury := inEra - 36524 * century
  let four := inCentury / 1461
  let inFour := inCentury - 1461 * four
  let one := min (inFour / 365) 3
  let md := monthDay (inFour - 365 * one)
  let year : Int := 400 * era + 100 * century + 4 * four + one
  ⟨if md.1 ≤ 2 then year + 1 else year, md.1, md.2⟩

def toDays (d : Date) : Int :=
  let year := if d.month ≤ 2 then d.year - 1 else d.year
  let era := year / 400
  let inEra := year % 400
  146097 * era + (365 * inEra + inEra / 4 - inEra / 100) + dayOfYear d.month d.day - epochOffset

end Date

end SpoolIndex
