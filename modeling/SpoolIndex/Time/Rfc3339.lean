import SpoolIndex.Text.Digits
import SpoolIndex.Time.Date
import SpoolIndex.Time.Instant

/-!
# RFC 3339 text

Moments are written in UTC with the shortest of no, 3, 6 or 9 fraction digits that is exact; a
year outside 0000 to 9999 has a sign. The reader is laxer than the writer: blanks are allowed
around the numbers of the date and the time, a blank may separate the two, any zone offset is
accepted, fractions of any length are cut to nanoseconds, and a second 60 is a leap second.
-/

namespace SpoolIndex.Rfc3339

/-- Four digits, or a sign and at least four when the year does not fit. -/
def yearText (year : Int) : List Char :=
  if 0 ≤ year ∧ year ≤ 9999 then Digits.padded 4 year.toNat
  else (if year < 0 then '-' else '+') :: Digits.padded 4 year.natAbs

def dateText (d : Date) : List Char :=
  yearText d.year ++ '-' :: Digits.padded 2 d.month ++ '-' :: Digits.padded 2 d.day

/-- Hours, minutes and seconds of a time of day; a leap second has the number 60. -/
def clockText (secondOfDay : Nat) (leap : Bool) : List Char :=
  Digits.padded 2 (secondOfDay / 3600) ++ ':' :: Digits.padded 2 (secondOfDay / 60 % 60) ++
    ':' :: Digits.padded 2 (secondOfDay % 60 + if leap then 1 else 0)

def fractionText (nanos : Nat) : List Char :=
  if nanos = 0 then []
  else if nanos % 1000000 = 0 then '.' :: Digits.padded 3 (nanos / 1000000)
  else if nanos % 1000 = 0 then '.' :: Digits.padded 6 (nanos / 1000)
  else '.' :: Digits.padded 9 nanos

def split (t : Instant) : Date × Nat :=
  (Date.ofDays (t.seconds / 86400), (t.seconds % 86400).toNat)

def render (t : Instant) : String :=
  let (date, second) := split t
  String.ofList (dateText date ++ 'T' :: clockText second t.inLeapSecond ++
    fractionText (t.subsecond % 1000000000) ++ ['Z'])

/-- Date and time to the second, with a blank between. -/
def renderPlain (t : Instant) : String :=
  let (date, second) := split t
  String.ofList (dateText date ++ ' ' :: clockText second t.inLeapSecond)

/-- The blanks of text: the white space of Unicode. -/
def isBlank (c : Char) : Bool :=
  c == ' ' || ('\t' ≤ c && c ≤ '\r') || c == '\u0085' || c == '\u00a0' || c == '\u1680' ||
    ('\u2000' ≤ c && c ≤ '\u200a') || c == '\u2028' || c == '\u2029' || c == '\u202f' ||
    c == '\u205f' || c == '\u3000'

def skipBlanks (text : List Char) : List Char := text.dropWhile isBlank

/-- The largest number that the reader holds: 63 bits. -/
def largest : Nat := 9223372036854775807

/-- A number of one to `limit` digits after any blanks. -/
def number? (limit : Nat) (text : List Char) : Option (Nat × List Char) :=
  let (run, rest) := Digits.takeRun limit (skipBlanks text)
  if run.isEmpty || largest < Digits.value run then none else some (Digits.value run, rest)

def field? (low high limit : Nat) (text : List Char) : Option (Nat × List Char) := do
  let (n, rest) ← number? limit text
  if low ≤ n ∧ n ≤ high then some (n, rest) else none

def mark? (c : Char) (text : List Char) : Option (List Char) :=
  match skipBlanks text with
  | d :: rest => if c = d then some rest else none
  | [] => none

/-- A run of digits with no blank before it. -/
def digits? (limit : Nat) (text : List Char) : Option (Nat × List Char) :=
  let (run, rest) := Digits.takeRun limit text
  if run.isEmpty || largest < Digits.value run then none else some (Digits.value run, rest)

/-- Up to four digits, or a sign and any number of digits; years have to fit 32 bits. -/
def year? (text : List Char) : Option (Int × List Char) :=
  let inRange : Int × List Char → Option (Int × List Char) := fun (y, rest) =>
    if -2147483648 ≤ y ∧ y ≤ 2147483647 then some (y, rest) else none
  match skipBlanks text with
  | '-' :: rest => (digits? rest.length rest).bind fun (n, rest) => inRange (-n, rest)
  | '+' :: rest => (digits? rest.length rest).bind fun (n, rest) => inRange (n, rest)
  | text => (digits? 4 text).bind fun (n, rest) => inRange (n, rest)

/-- The fraction of a second in nanoseconds; digits after the ninth are dropped. -/
def fraction? : List Char → Option (Nat × List Char)
  | '.' :: text =>
    let (run, rest) := Digits.takeRun 9 text
    if run.isEmpty then none
    else some (Digits.scaled (Digits.value run) (9 - run.length), rest.dropWhile Char.isDigit)
  | text => some (0, text)

/-- The offset of a numeric zone in seconds: two digits of hours, an optional separator and two
of minutes. -/
def numericZone? (text : List Char) : Option (Nat × List Char) :=
  match text with
  | h :: i :: rest =>
    if h.isDigit && i.isDigit then
      match rest.dropWhile fun c => c == ':' || isBlank c with
      | m :: n :: rest =>
        if m.isDigit && n.isDigit && m < '6' then
          some (3600 * Digits.value [h, i] + 60 * Digits.value [m, n], rest)
        else none
      | _ => none
    else none
  | _ => none

/-- Seconds east of UTC. -/
def zone? (text : List Char) : Option (Int × List Char) :=
  match skipBlanks text with
  | 'Z' :: rest | 'z' :: rest => some (0, rest)
  | '+' :: rest => (numericZone? rest).map fun (s, rest) => (s, rest)
  | '-' :: rest | '\u2212' :: rest => (numericZone? rest).map fun (s, rest) => (-s, rest)
  | u :: t :: c :: rest =>
    if [u, t, c].map Char.toUpper = ['U', 'T', 'C'] then some (0, rest) else none
  | _ => none

/-- Zone offsets stay below one day. -/
def zoneLimit : Int := 86400

/-- The years that dates may have, in the written zone as in UTC. -/
def hasYearInRange (date : Date) : Bool := -262143 ≤ date.year && date.year ≤ 262142

/-- Assembles what was read; `none` if there is no such date or it leaves the range. -/
def assemble? (date : Date) (hour minute second nanos : Nat) (offset : Int) : Option Instant :=
  if date.IsValid ∧ hasYearInRange date ∧ -zoneLimit < offset ∧ offset < zoneLimit then
    let leap := second == 60
    let seconds : Int :=
      date.toDays * 86400 + 3600 * hour + 60 * minute + (if leap then 59 else second) - offset
    Instant.ofSeconds? seconds (nanos + if leap then 1000000000 else 0)
  else none

def read? (text : String) : Option Instant := do
  let (year, text) ← year? text.toList
  let text ← mark? '-' text
  let (month, text) ← field? 1 12 2 text
  let text ← mark? '-' text
  let (day, text) ← field? 1 31 2 text
  let text ← match text with
    | 'T' :: rest | 't' :: rest | ' ' :: rest => some rest
    | _ => none
  let (hour, text) ← field? 0 23 2 text
  let text ← mark? ':' text
  let (minute, text) ← field? 0 59 2 text
  let text ← mark? ':' text
  let (second, text) ← field? 0 60 2 text
  let (nanos, text) ← fraction? text
  let (offset, text) ← zone? text
  if (skipBlanks text).isEmpty then assemble? ⟨year, month, day⟩ hour minute second nanos offset
  else none

end SpoolIndex.Rfc3339
