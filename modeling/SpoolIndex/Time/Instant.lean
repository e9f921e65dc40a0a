/-!
# Instants

An instant is a second and the nanoseconds into it, within the years -262143 to 262142. There may
be more nanoseconds than a second has, but fewer than two have: those beyond `10 ^ 9` are in a
leap second, which runs on after its own second and before the next one. Milliseconds and
nanoseconds since 1970 count the leap second as the next second, so they do not tell the two apart;
the order of instants does.
-/

namespace SpoolIndex

namespace Instant

/-- -262143-01-01T00:00:00Z. -/
def earliestSecond : Int := -8334601228800

/-- The last second of the year 262142. -/
def latestSecond : Int := 8210266876799

end Instant

structure Instant where
  /-- Whole seconds since 1970-01-01T00:00:00Z. -/
  seconds : Int
  /-- Nanoseconds into the second, and into the leap second after it. -/
  subsecond : Nat
  first_le : Instant.earliestSecond ≤ seconds
  le_last : seconds ≤ Instant.latestSecond
  subsecond_lt : subsecond < 2000000000
deriving DecidableEq

namespace Instant

/-- The instant so many nanoseconds into a second; `none` outside the range of dates. -/
def ofSeconds? (seconds : Int) (subsecond : Nat) : Option Instant :=
  if h : earliestSecond ≤ seconds ∧ seconds ≤ latestSecond ∧ subsecond < 2000000000 then
    some ⟨seconds, subsecond, h.1, h.2.1, h.2.2⟩
  else none

/-- The instant outside leap seconds at a number of nanoseconds since 1970. -/
def ofNanos? (nanos : Int) : Option Instant :=
  ofSeconds? (nanos / 1000000000) (nanos % 1000000000).toNat

def ofMillis? (millis : Int) : Option Instant := ofNanos? (millis * 1000000)

def startOf (seconds : Int) (first_le : earliestSecond ≤ seconds)
    (le_last : seconds ≤ latestSecond) : Instant :=
  ⟨seconds, 0, first_le, le_last, by decide⟩

/-- The last nanosecond of a second, before its leap second. -/
def endOf (seconds : Int) (first_le : earliestSecond ≤ seconds)
    (le_last : seconds ≤ latestSecond) : Instant :=
  ⟨seconds, 999999999, first_le, le_last, by decide⟩

def earliest : Instant := startOf earliestSecond (by decide) (by decide)

/-- The last instant outside leap seconds. -/
def latest : Instant := endOf latestSecond (by decide) (by decide)

/-- The last instant of all: the end of a leap second after the last second. -/
def latestLeap : Instant := ⟨latestSecond, 1999999999, by decide, by decide, by decide⟩

def epoch : Instant := startOf 0 (by decide) (by decide)

instance : Inhabited Instant := ⟨epoch⟩

instance : LE Instant :=
  ⟨fun a b => a.seconds < b.seconds ∨ a.seconds = b.seconds ∧ a.subsecond ≤ b.subsecond⟩

instance : LT Instant :=
  ⟨fun a b => a.seconds < b.seconds ∨ a.seconds = b.seconds ∧ a.subsecond < b.subsecond⟩

instance (a b : Instant) : Decidable (a ≤ b) :=
  inferInstanceAs (Decidable (_ ∨ _ ∧ _))

instance (a b : Instant) : Decidable (a < b) :=
  inferInstanceAs (Decidable (_ ∨ _ ∧ _))

def inLeapSecond (t : Instant) : Bool := 1000000000 ≤ t.subsecond

/-- Nanoseconds since 1970. -/
def nanos (t : Instant) : Int := t.seconds * 1000000000 + t.subsecond

/-- Whole milliseconds since 1970, rounded down. -/
def millis (t : Instant) : Int := t.nanos / 1000000

/-- The instant `millis` milliseconds later (or earlier), if there is such a date. A step that
leaves a leap second leaves it by its end for the next second, or by its beginning for its own. -/
def after? (t : Instant) (millis : Int) : Option Instant :=
  let nanos := millis * 1000000
  if t.inLeapSecond ∧ -1000 < millis ∧ t.subsecond + nanos < 2000000000 then
    ofSeconds? t.seconds (t.subsecond + nanos).toNat
  else if t.inLeapSecond ∧ 0 < millis then ofNanos? (t.nanos - 1000000000 + nanos)
  else ofNanos? (t.nanos + nanos)

end Instant

end SpoolIndex
