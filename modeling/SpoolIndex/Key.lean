import SpoolIndex.Text.Digits
import SpoolIndex.Time.Instant

/-!
# Item keys

A key is a UUID: 128 bits, compared as one number, which is also the order of its bytes. Versions
1, 6 and 7 carry the moment they were made; the version digit alone decides which.
-/

namespace SpoolIndex

structure Key where
  bits : Nat
  bits_lt : bits < 1 <<< 128
deriving DecidableEq

namespace Key

instance : Inhabited Key := ⟨0, by decide⟩

instance : LT Key := ⟨fun a b => a.bits < b.bits⟩

instance : LE Key := ⟨fun a b => a.bits ≤ b.bits⟩

instance (a b : Key) : Decidable (a < b) := inferInstanceAs (Decidable (a.bits < b.bits))

instance (a b : Key) : Decidable (a ≤ b) := inferInstanceAs (Decidable (a.bits ≤ b.bits))

@[ext]
theorem ext {a b : Key} (h : a.bits = b.bits) : a = b := by
  cases a; cases b; cases h; rfl

/-- The low 128 bits of a number. -/
def ofNat (n : Nat) : Key := ⟨n % (1 <<< 128), Nat.mod_lt _ (by decide)⟩

/-- The sixteen bytes, most significant first. -/
def bytes (k : Key) : List UInt8 :=
  (List.range 16).map fun i => (k.bits >>> (8 * (15 - i))).toUInt8

/-- The 32 hexadecimal digits, in lower case. -/
def hex (k : Key) : List Char := Digits.hex 32 k.bits

/-- Cuts 32 digits into the five groups of the hyphenated form. -/
def hyphenate (digits : List Char) : List Char :=
  digits.take 8 ++ '-' :: (digits.drop 8).take 4 ++ '-' :: (digits.drop 12).take 4 ++
    '-' :: (digits.drop 16).take 4 ++ '-' :: digits.drop 20

def render (k : Key) : String := String.ofList (hyphenate k.hex)

instance : ToString Key := ⟨render⟩

def ofHex? (digits : List Char) : Option Key :=
  if digits.length = 32 then
    match Digits.hexNumber? digits with
    | some n => if h : n < 1 <<< 128 then some ⟨n, h⟩ else none
    | none => none
  else none

def ofHyphenated? (text : List Char) : Option Key :=
  if text.length = 36 ∧ [8, 13, 18, 23].all (fun i => text[i]? = some '-') then
    ofHex? (text.take 8 ++ (text.drop 9).take 4 ++ (text.drop 14).take 4 ++
      (text.drop 19).take 4 ++ text.drop 24)
  else none

/-- Reads a key: hyphenated, bare digits, hyphenated in braces, or hyphenated as a URN. -/
def ofText? (text : String) : Option Key :=
  let cs := text.toList
  match cs.length with
  | 32 => ofHex? cs
  | 36 => ofHyphenated? cs
  | 38 =>
    if cs.head? = some '\x7b' ∧ cs.getLast? = some '\x7d' then
      ofHyphenated? ((cs.drop 1).take 36)
    else none
  | 45 =>
    if (cs.take 9).map Char.toLower = "urn:uuid:".toList then ofHyphenated? (cs.drop 9) else none
  | _ => none

def version (k : Key) : Nat := k.bits >>> 76 % 16

/-- The two bits that tell the layout; 2 is the one of RFC 9562. -/
def variant (k : Key) : Nat := k.bits >>> 62 % 4

/-- The first 48 bits, which in version 7 count milliseconds since 1970. -/
def leadingMillis (k : Key) : Nat := k.bits >>> 80

/-- The first 32 bits. -/
def timeLow (k : Key) : Nat := k.bits >>> 96

/-- The 16 bits after the first 32. -/
def timeMid (k : Key) : Nat := k.bits >>> 80 % 0x1_0000

/-- The 12 bits after the version. -/
def timeHigh (k : Key) : Nat := k.bits >>> 64 % 0x1000

/-- 100-nanosecond ticks from 1582-10-15, the start of the Gregorian calendar, to 1970. -/
def gregorianOffset : Nat := 0x01B21DD213814000

/-- Ticks before 1970 wrap around as 64-bit numbers. -/
def ofGregorianTicks (ticks : Nat) : Option Instant :=
  let sinceEpoch := (ticks + (UInt64.size - gregorianOffset)) % UInt64.size
  Instant.ofSeconds? (sinceEpoch / 10000000 : Nat) (sinceEpoch % 10000000 * 100)

def timestamp (k : Key) : Option Instant :=
  match k.version with
  | 1 => ofGregorianTicks (k.timeHigh <<< 48 + k.timeMid <<< 32 + k.timeLow)
  | 6 => ofGregorianTicks (k.timeLow <<< 28 + k.timeMid <<< 12 + k.timeHigh)
  | 7 => Instant.ofMillis? k.leadingMillis
  | _ => none

end Key

end SpoolIndex
