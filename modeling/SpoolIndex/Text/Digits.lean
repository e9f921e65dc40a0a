/-!
# Digits

Runs of decimal and hexadecimal digits as the formats of this library write them: zero padded
fields, and the number that a run of digits stands for.
-/

namespace SpoolIndex.Digits

/-- The decimal digits of `n`, with zeros in front up to `width`. -/
def padded (width n : Nat) : List Char :=
  let digits := Nat.toDigits 10 n
  List.replicate (width - digits.length) '0' ++ digits

/-- The number written by a run of decimal digits. -/
def value (digits : List Char) : Nat := Nat.ofDigitChars 10 digits 0

/-- The number whose decimal digits are those of `n` and so many zeros. -/
def scaled (n zeros : Nat) : Nat := n * Nat.pow 10 zeros

/-- The value of one hexadecimal digit of either case. -/
def hexValue? (c : Char) : Option Nat :=
  if '0' ≤ c ∧ c ≤ '9' then some (c.toNat - '0'.toNat)
  else if 'a' ≤ c ∧ c ≤ 'f' then some (c.toNat - 'a'.toNat + 10)
  else if 'A' ≤ c ∧ c ≤ 'F' then some (c.toNat - 'A'.toNat + 10)
  else none

/-- The number written by hexadecimal digits, if they are all digits. -/
def hexNumber? (digits : List Char) : Option Nat :=
  digits.foldlM (fun n c => (hexValue? c).map (16 * n + ·)) 0

/-- `width` lower-case hexadecimal digits of `n`; higher ones are dropped. -/
def hex : (width n : Nat) → List Char
  | 0, _ => []
  | width + 1, n => hex width (n / 16) ++ [Nat.digitChar (n % 16)]

def ofBytes (bytes : List UInt8) : List Char := bytes.flatMap fun b => hex 2 b.toNat

/-- The bytes written by pairs of hexadecimal digits. -/
def bytes? : List Char → Option (List UInt8)
  | [] => some []
  | [_] => none
  | a :: b :: rest => do
    let n ← hexNumber? [a, b]
    return n.toUInt8 :: (← bytes? rest)

/-- The digits at the front, at most `limit` of them, and what follows. -/
def takeRun (limit : Nat) (text : List Char) : List Char × List Char :=
  let run := (text.take limit).takeWhile Char.isDigit
  (run, text.drop run.length)

end SpoolIndex.Digits
