import SpoolIndex.Json
import SpoolIndex.Text.Digits

/-!
# Writing JSON

The compact text of a value: no blanks, members in their order, and in strings only the quote,
the backslash and the control characters escaped, with a short escape where there is one.
-/

namespace SpoolIndex.Json

def escape (c : Char) : List Char :=
  match c with
  | '"' => ['\\', '"']
  | '\\' => ['\\', '\\']
  | '\n' => ['\\', 'n']
  | '\r' => ['\\', 'r']
  | '\t' => ['\\', 't']
  | '\x08' => ['\\', 'b']
  | '\x0c' => ['\\', 'f']
  | c => if c < ' ' then '\\' :: 'u' :: Digits.hex 4 c.toNat else [c]

def quoted (text : String) : List Char := '"' :: text.toList.flatMap escape ++ ['"']

/-- A decimal in positional notation; one with no fraction digits ends in a zero after the point. -/
def decimalText (mantissa exponent : Int) : List Char :=
  let sign := if mantissa < 0 then ['-'] else []
  if 0 ≤ exponent then
    sign ++ Nat.toDigits 10 (Digits.scaled mantissa.natAbs exponent.toNat) ++ ['.', '0']
  else
    let places := (-exponent).toNat
    let digits := Digits.padded (places + 1) mantissa.natAbs
    sign ++ digits.take (digits.length - places) ++ '.' :: digits.drop (digits.length - places)

mutual
def chars : Json → List Char
  | .null => ['n', 'u', 'l', 'l']
  | .bool true => ['t', 'r', 'u', 'e']
  | .bool false => ['f', 'a', 'l', 's', 'e']
  | .int n => (toString n).toList
  | .decimal m e => decimalText m e
  | .string s => quoted s
  | .array [] => ['[', ']']
  | .array (x :: xs) => '[' :: chars x ++ elementChars xs
  | .object [] => ['\x7b', '\x7d']
  | .object ((name, x) :: ms) => '\x7b' :: quoted name ++ ':' :: chars x ++ memberChars ms

def elementChars : List Json → List Char
  | [] => [']']
  | x :: xs => ',' :: chars x ++ elementChars xs

def memberChars : List (String × Json) → List Char
  | [] => ['\x7d']
  | (name, x) :: ms => ',' :: quoted name ++ ':' :: chars x ++ memberChars ms
end

def render (value : Json) : String := String.ofList value.chars

def sortByText (values : List Json) : List Json :=
  let keyed := values.map fun x => (x.render, x)
  (keyed.mergeSort fun a b => a.1 ≤ b.1).map (·.2)

end SpoolIndex.Json
