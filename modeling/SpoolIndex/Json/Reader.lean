import SpoolIndex.Json
import SpoolIndex.Text.Digits

/-!
# Reading JSON

A strict reader: no comments, no trailing commas, no control characters or lone surrogates in
strings, no numbers beyond the doubles. Arrays and objects may be nested 127 deep. A value that is
only skipped may be deeper, its numbers larger and its surrogates lone. Every function takes the
text that is left and gives what it read with the text after it.
-/

namespace SpoolIndex.Json.Reader

def isBlank (c : Char) : Bool := c == ' ' || c == '\n' || c == '\r' || c == '\t'

def skipBlanks (text : List Char) : List Char := text.dropWhile isBlank

def simpleEscape? : Char → Option Char
  | '"' => some '"'
  | '\\' => some '\\'
  | '/' => some '/'
  | 'b' => some '\x08'
  | 'f' => some '\x0c'
  | 'n' => some '\n'
  | 'r' => some '\r'
  | 't' => some '\t'
  | _ => none

def unit? : List Char → Option (Nat × List Char)
  | a :: b :: c :: d :: rest => (Digits.hexNumber? [a, b, c, d]).map (·, rest)
  | _ => none

/-- Stands for a lone surrogate in text that is skipped. -/
def replacement : Char := '\ufffd'

/-- A character written as one or two 16-bit units, after the first `\u`. -/
def unicodeEscape? (strict : Bool) (text : List Char) : Option (Char × List Char) := do
  let (high, rest) ← unit? text
  if high < 0xD800 ∨ 0xE000 ≤ high then some (Char.ofNat high, rest)
  else if !strict then some (replacement, rest)
  else if 0xDC00 ≤ high then none
  else match rest with
    | '\\' :: 'u' :: rest => do
      let (low, rest) ← unit? rest
      if 0xDC00 ≤ low ∧ low < 0xE000 then
        some (Char.ofNat (0x10000 + (high - 0xD800) * 0x400 + (low - 0xDC00)), rest)
      else none
    | _ => none

/-- The characters up to the closing quote; each step uses up at least one character. -/
def stringBody? (strict : Bool) : (steps : Nat) → List Char → Option (List Char × List Char)
  | 0, _ => none
  | _, [] => none
  | _ + 1, '"' :: rest => some ([], rest)
  | steps + 1, '\\' :: 'u' :: rest => do
    let (c, rest) ← unicodeEscape? strict rest
    let (cs, rest) ← stringBody? strict steps rest
    some (c :: cs, rest)
  | steps + 1, '\\' :: e :: rest => do
    let c ← simpleEscape? e
    let (cs, rest) ← stringBody? strict steps rest
    some (c :: cs, rest)
  | steps + 1, c :: rest =>
    if c < ' ' ∨ c = '\\' then none
    else do
      let (cs, rest) ← stringBody? strict steps rest
      some (c :: cs, rest)

def string? (strict : Bool) : List Char → Option (String × List Char)
  | '"' :: rest =>
    (stringBody? strict rest.length rest).map fun (cs, rest) => (String.ofList cs, rest)
  | _ => none

/-- Numbers as large as 2^1024, less half a unit of its last place, do not fit a double. -/
def doubleLimit : Nat := 1 <<< 1024 - 1 <<< 970

/-- Whether a decimal fits the range of doubles. No power of ten is computed that is far from the
mantissa or from the limit. -/
def fitsDouble (mantissa : Nat) (exponent : Int) : Bool :=
  if 0 ≤ exponent then
    mantissa = 0 || (exponent ≤ 400 && Digits.scaled mantissa exponent.toNat < doubleLimit)
  else
    let places := (-exponent).toNat
    mantissa.log2 < places || mantissa < Digits.scaled doubleLimit places

def fraction? : List Char → Option (List Char × List Char)
  | '.' :: text =>
    let (run, rest) := Digits.takeRun text.length text
    if run.isEmpty then none else some (run, rest)
  | text => some ([], text)

def exponent? (text : List Char) : Option (Option Int × List Char) :=
  let power (negative : Bool) (text : List Char) : Option (Option Int × List Char) :=
    let (run, rest) := Digits.takeRun text.length text
    if run.isEmpty then none
    else some (some (if negative then -(Digits.value run : Int) else Digits.value run), rest)
  match text with
  | 'e' :: '-' :: rest | 'E' :: '-' :: rest => power true rest
  | 'e' :: '+' :: rest | 'E' :: '+' :: rest => power false rest
  | 'e' :: rest | 'E' :: rest => power false rest
  | text => some (none, text)

/-- An integer of 64 bits or, with a fraction, a power or more bits, a decimal. -/
def numberValue (negative : Bool) (digits fraction : List Char) (power : Option Int) : Json :=
  let n := Digits.value (digits ++ fraction)
  let signed : Int := if negative then -n else n
  let whole := fraction.isEmpty && power.isNone
  let inRange := if negative then 0 < n && n ≤ 1 <<< 63 else n < UInt64.size
  if whole && inRange then .int signed else .decimal signed (power.getD 0 - fraction.length)

/-- A number without its sign; `strict` rejects those beyond the doubles. -/
def unsigned? (strict negative : Bool) (text : List Char) : Option (Json × List Char) := do
  let (digits, rest) := Digits.takeRun text.length text
  if digits.isEmpty || (digits.head? == some '0' && 1 < digits.length) then none
  else
    let (fraction, rest) ← fraction? rest
    let (power, rest) ← exponent? rest
    let fits := fitsDouble (Digits.value (digits ++ fraction)) (power.getD 0 - fraction.length)
    if strict && !fits then none else some (numberValue negative digits fraction power, rest)

def number? (strict : Bool) : List Char → Option (Json × List Char)
  | '-' :: rest => unsigned? strict true rest
  | text => unsigned? strict false text

/-- One or more items with commas between, up to the closing character. -/
def itemsUntil? (close : Char) (item? : List Char → Option (α × List Char)) :
    (steps : Nat) → List Char → Option (List α × List Char)
  | 0, _ => none
  | steps + 1, text => do
    let (x, rest) ← item? (skipBlanks text)
    match skipBlanks rest with
    | ',' :: rest => do
      let (xs, rest) ← itemsUntil? close item? steps rest
      some (x :: xs, rest)
    | c :: rest => if c = close then some ([x], rest) else none
    | [] => none

/-- The items between brackets, after the opening one. -/
def bracketed? (close : Char) (item? : List Char → Option (α × List Char)) (text : List Char) :
    Option (List α × List Char) :=
  match skipBlanks text with
  | [] => none
  | c :: rest => if c = close then some ([], rest) else itemsUntil? close item? text.length text

/-- A name, a colon and what `value?` reads for that name. -/
def member? (strict : Bool) (value? : String → List Char → Option (α × List Char))
    (text : List Char) : Option ((String × α) × List Char) := do
  let (name, rest) ← string? strict text
  match skipBlanks rest with
  | ':' :: rest => do
    let (x, rest) ← value? name (skipBlanks rest)
    some ((name, x), rest)
  | _ => none

/-- A value whose arrays and objects are nested at most `depth` deep. -/
def value? (strict : Bool) : (depth : Nat) → List Char → Option (Json × List Char)
  | _, 'n' :: 'u' :: 'l' :: 'l' :: rest => some (.null, rest)
  | _, 't' :: 'r' :: 'u' :: 'e' :: rest => some (.bool true, rest)
  | _, 'f' :: 'a' :: 'l' :: 's' :: 'e' :: rest => some (.bool false, rest)
  | _, '"' :: rest => (string? strict ('"' :: rest)).map fun (s, rest) => (.string s, rest)
  | depth + 1, '[' :: rest =>
    (bracketed? ']' (value? strict depth) rest).map fun (xs, rest) => (.array xs, rest)
  | depth + 1, '\x7b' :: rest =>
    (bracketed? '\x7d' (member? strict fun _ => value? strict depth) rest).map fun (ms, rest) =>
      (ofMembers ms, rest)
  | 0, '[' :: _ => none
  | 0, '\x7b' :: _ => none
  | _, text => number? strict text

/-- Containers inside a record may be nested this deep. -/
def memberDepth : Nat := 126

/-- A member of a record: its value if the name is known, else nothing. -/
def knownMember? (known : List String) (name : String) (text : List Char) :
    Option (Option Json × List Char) :=
  if known.contains name then (value? true memberDepth text).map fun (x, rest) => (some x, rest)
  else (value? false text.length text).map fun (_, rest) => (none, rest)

/-- The values of the named members; `none` where one is missing, failure if one is repeated. -/
def select? (names : List String) (members : List (String × Option Json)) :
    Option (List (Option Json)) :=
  names.mapM fun name =>
    match members.filter (·.1 == name) with
    | [] => some none
    | [(_, x)] => some x
    | _ => none

/-- A record is an object with some of the named members, and any others, or an array with the
values of all of them in order. -/
def record? (names : List String) (text : List Char) :
    Option (List (Option Json) × List Char) :=
  match skipBlanks text with
  | '\x7b' :: rest => do
    let (members, rest) ← bracketed? '\x7d' (member? true (knownMember? names)) rest
    let values ← select? names members
    some (values, rest)
  | '[' :: rest => do
    let (elements, rest) ← bracketed? ']' (value? true memberDepth) rest
    if elements.length = names.length then some (elements.map some, rest) else none
  | _ => none

/-- The text of one record and nothing else but blanks. -/
def recordText? (names : List String) (text : String) : Option (List (Option Json)) := do
  let (values, rest) ← record? names text.toList
  if (skipBlanks rest).isEmpty then some values else none

end SpoolIndex.Json.Reader
