import SpoolIndex.Json.Reader
import SpoolIndex.Time.Date
import SpoolIndex.Toml

/-!
# Reading TOML

The text form of TOML 1.0. Every function takes the text that is left and gives what it read with
the text after it. Arrays and inline tables may be nested 79 deep, and a dotted key has at most 80
parts.
-/

namespace SpoolIndex.Toml.Reader

def isBlank (c : Char) : Bool := c == ' ' || c == '\t'

def skipBlanks (text : List Char) : List Char := text.dropWhile isBlank

/-- Characters of a comment or a literal string: no controls but the tab. -/
def isPlain (c : Char) : Bool := c == '\t' || (' ' ≤ c && c != '\x7f')

def lineEnd? : List Char → Option (List Char)
  | '\n' :: rest => some rest
  | '\r' :: '\n' :: rest => some rest
  | _ => none

def skipComment : List Char → List Char
  | '#' :: rest => rest.dropWhile isPlain
  | text => text

/-- The rest of a line: blanks, perhaps a comment, and the end of the line or of the text. -/
def finishLine? (text : List Char) : Option (List Char) :=
  match skipComment (skipBlanks text) with
  | [] => some []
  | rest => lineEnd? rest

/-- Blanks, comments and line ends; each step uses up at least one character. -/
def skipLines : (steps : Nat) → List Char → List Char
  | 0, text => text
  | steps + 1, text =>
    let rest := skipComment (skipBlanks text)
    match lineEnd? rest with
    | some rest => skipLines steps rest
    | none => rest

/-! ## Strings -/

def simpleEscape? : Char → Option Char
  | 'b' => some '\x08'
  | 't' => some '\t'
  | 'n' => some '\n'
  | 'f' => some '\x0c'
  | 'r' => some '\r'
  | '"' => some '"'
  | '\\' => some '\\'
  | _ => none

/-- A character by its number in `width` hexadecimal digits. -/
def numbered? (width : Nat) (text : List Char) : Option (Char × List Char) := do
  if text.length < width then none
  else
    let n ← Digits.hexNumber? (text.take width)
    if n < 0xD800 ∨ (0xE000 ≤ n ∧ n < 0x110000) then some (Char.ofNat n, text.drop width)
    else none

def escape? : List Char → Option (Char × List Char)
  | 'u' :: rest => numbered? 4 rest
  | 'U' :: rest => numbered? 8 rest
  | c :: rest => (simpleEscape? c).map (·, rest)
  | [] => none

/-- The characters up to the closing quote of a string on one line. -/
def basicBody? : (steps : Nat) → List Char → Option (List Char × List Char)
  | 0, _ => none
  | _, [] => none
  | _ + 1, '"' :: rest => some ([], rest)
  | steps + 1, '\\' :: rest => do
    let (c, rest) ← escape? rest
    let (cs, rest) ← basicBody? steps rest
    some (c :: cs, rest)
  | steps + 1, c :: rest =>
    if isPlain c then do
      let (cs, rest) ← basicBody? steps rest
      some (c :: cs, rest)
    else none

/-- The text of a literal string on one line. -/
def literalBody? (text : List Char) : Option (List Char × List Char) :=
  let body := text.takeWhile fun c => isPlain c && c != '\''
  match text.drop body.length with
  | '\'' :: rest => some (body, rest)
  | _ => none

/-- Three quotes end a string of several lines; up to two before them belong to it. -/
def closing? (quote : Char) (text : List Char) : Option (List Char × List Char) :=
  let run := text.takeWhile (· == quote)
  if run.length < 3 then none
  else
    let kept := min (run.length - 3) 2
    some (List.replicate kept quote, text.drop (kept + 3))

/-- What a backslash at the end of a line skips: everything up to the next visible character. -/
def skipContinuation? (text : List Char) : Option (List Char) :=
  (lineEnd? (skipBlanks text)).map fun rest => skipGap rest.length rest
where
  skipGap : (steps : Nat) → List Char → List Char
    | 0, text => text
    | steps + 1, text =>
      match lineEnd? (skipBlanks text) with
      | some rest => skipGap steps rest
      | none => skipBlanks text

/-- The characters up to the closing quotes of a string of several lines. -/
def linesBody? (quote : Char) : (steps : Nat) → List Char → Option (List Char × List Char)
  | 0, _ => none
  | _, [] => none
  | steps + 1, c :: rest =>
    if let some (cs, rest) := closing? quote (c :: rest) then some (cs, rest)
    else if c = '\\' ∧ quote = '"' then
      match skipContinuation? rest with
      | some rest => linesBody? quote steps rest
      | none => do
        let (c, rest) ← escape? rest
        let (cs, rest) ← linesBody? quote steps rest
        some (c :: cs, rest)
    else if let some rest := lineEnd? (c :: rest) then do
      let (cs, rest) ← linesBody? quote steps rest
      some ('\n' :: cs, rest)
    else if isPlain c then do
      let (cs, rest) ← linesBody? quote steps rest
      some (c :: cs, rest)
    else none

/-- A line end right after the opening quotes does not count. -/
def afterFirstLineEnd (text : List Char) : List Char := (lineEnd? text).getD text

/-- A string on one line. -/
def shortString? : List Char → Option (List Char × List Char)
  | '"' :: rest => basicBody? rest.length rest
  | '\'' :: rest => literalBody? rest
  | _ => none

def string? : List Char → Option (List Char × List Char)
  | '"' :: '"' :: '"' :: rest => linesBody? '"' (rest.length + 1) (afterFirstLineEnd rest)
  | '\'' :: '\'' :: '\'' :: rest => linesBody? '\'' (rest.length + 1) (afterFirstLineEnd rest)
  | text => shortString? text

/-! ## Keys -/

def isBareKey (c : Char) : Bool := c.isAlphanum || c == '-' || c == '_'

def keyPart? (text : List Char) : Option (String × List Char) :=
  match text with
  | '"' :: _ | '\'' :: _ => (shortString? text).map fun (cs, rest) => (String.ofList cs, rest)
  | _ =>
    let name := text.takeWhile isBareKey
    if name.isEmpty then none else some (String.ofList name, text.drop name.length)

/-- Parts with dots between them, at most `limit`, and the blanks around them. -/
def key? : (limit : Nat) → List Char → Option (List String × List Char)
  | 0, _ => none
  | limit + 1, text => do
    let (name, rest) ← keyPart? (skipBlanks text)
    match skipBlanks rest with
    | '.' :: rest => do
      let (names, rest) ← key? limit rest
      some (name :: names, rest)
    | rest => some ([name], rest)

def keyLimit : Nat := 80

/-! ## Numbers, dates and times -/

/-- Digits of some kind, with single underscores between them. -/
def digits? (isDigit : Char → Bool) (text : List Char) : Option (List Char × List Char) :=
  let run := text.takeWhile fun c => isDigit c || c == '_'
  let rec alternates : List Char → Bool
    | '_' :: '_' :: _ => false
    | _ :: cs => alternates cs
    | [] => true
  if run.isEmpty || run.head? == some '_' || run.getLast? == some '_' || !alternates run then none
  else some (run.filter (· != '_'), text.drop run.length)

def isHexDigit (c : Char) : Bool := (Digits.hexValue? c).isSome

def isOctalDigit (c : Char) : Bool := '0' ≤ c && c ≤ '7'

def isBinaryDigit (c : Char) : Bool := c == '0' || c == '1'

def valueIn (base : Nat) (digits : List Char) : Nat :=
  digits.foldl (fun n c => base * n + (Digits.hexValue? c).getD 0) 0

/-- Integers have 64 bits. -/
def bounded (n : Int) : Option Toml :=
  if -9223372036854775808 ≤ n ∧ n ≤ 9223372036854775807 then some (.integer n) else none

def prefixed? (base : Nat) (isDigit : Char → Bool) (text : List Char) :
    Option (Toml × List Char) := do
  let (digits, rest) ← digits? isDigit text
  some (← bounded (valueIn base digits), rest)

/-- Digits without a zero in front of others. -/
def whole? (text : List Char) : Option (List Char × List Char) := do
  let (digits, rest) ← digits? Char.isDigit text
  if digits.head? == some '0' && 1 < digits.length then none else some (digits, rest)

def fraction? : List Char → Option (List Char × List Char)
  | '.' :: rest => digits? Char.isDigit rest
  | text => some ([], text)

def exponent? : List Char → Option (Option Int × List Char)
  | 'e' :: rest | 'E' :: rest => do
    let (negative, rest) := match rest with
      | '-' :: rest => (true, rest)
      | '+' :: rest => (false, rest)
      | rest => (false, rest)
    let (digits, rest) ← digits? Char.isDigit rest
    let n : Int := Digits.value digits
    some (some (if negative then -n else n), rest)
  | text => some (none, text)

/-- A decimal number after its sign. Only a number too large for a double is refused. -/
def decimal? (negative : Bool) (text : List Char) : Option (Toml × List Char) := do
  let (digits, rest) ← whole? text
  let (fraction, rest) ← fraction? rest
  let (power, rest) ← exponent? rest
  if fraction.isEmpty && power.isNone then
    let n : Int := Digits.value digits
    some (← bounded (if negative then -n else n), rest)
  else
    let mantissa := Digits.value (digits ++ fraction)
    let fits := Json.Reader.fitsDouble mantissa (power.getD 0 - fraction.length)
    if negative || fits then some (.float, rest) else none

def number? : List Char → Option (Toml × List Char)
  | '0' :: 'x' :: rest => prefixed? 16 isHexDigit rest
  | '0' :: 'o' :: rest => prefixed? 8 isOctalDigit rest
  | '0' :: 'b' :: rest => prefixed? 2 isBinaryDigit rest
  | '+' :: 'i' :: 'n' :: 'f' :: rest | '-' :: 'i' :: 'n' :: 'f' :: rest
  | '+' :: 'n' :: 'a' :: 'n' :: rest | '-' :: 'n' :: 'a' :: 'n' :: rest => some (.float, rest)
  | '-' :: rest => decimal? true rest
  | '+' :: rest => decimal? false rest
  | text => decimal? false text

/-- A number of exactly `width` digits between two bounds. -/
def field? (width low high : Nat) (text : List Char) : Option (Nat × List Char) :=
  let (run, rest) := Digits.takeRun width text
  if run.length = width ∧ low ≤ Digits.value run ∧ Digits.value run ≤ high then
    some (Digits.value run, rest)
  else none

def mark? (c : Char) : List Char → Option (List Char)
  | d :: rest => if c = d then some rest else none
  | [] => none

def date? (text : List Char) : Option (List Char) := do
  let (year, rest) ← field? 4 0 9999 text
  let (month, rest) ← field? 2 1 12 (← mark? '-' rest)
  let (_, rest) ← field? 2 1 (Date.daysInMonth year month) (← mark? '-' rest)
  some rest

def time? (text : List Char) : Option (List Char) := do
  let (_, rest) ← field? 2 0 23 text
  let (_, rest) ← field? 2 0 59 (← mark? ':' rest)
  let (_, rest) ← field? 2 0 60 (← mark? ':' rest)
  match rest with
  | '.' :: c :: rest => if c.isDigit then some (rest.dropWhile Char.isDigit) else none
  | '.' :: [] => none
  | rest => some rest

def zone? : List Char → Option (List Char)
  | 'Z' :: rest | 'z' :: rest => some rest
  | '+' :: rest | '-' :: rest => do
    let (_, rest) ← field? 2 0 23 rest
    let (_, rest) ← field? 2 0 59 (← mark? ':' rest)
    some rest
  | rest => some rest

def timeOfDate? (text : List Char) : Option (List Char) :=
  match text with
  | 'T' :: rest | 't' :: rest | ' ' :: rest =>
    match rest with
    | a :: b :: ':' :: _ => if a.isDigit && b.isDigit then (time? rest).bind zone? else some text
    | _ => some text
  | rest => some rest

def moment? (text : List Char) : Option (Toml × List Char) :=
  match text with
  | _ :: _ :: ':' :: _ => (time? text).map (.moment, ·)
  | _ => ((date? text).bind timeOfDate?).map (.moment, ·)

def beginsMoment (text : List Char) : Bool :=
  let run := (text.takeWhile Char.isDigit).length
  (run == 4 && text[4]? == some '-') || (run == 2 && text[2]? == some ':')

/-! ## Values and documents -/

def word? (word : String) (text : List Char) : Option (List Char) :=
  if word.toList.isPrefixOf text then some (text.drop word.length) else none

def scalar? (text : List Char) : Option (Toml × List Char) :=
  match text with
  | '"' :: _ | '\'' :: _ =>
    (string? text).map fun (cs, rest) => (.string (String.ofList cs), rest)
  | 't' :: _ => (word? "true" text).map (.boolean true, ·)
  | 'f' :: _ => (word? "false" text).map (.boolean false, ·)
  | 'i' :: _ => (word? "inf" text).map (.float, ·)
  | 'n' :: _ => (word? "nan" text).map (.float, ·)
  | _ => if beginsMoment text then moment? text else number? text

/-- The elements of an array after its opening bracket; a comma may follow the last. -/
def elements? (value? : List Char → Option (Toml × List Char)) :
    (steps : Nat) → List Char → Option (List Toml × List Char)
  | 0, _ => none
  | steps + 1, text =>
    match skipLines text.length text with
    | ']' :: rest => some ([], rest)
    | text => do
      let (x, rest) ← value? text
      match skipLines rest.length rest with
      | ',' :: rest => do
        let (xs, rest) ← elements? value? steps rest
        some (x :: xs, rest)
      | ']' :: rest => some ([x], rest)
      | _ => none

def assignment? (value? : List Char → Option (Toml × List Char)) (text : List Char) :
    Option (Assignment × List Char) := do
  let (names, rest) ← key? keyLimit text
  let (value, rest) ← value? (skipBlanks (← mark? '=' rest))
  some (⟨names.dropLast, names.getLastD "", value⟩, rest)

/-- The assignments of an inline table, of which there is at least one. -/
def inlineBody? (value? : List Char → Option (Toml × List Char)) :
    (steps : Nat) → List Char → Option (List Assignment × List Char)
  | 0, _ => none
  | steps + 1, text => do
    let (a, rest) ← assignment? value? text
    match skipBlanks rest with
    | ',' :: rest => do
      let (as, rest) ← inlineBody? value? steps rest
      some (a :: as, rest)
    | '\x7d' :: rest => some ([a], rest)
    | _ => none

def inline? (value? : List Char → Option (Toml × List Char)) (text : List Char) :
    Option (Toml × List Char) :=
  match skipBlanks text with
  | '\x7d' :: rest => some (.table .inline [], rest)
  | text => do
    let (assignments, rest) ← inlineBody? value? text.length text
    some (.table .inline (← assignAll assignments .inline []), rest)

/-- A value in which arrays and inline tables are nested at most `depth` deep. -/
def value? : (depth : Nat) → List Char → Option (Toml × List Char)
  | depth + 1, '[' :: rest =>
    (elements? (value? depth) (rest.length + 1) rest).map fun (xs, rest) => (.array xs, rest)
  | depth + 1, '\x7b' :: rest => inline? (value? depth) rest
  | 0, '[' :: _ => none
  | 0, '\x7b' :: _ => none
  | _, text => scalar? text

def nestingLimit : Nat := 79

def assignments? : (steps : Nat) → List Char → Option (List Assignment × List Char)
  | 0, text => if text.isEmpty then some ([], []) else none
  | steps + 1, text =>
    match skipLines text.length text with
    | [] => some ([], [])
    | '[' :: rest => some ([], '[' :: rest)
    | text => do
      let (a, rest) ← assignment? (value? nestingLimit) text
      let (as, rest) ← assignments? steps (← finishLine? rest)
      some (a :: as, rest)

/-- The inside of a header up to its closing brackets. -/
def header? (repeated : Bool) (text : List Char) : Option (Block × List Char) := do
  let (names, rest) ← key? keyLimit text
  let rest ← mark? ']' rest
  let rest ← if repeated then mark? ']' rest else some rest
  let (assignments, rest) ← assignments? (rest.length + 1) (← finishLine? rest)
  some (⟨repeated, names.dropLast, names.getLastD "", assignments⟩, rest)

def blocks? : (steps : Nat) → List Char → Option (List Block)
  | _, [] => some []
  | 0, _ => none
  | steps + 1, text => do
    let (block, rest) ← match text with
      | '[' :: '[' :: rest => header? true rest
      | '[' :: rest => header? false rest
      | _ => none
    some (block :: (← blocks? steps rest))

end Reader

def read? (text : String) : Option Entries := do
  let cs := match text.toList with
    | '\ufeff' :: rest => rest
    | cs => cs
  let (first, rest) ← Reader.assignments? (cs.length + 1) cs
  ofBlocks first (← Reader.blocks? rest.length rest)

end SpoolIndex.Toml
