import SpoolIndex.Partition
import SpoolIndex.Text.Digits

/-!
# Arguments

The words of a command line. The first names a command; the words after it are operands by
position and options by name, where an option takes its value from behind an equals sign or from
the next word. A word that begins with a dash is never a value, except a lone dash. After a double
dash all words are operands. A value that is a word of its own is looked at when the next word is
accepted, so a word that is refused is reported first.
-/

namespace SpoolIndex

inductive UsageError where
  | help
  | missingCommand
  | unknownCommand
  | unknownArgument
  | missingArgument
  /-- Options that exclude each other, or one given twice. -/
  | conflict
  | invalidNumber
  | missingValue
  | surplusValue
deriving DecidableEq

namespace CommandLine

inductive ValueKind where
  | text
  /-- A number from 0 up to 64 bits. -/
  | count
  /-- A slice, with a sign. -/
  | slice
deriving DecidableEq

structure OptionSpec where
  name : String
  kind : ValueKind
  required : Bool
  /-- Whether it may be given more than once. -/
  repeats : Bool
  /-- Options it cannot be given with. -/
  excludes : List String

structure CommandSpec where
  name : String
  operands : List String
  options : List OptionSpec

def optional (name : String) (kind : ValueKind) : OptionSpec := ⟨name, kind, false, false, []⟩

def required (name : String) : OptionSpec := ⟨name, .text, true, false, []⟩

def commands : List CommandSpec :=
  [⟨"browse", ["queue"], [optional "limit" .count]⟩,
    ⟨"size", ["queue"], []⟩,
    ⟨"delete", ["queue", "key"], [optional "slice" .slice]⟩,
    ⟨"delete-matching", ["queue"],
      [⟨"name", .text, false, false, ["sender", "recipient"]⟩,
        ⟨"sender", .text, false, false, ["recipient"]⟩, optional "recipient" .text]⟩,
    ⟨"advance", ["queue"], []⟩,
    ⟨"enqueue", ["queue", "name"],
      [required "header-ref", required "body-ref", optional "sender" .text,
        ⟨"recipient", .text, false, true, []⟩]⟩]

def command? (name : String) : Option CommandSpec := commands.find? (·.name == name)

/-- A decimal number with an optional plus sign. -/
def count? (text : String) : Option Nat :=
  let digits := match text.toList with
    | '+' :: rest => rest
    | cs => cs
  if digits.isEmpty || !digits.all Char.isDigit then none
  else if Digits.value digits < UInt64.size then some (Digits.value digits) else none

/-- A decimal number of 64 bits with an optional sign. -/
def slice? (text : String) : Option Slice :=
  let (negative, digits) := match text.toList with
    | '+' :: rest => (false, rest)
    | '-' :: rest => (true, rest)
    | cs => (false, cs)
  if digits.isEmpty || !digits.all Char.isDigit then none
  else Slice.ofInt? (if negative then -(Digits.value digits : Int) else Digits.value digits)

def isValid : ValueKind → String → Bool
  | .text, _ => true
  | .count, text => (count? text).isSome
  | .slice, text => (slice? text).isSome

structure Parsed where
  operands : List String
  /-- Options with their values, in order. -/
  options : List (String × String)
  /-- An option that was named, with its value once that is known. -/
  pending : Option (OptionSpec × Option String)

namespace Parsed

def settle (p : Parsed) : Except UsageError Parsed :=
  match p.pending with
  | none => .ok p
  | some (_, none) => .error .missingValue
  | some (o, some value) =>
    if !o.repeats && p.options.any (·.1 == o.name) then .error .conflict
    else if !isValid o.kind value then .error .invalidNumber
    else .ok { p with options := p.options ++ [(o.name, value)], pending := none }

/-- Whether the next word is the value of an option. -/
def awaitsValue (p : Parsed) : Bool :=
  match p.pending with
  | some (_, none) => true
  | _ => false

def value? (p : Parsed) (name : String) : Option String := p.options.lookup name

def values (p : Parsed) (name : String) : List String :=
  (p.options.filter (·.1 == name)).map (·.2)

end Parsed

/-- A word that begins with two dashes: the name and what is behind an equals sign. -/
def long? (word : String) : Option (String × Option String) :=
  match word.toList with
  | '-' :: '-' :: rest =>
    let name := rest.takeWhile (· != '=')
    if rest.isEmpty then none
    else some (String.ofList name,
      if name.length < rest.length then some (String.ofList (rest.drop (name.length + 1)))
      else none)
  | _ => none

/-- A word that begins with one dash and goes on: the letter after it. -/
def short? (word : String) : Option Char :=
  match word.toList with
  | '-' :: '-' :: _ => none
  | '-' :: c :: _ => some c
  | _ => none

/-- An operand, as long as there is room for one. -/
def addOperand (spec : CommandSpec) (p : Parsed) (word : String) : Except UsageError Parsed :=
  if spec.operands.length ≤ p.operands.length then .error .unknownArgument
  else p.settle.map fun p => { p with operands := p.operands ++ [word] }

/-- A word that asks for help, once what is pending is accepted. -/
def helpAfter (p : Parsed) : Except UsageError Parsed := p.settle.bind fun _ => .error .help

def addLong (spec : CommandSpec) (p : Parsed) (name : String) (attached : Option String) :
    Except UsageError Parsed :=
  match spec.options.find? (·.name == name), attached with
  | some o, none => p.settle.map fun p => { p with pending := some (o, none) }
  | some o, some value => do
    let p ← p.settle
    { p with pending := some (o, some value) }.settle
  | none, none => if name = "help" then helpAfter p else .error .unknownArgument
  | none, some _ => .error (if name = "help" then .surplusValue else .unknownArgument)

def readWords (spec : CommandSpec) : (operandsOnly : Bool) → Parsed → List String →
    Except UsageError Parsed
  | _, p, [] => p.settle
  | true, p, word :: words => do readWords spec true (← addOperand spec p word) words
  | false, p, word :: words =>
    if word = "--" then readWords spec true p words
    else do
      let p ← match long? word, short? word with
        | some (name, attached), _ => addLong spec p name attached
        | none, some letter => if letter = 'h' then helpAfter p else .error .unknownArgument
        | none, none =>
          match p.pending with
          | some (o, none) => pure { p with pending := some (o, some word) }
          | _ => addOperand spec p word
      readWords spec false p words

/-- Conflicts come before what is missing. -/
def check (spec : CommandSpec) (p : Parsed) : Except UsageError Unit :=
  let isGiven (name : String) : Bool := (p.value? name).isSome
  if spec.options.any fun o => isGiven o.name && o.excludes.any isGiven then .error .conflict
  else if p.operands.length < spec.operands.length ||
      spec.options.any (fun o => o.required && !isGiven o.name) then .error .missingArgument
  else .ok ()

end CommandLine

inductive Command where
  | browse (queue : QueueName) (limit : Nat)
  | size (queue : QueueName)
  | delete (queue : QueueName) (key : String) (slice : Option Slice)
  | deleteMatching (queue : QueueName) (name sender recipient : Option String)
  | advance (queue : QueueName)
  | enqueue (queue : QueueName) (name headerRef bodyRef : String) (sender : Option String)
      (recipients : List String)
deriving DecidableEq

namespace CommandLine

/-- Items a browse shows unless it is told otherwise. -/
def defaultLimit : Nat := 50

def build (name : String) (p : Parsed) : Except UsageError Command :=
  let text (option : String) : String := (p.value? option).getD ""
  match name, p.operands with
  | "browse", [queue] =>
    .ok (.browse ⟨queue⟩ (((p.value? "limit").bind count?).getD defaultLimit))
  | "size", [queue] => .ok (.size ⟨queue⟩)
  | "delete", [queue, key] => .ok (.delete ⟨queue⟩ key ((p.value? "slice").bind slice?))
  | "delete-matching", [queue] =>
    .ok (.deleteMatching ⟨queue⟩ (p.value? "name") (p.value? "sender") (p.value? "recipient"))
  | "advance", [queue] => .ok (.advance ⟨queue⟩)
  | "enqueue", [queue, name] =>
    .ok (.enqueue ⟨queue⟩ name (text "header-ref") (text "body-ref") (p.value? "sender")
      (p.values "recipient"))
  | _, _ => .error .missingArgument

def parseCommand (spec : CommandSpec) (words : List String) : Except UsageError Command := do
  let p ← readWords spec false ⟨[], [], none⟩ words
  check spec p
  build spec.name p

/-- Help on commands by name. -/
def helpOn : List String → UsageError
  | [] => .help
  | [name] => if name = "help" || (command? name).isSome then .help else .unknownCommand
  | _ => .unknownCommand

/-- Words after a double dash in front of the command: none can name one. -/
def parseOperands : List String → UsageError
  | [] => .missingCommand
  | word :: _ =>
    if word = "help" || (command? word).isSome then .unknownArgument else .unknownCommand

def parse : List String → Except UsageError Command
  | [] => .error .missingCommand
  | word :: words =>
    if word = "help" then .error (helpOn words)
    else if let some spec := command? word then parseCommand spec words
    else if word = "--" then .error (parseOperands words)
    else match long? word, short? word with
      | some ("help", none), _ => .error .help
      | some ("help", some _), _ => .error .surplusValue
      | some _, _ => .error .unknownArgument
      | none, some letter => .error (if letter = 'h' then .help else .unknownArgument)
      | none, none => .error .unknownCommand

end CommandLine

end SpoolIndex
