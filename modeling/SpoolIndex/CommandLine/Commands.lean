import SpoolIndex.CommandLine.Arguments
import SpoolIndex.Time.Rfc3339
import SpoolIndex.View.Deletion
import SpoolIndex.View.Recording

/-!
# Commands

What each command does and the lines it prints. A command that fails has printed what came before
its failure.
-/

namespace SpoolIndex

/-- Why a command fails. -/
inductive Failure where
  | error (e : Error)
  /-- The command itself cannot be carried out as given. -/
  | refusal (message : String)
deriving DecidableEq

def Failure.message : Failure → String
  | .error e => e.message
  | .refusal message => message

structure Printed where
  texts : List String
  outcome : Except Failure Unit

namespace Printed

def ofTexts (texts : List String) : Printed := ⟨texts, .ok ()⟩

/-- The lines that are seen; a text may hold several. -/
def lines (p : Printed) : List String :=
  if p.texts.isEmpty then [] else ("\n".intercalate p.texts).splitOn "\n"

def failed (e : Error) : Printed := ⟨[], .error (.error e)⟩

def ofResult (render : α → List String) : Except Error α → Printed
  | .ok x => ofTexts (render x)
  | .error e => failed e

end Printed

namespace CommandLine

/-- At most `limit` characters of a text. -/
def truncate (text : String) (limit : Nat) : String := String.ofList (text.toList.take limit)

/-- A text with blanks after it up to a width in characters. -/
def pad (width : Nat) (text : String) : String :=
  text ++ String.ofList (List.replicate (width - text.length) ' ')

def nameWidth : Nat := 30

def header : String :=
  "  ".intercalate [pad 36 "KEY", pad 8 "SLICE", pad 4 "BKT", pad nameWidth "NAME",
    pad nameWidth "SENDER", "ENQUEUED"]

def rule : String := String.ofList (List.replicate 130 '-')

/-- A row of the table of items. Key, slice and bucket are as wide as they are. -/
def row (x : Item) : String :=
  "  ".intercalate [x.key.render, toString x.slice, toString x.bucket,
    pad nameWidth (truncate x.name nameWidth),
    pad nameWidth (truncate (x.sender.getD "-") nameWidth), Rfc3339.renderPlain x.enqueuedAt]

def footer (shown : Nat) : String := "\n" ++ toString shown ++ " item(s) shown"

/-- The rows of at most `limit` items, and the error that ended them early. -/
def rows (v : View) : (limit : Nat) → Browse → List String →
    Operation (List String × Option Error)
  | 0, _, shown => return (shown.reverse, none)
  | limit + 1, b, shown => do
    match ← b.pull v with
    | (none, _) => return (shown.reverse, none)
    | (some (.error e), _) => return (shown.reverse, some e)
    | (some (.ok x), b) => rows v limit b (row x :: shown)

def browse (v : View) (queue : QueueName) (limit : Nat) : Operation Printed := do
  match ← (Browse.ofQueue queue).run with
  | .error e => return .failed e
  | .ok b => do
    let (shown, error) ← rows v limit b []
    match error with
    | some e => return ⟨header :: rule :: shown, .error (.error e)⟩
    | none => return .ofTexts (header :: rule :: shown ++ [footer shown.length])

/-- Deletes one item. Without a slice it is the one that the key's own moment falls into. -/
def delete (v : View) (queue : QueueName) (keyText : String) (slice : Option Slice) :
    Operation Printed := do
  match Key.parse keyText with
  | .error e => return .failed e
  | .ok key =>
    match slice <|> key.timestamp.map v.allocator.sliceOf with
    | none => return ⟨[], .error (.refusal "key carries no timestamp, pass --slice")⟩
    | some slice => do
      let result ← (v.delete queue key slice).run
      return .ofResult (fun _ => ["Deleted: " ++ key.render]) result

/-- The filter of a bulk delete, if one is given. -/
def filter? (name sender recipient : Option String) : Option ItemFilter :=
  name.map .name <|> sender.map .sender <|> recipient.map .recipient

def deleteMatching (v : View) (queue : QueueName) (filter : Option ItemFilter) :
    Operation Printed := do
  match filter with
  | none =>
    return ⟨[], .error (.refusal "one of --name, --sender or --recipient is required")⟩
  | some filter => do
    let result ← (v.deleteMatching queue filter).run
    return .ofResult (fun n => ["Deleted " ++ toString n ++ " item(s)"]) result

def advance (v : View) (queue : QueueName) : Operation Printed := do
  match ← (v.advanceBrowseStart queue).run with
  | .error e => return .failed e
  | .ok advance => do
    let text := match advance with
      | .advanced => "Advanced"
      | .unchanged => "Unchanged"
    match ← (BrowseStart.current queue).run with
    | .error e => return ⟨[text], .error (.error e)⟩
    | .ok none => return .ofTexts [text]
    | .ok (some start) => return .ofTexts [text, "Browse start: " ++ toString start]

def describeEnqueued : Enqueued → String
  | .indexed key receipt => "Enqueued: " ++ key.render ++ " (msg " ++ receipt.text ++ ")"
  | .unindexed key receipt error =>
    "Enqueued: " ++ key.render ++ " (msg " ++ receipt.text ++ "), not browsable: " ++
      error.message

/-- Sends an item through the transport, whose queue is created if it is new. -/
def enqueue (v : View) (queue : QueueName) (new : NewItem) : Operation Printed := do
  let attempt : Attempt Enqueued := do
    Attempt.createQueue queue
    v.enqueue queue new
  return .ofResult (fun x => [describeEnqueued x]) (← attempt.run)

/-- The item that the arguments of an enqueue describe. -/
def newItem (name headerRef bodyRef : String) (sender : Option String)
    (recipients : List String) : NewItem :=
  let x := NewItem.new name ⟨headerRef⟩ ⟨bodyRef⟩
  let x := match sender with
    | some sender => x.withSender sender
    | none => x
  recipients.foldl NewItem.withRecipient x

end CommandLine

def Command.execute (v : View) : Command → Operation Printed
  | .browse queue limit => CommandLine.browse v queue limit
  | .size queue => do
    return .ofResult (fun n => [toString n]) (← (v.size queue).run)
  | .delete queue key slice => CommandLine.delete v queue key slice
  | .deleteMatching queue name sender recipient =>
    CommandLine.deleteMatching v queue (CommandLine.filter? name sender recipient)
  | .advance queue => CommandLine.advance v queue
  | .enqueue queue name headerRef bodyRef sender recipients =>
    CommandLine.enqueue v queue
      (CommandLine.newItem name headerRef bodyRef sender recipients)

end SpoolIndex
