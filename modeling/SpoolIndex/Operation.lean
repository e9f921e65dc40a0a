import SpoolIndex.Report
import SpoolIndex.Store.Call

/-!
# Operations

An operation is the tree of actions it takes: each node is one action, and the reply to it chooses
the branch. The same tree is run whole against a store, interleaved with others call by call, or
with its store calls failing. An attempt is an operation that may end in an error.
-/

namespace SpoolIndex

inductive Action where
  | store (call : StoreCall)
  /-- Reads the clock. -/
  | now
  /-- Makes a key for a moment. -/
  | mint (moment : Instant)
  /-- Makes sure that the transport has a queue. -/
  | createQueue (queue : QueueName)
  | send (message : Message)
  | fetch (ref : ContentRef)
  /-- Counts a delete; the reply is the number of deletes so far. -/
  | countDelete
  | sleep (millis : Nat)
  | report (report : Report)

@[reducible]
def Action.Reply : Action → Type
  | store call => Except Error call.Reply
  | now => Instant
  | mint _ => Key
  | createQueue _ => Except Error Unit
  | send _ => Except Error Receipt
  | fetch _ => Except Error (List UInt8)
  | countDelete => Nat
  | sleep _ | report _ => Unit

inductive Operation (α : Type) where
  | done (value : α)
  | act (action : Action) (next : action.Reply → Operation α)

namespace Operation

protected def bind : Operation α → (α → Operation β) → Operation β
  | done value, f => f value
  | act action next, f => act action fun reply => (next reply).bind f

instance : Monad Operation where
  pure := done
  bind := Operation.bind

def perform (action : Action) : Operation action.Reply := act action done

def now : Operation Instant := perform .now

def report (r : Report) : Operation Unit := perform (.report r)

def mint (moment : Instant) : Operation Key := perform (.mint moment)

def event (level : Level) (message : String) (fields : List (String × Field)) : Operation Unit :=
  report (.event level message fields)

def count (instrument : Instrument) (labels : List (String × String)) : Operation Unit :=
  report (.count instrument labels)

def inSpan (span : String) (op : Operation α) : Operation α := do
  report (.enter span)
  let value ← op
  report .leave
  return value

def run (answer : (action : Action) → σ → action.Reply × σ) : Operation α → σ → α × σ
  | done value, s => (value, s)
  | act action next, s =>
    match answer action s with
    | (reply, s) => run answer (next reply) s

end Operation

abbrev Attempt (α : Type) := ExceptT Error Operation α

namespace Attempt

def call (c : StoreCall) : Attempt c.Reply := ExceptT.mk (Operation.perform (.store c))

def createQueue (queue : QueueName) : Attempt Unit :=
  ExceptT.mk (Operation.perform (.createQueue queue))

def send (message : Message) : Attempt Receipt := ExceptT.mk (Operation.perform (.send message))

def fetch (ref : ContentRef) : Attempt (List UInt8) := ExceptT.mk (Operation.perform (.fetch ref))

/-- Runs an attempt inside a span, which is left also after an error. -/
def inSpan (span : String) (op : Attempt α) : Attempt α :=
  ExceptT.mk (Operation.inSpan span op.run)

/-- How an attempt ends, which is no error whichever way it does. -/
def outcome (op : Attempt α) : Attempt (Except Error α) :=
  ExceptT.mk (do return .ok (← op.run))

def mapError (f : Error → Error) (op : Attempt α) : Attempt α :=
  ExceptT.mk (do return (← op.run).mapError f)

end Attempt

end SpoolIndex
