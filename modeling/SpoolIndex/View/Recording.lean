import SpoolIndex.View.BrowseStart

/-!
# Recording

An item is recorded after the transport has it: the queue is opened if it is new, the item is
appended, and the browse start is read again, because it may have moved past the item meanwhile.
Whatever fails, the error says that the item was not indexed; the mail itself is on its way.
-/

namespace SpoolIndex

/-- Why an item that was appended is not browsable. -/
def behindBrowseStart : String := "slice is behind the queue's browse start"

def recordOutcome : Except Error α → String
  | .ok _ => "ok"
  | .error (.indexing _ _ reason) =>
    if reason = behindBrowseStart then "behind_browse_start" else "error"
  | .error _ => "error"

/-- An item handed to the transport, with what became of its record. -/
inductive Enqueued where
  | indexed (key : Key) (receipt : Receipt)
  | unindexed (key : Key) (receipt : Receipt) (error : Error)

namespace View

/-- Errors of a record say what was not indexed. -/
def indexing (x : Item) (e : Error) : Error := .indexing x.queue x.key e.message

/-- Looks whether browses still come to an item that was appended. -/
def confirm (x : Item) : Attempt Unit := do
  match ← (BrowseStart.current x.queue).mapError (indexing x) with
  | some start =>
    if x.slice < start then throw (.indexing x.queue x.key behindBrowseStart)
    else return ()
  | none => return ()

/-- The store calls of a record. A new queue opens some slices behind its first item, so that
slightly older items racing in stay reachable. -/
def write (v : View) (x : Item) : Attempt Unit := do
  let _ ← (BrowseStart.establish x.queue (x.slice.back v.settleSlices)).mapError (indexing x)
  (Attempt.call (.appendItem x)).mapError (indexing x)
  confirm x

def itemOf (v : View) (queue : QueueName) (new : NewItem) (key : Key) (moment : Instant) : Item :=
  new.placed queue key (v.allocator.allocate queue key moment) moment

def beginRecord (queue : QueueName) (key : Key) (slice : Slice) : Operation Unit := do
  Operation.report (.span "view.record"
    [("view.queue", .text queue.text), ("view.key", .text key.render)])
  Operation.report (.fill "view.record" "view.slice" (toString slice))

def reportRecord (slice : Slice) (bucket : Bucket) : Except Error Unit → Operation Unit
  | .ok _ => Operation.event .debug "item recorded"
      [("slice", .text (toString slice)), ("bucket", .text (toString bucket))]
  | .error e => Operation.event .warn
      ("item accepted by transport but not browsable: " ++ e.message) []

def endRecord (queue : QueueName) (slice : Slice) (bucket : Bucket) (result : Except Error Unit) :
    Operation Unit := do
  Operation.count .operationDuration [("operation", "view.record")]
  Operation.count .itemsRecorded [("queue", queue.text), ("result", recordOutcome result)]
  Operation.inSpan "view.record" (reportRecord slice bucket result)

/-- Records an item enqueued at a given moment. -/
def recordAt (v : View) (queue : QueueName) (new : NewItem) (moment : Instant) : Attempt Key :=
  ExceptT.mk do
    let key ← match new.key with
      | some key => pure key
      | none => Operation.mint moment
    let x := v.itemOf queue new key moment
    beginRecord queue key x.slice
    let result ← (Attempt.inSpan "view.record" (v.write x)).run
    endRecord queue x.slice x.bucket result
    return result.map fun _ => key

def record (v : View) (queue : QueueName) (new : NewItem) : Attempt Key := do
  v.recordAt queue new (← Operation.now)

/-- Records an item that the transport has. -/
def recordSent (v : View) (queue : QueueName) (new : NewItem) (key : Key) (moment : Instant)
    (receipt : Receipt) : Attempt Enqueued := do
  match ← (v.recordAt queue (new.withKey key) moment).outcome with
  | .ok key => return .indexed key receipt
  | .error e => do
    Operation.event .warn ("enqueued without index: " ++ e.message)
      [("queue", .text queue.text), ("key", .text key.render), ("receipt", .text receipt.text)]
    return .unindexed key receipt e

def enqueueAs (v : View) (queue : QueueName) (new : NewItem) (moment : Instant) (key : Key) :
    Attempt Enqueued := do
  let receipt ← Attempt.send ⟨queue, key, new.name, moment, new.headerRef, new.bodyRef⟩
  v.recordSent queue new key moment receipt

/-- Hands an item to the transport and then records it. Only a refusal of the transport is an
error. -/
def enqueue (v : View) (queue : QueueName) (new : NewItem) : Attempt Enqueued := do
  let now ← Operation.now
  let key ← match new.key with
    | some key => pure key
    | none => Operation.mint now
  v.enqueueAs queue new now key

end View

end SpoolIndex
