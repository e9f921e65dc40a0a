import SpoolIndex.Database.Table
import SpoolIndex.Store.Call

/-!
# Statements

The statements sent to the database, with their text and parameters, what they do to the tables
and what comes back: the rows found, whether there are any, or the number of rows changed.
-/

namespace SpoolIndex

inductive Statement where
  | insertItem (row : ItemRow)
  | selectItems (queue : QueueName) (slice : Slice) (bucket : Int) (after : Option Key)
      (limit : Nat)
  | itemsExist (queue : QueueName) (slice : Slice) (bucket : Int)
  | insertTombstone (queue : QueueName) (key : Key)
  | tombstoneExists (queue : QueueName) (key : Key)
  | selectTombstones (queue : QueueName) (after : Option Key) (limit : Nat)
  | selectStart (queue : QueueName)
  | insertStart (queue : QueueName) (slice : Slice)
  /-- Raises a browse start that is smaller. -/
  | raiseStart (queue : QueueName) (slice : Slice)
  | createQueue (queue : QueueName)
  /-- Sends a message that stays hidden for some seconds. -/
  | sendMessage (queue : QueueName) (payload : Json) (delay : Int)
  /-- Asks only for an answer. -/
  | ping

inductive Parameter where
  | null
  | number (value : Int)
  | text (value : String)
  | texts (values : List String)
  | key (value : Key)
  /-- Microseconds since 1970. -/
  | moment (micros : Int)
  | json (value : Json)

namespace Parameter

def ofOption (f : α → Parameter) : Option α → Parameter
  | none => null
  | some x => f x

end Parameter

namespace Statement

@[reducible]
def Reply : Statement → Type
  | insertItem _ | insertTombstone .. | insertStart .. | raiseStart .. => Nat
  | selectItems .. => List ItemRow
  | selectTombstones .. => List Key
  | selectStart _ => List Slice
  | itemsExist .. | tombstoneExists .. => Bool
  | createQueue _ | ping => Unit
  | sendMessage .. => Nat

def itemColumns : String :=
  "queue_name, slice, bucket, item_key, enqueued_at, name, sender, recipients, header_ref, " ++
    "body_ref, attributes"

def text : Statement → String
  | insertItem _ =>
    "INSERT INTO enqueued_items (" ++ itemColumns ++ ") " ++
      "VALUES ($1, $2, $3, $4, $5, $6, $7, $8, $9, $10, $11) " ++
      "ON CONFLICT (queue_name, slice, bucket, item_key) DO NOTHING"
  | selectItems .. =>
    "SELECT " ++ itemColumns ++ " FROM enqueued_items " ++
      "WHERE queue_name = $1 AND slice = $2 AND bucket = $3 " ++
      "AND ($4::uuid IS NULL OR item_key > $4) ORDER BY item_key LIMIT $5"
  | itemsExist .. =>
    "SELECT EXISTS (SELECT 1 FROM enqueued_items " ++
      "WHERE queue_name = $1 AND slice = $2 AND bucket = $3)"
  | insertTombstone .. =>
    "INSERT INTO deleted_items (queue_name, item_key) VALUES ($1, $2) " ++
      "ON CONFLICT (queue_name, item_key) DO NOTHING"
  | tombstoneExists .. =>
    "SELECT EXISTS (SELECT 1 FROM deleted_items WHERE queue_name = $1 AND item_key = $2)"
  | selectTombstones .. =>
    "SELECT item_key FROM deleted_items " ++
      "WHERE queue_name = $1 AND ($2::uuid IS NULL OR item_key > $2) " ++
      "ORDER BY item_key LIMIT $3"
  | selectStart _ => "SELECT slice FROM browse_start WHERE queue_name = $1"
  | insertStart .. =>
    "INSERT INTO browse_start (queue_name, slice) VALUES ($1, $2) " ++
      "ON CONFLICT (queue_name) DO NOTHING"
  | raiseStart .. =>
    "UPDATE browse_start SET slice = $2, updated_at = now() " ++
      "WHERE queue_name = $1 AND slice < $2"
  | createQueue _ => "SELECT pgmq.create($1)"
  | sendMessage .. => "SELECT pgmq.send($1, $2, $3)"
  | ping => "SELECT 1"

def parameters : Statement → List Parameter
  | insertItem r =>
    [.text r.queue.text, .number r.slice.index, .number r.bucket, .key r.key,
      .moment r.enqueuedMicros, .text r.name, .ofOption .text r.sender, .texts r.recipients,
      .text r.headerRef.text, .text r.bodyRef.text, .json (.object r.attributes)]
  | selectItems queue slice bucket after limit =>
    [.text queue.text, .number slice.index, .number bucket, .ofOption .key after, .number limit]
  | itemsExist queue slice bucket => [.text queue.text, .number slice.index, .number bucket]
  | insertTombstone queue key | tombstoneExists queue key => [.text queue.text, .key key]
  | selectTombstones queue after limit =>
    [.text queue.text, .ofOption .key after, .number limit]
  | selectStart queue | createQueue queue => [.text queue.text]
  | insertStart queue slice | raiseStart queue slice => [.text queue.text, .number slice.index]
  | sendMessage queue payload delay => [.text queue.text, .json payload, .number delay]
  | ping => []

def table? : Statement → Option String
  | insertItem _ | selectItems .. | itemsExist .. => some "enqueued_items"
  | insertTombstone .. | tombstoneExists .. | selectTombstones .. => some "deleted_items"
  | selectStart _ | insertStart .. | raiseStart .. => some "browse_start"
  | createQueue _ | sendMessage .. | ping => none

end Statement

namespace Tables

/-- `INSERT … ON CONFLICT DO NOTHING`: the table after it and the number of new rows. -/
def insertNew (conflicts : α → Bool) (row : α) (rows : List α) : Nat × List α :=
  if rows.any conflicts then (0, rows) else (1, rows ++ [row])

/-- `WHERE key > after`, where nothing is before all keys. -/
def isAfter (after : Option Key) (key : Key) : Bool :=
  match after with
  | none => true
  | some bound => bound < key

/-- `ORDER BY item_key LIMIT limit`. -/
def firstByKey (keyOf : α → Key) (limit : Nat) (rows : List α) : List α :=
  (rows.mergeSort fun a b => keyOf a ≤ keyOf b).take limit

def createQueue (t : Tables) (queue : QueueName) : Tables :=
  if t.queues.any (·.name == queue) then t else { t with queues := t.queues ++ [⟨queue, []⟩] }

def messages? (t : Tables) (queue : QueueName) : Option (List Json) :=
  (t.queues.find? (·.name == queue)).map (·.messages)

/-- Appends a message; its number is the new length of the queue. -/
def sendMessage (t : Tables) (queue : QueueName) (payload : Json) :
    Except DatabaseError Nat × Tables :=
  match t.messages? queue with
  | none => (.error (.refused ("relation \"pgmq.q_" ++ queue.text ++ "\" does not exist")), t)
  | some sent =>
    let append (q : MessageQueue) : MessageQueue :=
      if q.name == queue then { q with messages := q.messages ++ [payload] } else q
    (.ok (sent.length + 1), { t with queues := t.queues.map append })

def execute (t : Tables) : (s : Statement) → Except DatabaseError s.Reply × Tables
  | .insertItem row =>
    let (changed, items) := insertNew (·.sameKey row) row t.items
    (.ok changed, { t with items })
  | .selectItems queue slice bucket after limit =>
    let rows := t.items.filter fun r => r.isIn queue slice bucket && isAfter after r.key
    (.ok (firstByKey ItemRow.key limit rows), t)
  | .itemsExist queue slice bucket => (.ok (t.items.any (·.isIn queue slice bucket)), t)
  | .insertTombstone queue key =>
    let (changed, tombstones) := insertNew (· == ⟨queue, key⟩) ⟨queue, key⟩ t.tombstones
    (.ok changed, { t with tombstones })
  | .tombstoneExists queue key => (.ok (t.tombstones.any (· == ⟨queue, key⟩)), t)
  | .selectTombstones queue after limit =>
    let rows := t.tombstones.filter fun r => r.queue == queue && isAfter after r.key
    (.ok (firstByKey id limit (rows.map (·.key))), t)
  | .selectStart queue => (.ok ((t.starts.filter (·.queue == queue)).map (·.slice)), t)
  | .insertStart queue slice =>
    let (changed, starts) := insertNew (·.queue == queue) ⟨queue, slice⟩ t.starts
    (.ok changed, { t with starts })
  | .raiseStart queue slice =>
    let meets (r : StartRow) : Bool := r.queue == queue && decide (r.slice < slice)
    let raise (r : StartRow) : StartRow := if meets r then { r with slice } else r
    (.ok (t.starts.countP meets), { t with starts := t.starts.map raise })
  | .createQueue queue => (.ok (), t.createQueue queue)
  | .sendMessage queue payload _ => t.sendMessage queue payload
  | .ping => (.ok (), t)

end Tables

end SpoolIndex
