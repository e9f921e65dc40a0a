import SpoolIndex.Error
import SpoolIndex.Item

/-!
# Tables

The rows that items, tombstones and browse starts become in a database. Moments are kept to the
microsecond: what is finer is cut off toward the start of the year 2000.
-/

namespace SpoolIndex

namespace Instant

/-- 2000-01-01T00:00:00Z in microseconds since 1970. -/
def micros2000 : Int := 946684800000000

/-- Microseconds since 1970 as they are stored. -/
def micros (t : Instant) : Int := (t.nanos - micros2000 * 1000).tdiv 1000 + micros2000

/-- The moment of a stored number; one after the last date counts as the last. -/
def ofMicros (micros : Int) : Instant := (ofNanos? (micros * 1000)).getD latest

end Instant

structure ItemRow where
  queue : QueueName
  slice : Slice
  /-- A column of 64 bits, wide enough for numbers that are no bucket. -/
  bucket : Int
  key : Key
  enqueuedMicros : Int
  name : String
  sender : Option String
  recipients : List String
  headerRef : ContentRef
  bodyRef : ContentRef
  attributes : List (String × Json)

namespace ItemRow

def ofItem (x : Item) : ItemRow where
  queue := x.queue
  slice := x.slice
  bucket := x.bucket.id.toNat
  key := x.key
  enqueuedMicros := x.enqueuedAt.micros
  name := x.name
  sender := x.sender
  recipients := x.recipients
  headerRef := x.headerRef
  bodyRef := x.bodyRef
  attributes := x.attributes

def toItem (r : ItemRow) : Except Error Item :=
  if 0 ≤ r.bucket ∧ r.bucket < 4294967296 then
    .ok {
      queue := r.queue
      slice := r.slice
      bucket := ⟨UInt32.ofNat r.bucket.toNat⟩
      key := r.key
      enqueuedAt := .ofMicros r.enqueuedMicros
      name := r.name
      sender := r.sender
      recipients := r.recipients
      headerRef := r.headerRef
      bodyRef := r.bodyRef
      attributes := r.attributes }
  else .error (.other ("bucket " ++ toString r.bucket ++ " out of range"))

def sameKey (a b : ItemRow) : Bool :=
  a.queue == b.queue && a.slice == b.slice && a.bucket == b.bucket && a.key == b.key

def isIn (queue : QueueName) (slice : Slice) (bucket : Int) (r : ItemRow) : Bool :=
  r.queue == queue && r.slice == slice && r.bucket == bucket

end ItemRow

structure TombstoneRow where
  queue : QueueName
  key : Key
deriving DecidableEq

/-- A row of the browse start table. The queue is its primary key. -/
structure StartRow where
  queue : QueueName
  slice : Slice
deriving DecidableEq

structure MessageQueue where
  name : QueueName
  messages : List Json

structure Tables where
  items : List ItemRow
  tombstones : List TombstoneRow
  starts : List StartRow
  queues : List MessageQueue

namespace Tables

def empty : Tables := ⟨[], [], [], []⟩

instance : Inhabited Tables := ⟨empty⟩

end Tables

end SpoolIndex
