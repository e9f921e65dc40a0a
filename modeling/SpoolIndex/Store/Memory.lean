import SpoolIndex.Store.Call

/-!
# The store in memory

Three maps: the items of each partition and the tombstones of each queue, both sorted by key, and
the browse start of each queue. The first item stored under a key stays.
-/

namespace SpoolIndex

/-- Puts `x` at its place among values sorted by key, unless its key is taken. -/
def insertByKey (keyOf : α → Key) (x : α) : List α → List α
  | [] => [x]
  | y :: ys =>
    if keyOf x < keyOf y then x :: y :: ys
    else if keyOf x = keyOf y then y :: ys
    else y :: insertByKey keyOf x ys

/-- The values whose key is greater than the bound. -/
def afterBound (keyOf : α → Key) (bound : Option Key) (xs : List α) : List α :=
  match bound with
  | none => xs
  | some key => xs.filter fun x => key < keyOf x

/-- At most `limit` values after the bound, as a page. -/
def pageAfter (keyOf : α → Key) (bound : Option Key) (limit : Nat) (xs : List α) : Page α :=
  .ofRows ((afterBound keyOf bound xs).take limit) limit keyOf

/-- A map with one value replaced. -/
def withValue [DecidableEq κ] (map : κ → α) (key : κ) (value : α) : κ → α :=
  fun other => if other = key then value else map other

structure Store where
  items : Partition → List Item
  tombstones : QueueName → List Key
  start : QueueName → Option Slice

namespace Store

def empty : Store := ⟨fun _ => [], fun _ => [], fun _ => none⟩

instance : Inhabited Store := ⟨empty⟩

def append (s : Store) (x : Item) : Store :=
  let rows := insertByKey Item.key x (s.items x.partition)
  { s with items := withValue s.items x.partition rows }

def bury (s : Store) (queue : QueueName) (key : Key) : Store :=
  let keys := insertByKey id key (s.tombstones queue)
  { s with tombstones := withValue s.tombstones queue keys }

/-- Whether a conditional write of the browse start takes effect. -/
def swapApplies (s : Store) (queue : QueueName) (condition : SwapCondition) (slice : Slice) :
    Bool :=
  match condition, s.start queue with
  | .absent, none => true
  | .below, some current => current < slice
  | _, _ => false

def setStart (s : Store) (queue : QueueName) (slice : Slice) : Store :=
  { s with start := withValue s.start queue (some slice) }

def perform (s : Store) : (call : StoreCall) → Except Error call.Reply × Store
  | .appendItem x => (.ok (), s.append x)
  | .scanItems p after limit =>
    ((Token.bound after).map fun bound => pageAfter Item.key bound limit (s.items p), s)
  | .hasItems p => (.ok (!(s.items p).isEmpty), s)
  | .putTombstone queue key => (.ok (), s.bury queue key)
  | .hasTombstone queue key => (.ok ((s.tombstones queue).contains key), s)
  | .scanTombstones queue after limit =>
    ((Token.bound after).map fun bound => pageAfter id bound limit (s.tombstones queue), s)
  | .readStart queue => (.ok (s.start queue), s)
  | .swapStart queue condition slice =>
    if s.swapApplies queue condition slice then (.ok true, s.setStart queue slice)
    else (.ok false, s)

end Store

end SpoolIndex
