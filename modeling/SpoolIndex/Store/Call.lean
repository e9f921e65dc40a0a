import SpoolIndex.Error
import SpoolIndex.Item

/-!
# Calls to a store

What the view asks of a store: ordered, pageable scans of a partition and of the tombstones of a
queue, point reads and writes, and one conditional write for the browse start. Every write may be
repeated, so a caller may try again after a failure.
-/

namespace SpoolIndex

/-- Where a scan goes on, as opaque text: the last key it has seen. -/
structure Token where
  text : String
deriving DecidableEq, Inhabited

namespace Token

def after (key : Key) : Token := ⟨key.render⟩

def lastKey (t : Token) : Except Error Key :=
  match Key.ofText? t.text with
  | some key => .ok key
  | none => .error (.invalidToken t.text)

/-- The key a scan starts after; without a token it starts at the front. -/
def bound : Option Token → Except Error (Option Key)
  | none => .ok none
  | some t => t.lastKey.map some

end Token

structure Page (α : Type) where
  rows : List α
  next : Option Token

namespace Page

def empty : Page α := ⟨[], none⟩

/-- A page as full as it may be has a successor, which may turn out empty. -/
def ofRows (rows : List α) (limit : Nat) (keyOf : α → Key) : Page α where
  rows := rows
  next := if limit ≤ rows.length then rows.getLast?.map fun x => Token.after (keyOf x) else none

end Page

/-- When a new browse start is written. -/
inductive SwapCondition where
  /-- The queue has none yet. -/
  | absent
  /-- The queue has a smaller one. -/
  | below
deriving DecidableEq

inductive StoreCall where
  | appendItem (item : Item)
  | scanItems (partition : Partition) (after : Option Token) (limit : Nat)
  | hasItems (partition : Partition)
  | putTombstone (queue : QueueName) (key : Key)
  | hasTombstone (queue : QueueName) (key : Key)
  | scanTombstones (queue : QueueName) (after : Option Token) (limit : Nat)
  | readStart (queue : QueueName)
  | swapStart (queue : QueueName) (condition : SwapCondition) (slice : Slice)

namespace StoreCall

@[reducible]
def Reply : StoreCall → Type
  | appendItem _ | putTombstone .. => Unit
  | scanItems .. => Page Item
  | scanTombstones .. => Page Key
  | hasItems _ | hasTombstone .. | swapStart .. => Bool
  | readStart _ => Option Slice

def name : StoreCall → String
  | appendItem _ => "append_item"
  | scanItems .. => "scan_items"
  | hasItems _ => "has_items"
  | putTombstone .. => "put_tombstone"
  | hasTombstone .. => "has_tombstone"
  | scanTombstones .. => "scan_tombstones"
  | readStart _ => "read_browse_start"
  | swapStart .. => "compare_and_swap_browse_start"

def queue : StoreCall → QueueName
  | appendItem x => x.queue
  | scanItems p _ _ | hasItems p => p.queue
  | putTombstone q _ | hasTombstone q _ | scanTombstones q _ _ | readStart q | swapStart q _ _ => q

def partition? : StoreCall → Option Partition
  | appendItem x => some x.partition
  | scanItems p _ _ | hasItems p => some p
  | _ => none

def key? : StoreCall → Option Key
  | appendItem x => some x.key
  | putTombstone _ k | hasTombstone _ k => some k
  | _ => none

end StoreCall

end SpoolIndex
