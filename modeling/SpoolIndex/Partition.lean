import SpoolIndex.Time.Instant

/-!
# Queues, slices, buckets and partitions

The index of a queue is cut into time slices, which are browsed in ascending order, and each
slice into buckets, which spread its writes. Slices are 64-bit numbers and buckets 32-bit ones;
slice arithmetic stops at the ends of that range.
-/

namespace SpoolIndex

structure QueueName where
  text : String
deriving DecidableEq, Inhabited

instance : ToString QueueName := ⟨QueueName.text⟩

namespace Slice

def lowest : Int := -9223372036854775808

def highest : Int := 9223372036854775807

end Slice

structure Slice where
  index : Int
  lowest_le : Slice.lowest ≤ index
  le_highest : index ≤ Slice.highest
deriving DecidableEq

namespace Slice

/-- The slice nearest to a number. -/
def clamp (n : Int) : Slice :=
  if h : n < lowest then ⟨lowest, by decide, by decide⟩
  else if h' : highest < n then ⟨highest, by decide, by decide⟩
  else ⟨n, by omega, by omega⟩

def ofInt? (n : Int) : Option Slice :=
  if h : lowest ≤ n ∧ n ≤ highest then some ⟨n, h.1, h.2⟩ else none

def min : Slice := clamp lowest

def max : Slice := clamp highest

instance : Inhabited Slice := ⟨clamp 0⟩

instance : LE Slice := ⟨fun a b => a.index ≤ b.index⟩

instance : LT Slice := ⟨fun a b => a.index < b.index⟩

instance (a b : Slice) : Decidable (a ≤ b) := inferInstanceAs (Decidable (a.index ≤ b.index))

instance (a b : Slice) : Decidable (a < b) := inferInstanceAs (Decidable (a.index < b.index))

/-- The following slice; the last one follows itself. -/
def next (s : Slice) : Slice := clamp (s.index + 1)

/-- The slice `n` before, or the first. -/
def back (s : Slice) (n : UInt32) : Slice := clamp (s.index - n.toNat)

instance : ToString Slice := ⟨fun s => toString s.index⟩

end Slice

structure Bucket where
  id : UInt32
deriving DecidableEq, Inhabited

instance : ToString Bucket := ⟨fun b => toString b.id.toNat⟩

structure Partition where
  queue : QueueName
  slice : Slice
  bucket : Bucket
deriving DecidableEq, Inhabited

namespace Partition

/-- `queue/slice/bucket`. -/
def render (p : Partition) : String :=
  p.queue.text ++ "/" ++ toString p.slice ++ "/" ++ toString p.bucket

instance : ToString Partition := ⟨render⟩

/-- Queues by name, then slices, then buckets. -/
def precedes (a b : Partition) : Bool :=
  if a.queue ≠ b.queue then a.queue.text < b.queue.text
  else if a.slice ≠ b.slice then a.slice < b.slice
  else a.bucket.id < b.bucket.id

end Partition

end SpoolIndex
