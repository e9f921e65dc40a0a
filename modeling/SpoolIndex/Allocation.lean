import SpoolIndex.Key
import SpoolIndex.Partition
import SpoolIndex.Text.Crc32

/-!
# Placing items

The slice of an item is its time divided by the slice window, rounded down; its bucket is a
checksum of queue and key. Both are part of the stored layout, so they depend on nothing else.
-/

namespace SpoolIndex

/-- A length of time: whole seconds and nanoseconds of another. -/
structure Duration where
  seconds : UInt64
  nanos : Nat
  nanos_lt : nanos < 1000000000

namespace Duration

/-- Whole milliseconds, rounded down. -/
def millis (d : Duration) : Nat := d.seconds.toNat * 1000 + d.nanos / 1000000

/-- The milliseconds of a slice when slices are to be this long: at least one, and no more than
64 bits hold. -/
def width (d : Duration) : Nat := max 1 (min d.millis 9223372036854775807)

end Duration

structure Allocator where
  bucketCount : UInt32
  /-- Width of a slice in milliseconds. -/
  window : Nat
  bucketCount_pos : 0 < bucketCount
  window_pos : 0 < window
  window_le : window ≤ 9223372036854775807

namespace Allocator

/-- At least one bucket; the window is cut to whole milliseconds between 1 and 2^63 - 1. -/
def new (bucketCount : UInt32) (windowMillis : Nat) : Allocator where
  bucketCount := if bucketCount = 0 then 1 else bucketCount
  window := max 1 (min windowMillis 9223372036854775807)
  bucketCount_pos := by
    split
    · decide
    · rename_i h
      exact UInt32.pos_iff_ne_zero.mpr h
  window_pos := by omega
  window_le := by omega

instance : Inhabited Allocator := ⟨new 1 1⟩

def sliceOf (a : Allocator) (t : Instant) : Slice := .clamp (t.millis / a.window)

def bucketOf (a : Allocator) (queue : QueueName) (key : Key) : Bucket :=
  ⟨Crc32.checksum (queue.text.toUTF8.toList ++ key.bytes) % a.bucketCount⟩

def allocate (a : Allocator) (queue : QueueName) (key : Key) (t : Instant) : Slice × Bucket :=
  (a.sliceOf t, a.bucketOf queue key)

/-- The first instant of a slice. A start that is no date counts as the first date. -/
def sliceStart (a : Allocator) (s : Slice) : Instant :=
  (Instant.ofMillis? (Slice.clamp (s.index * a.window)).index).getD Instant.earliest

/-- The first `limit` partitions of one slice, in ascending bucket order. -/
def partitions (a : Allocator) (queue : QueueName) (s : Slice) (limit : Nat) : List Partition :=
  (List.range (min limit a.bucketCount.toNat)).map fun i => ⟨queue, s, ⟨UInt32.ofNat i⟩⟩

end Allocator

end SpoolIndex
