import SpoolIndex.Allocation
import SpoolIndex.Config
import SpoolIndex.Operation

/-!
# The view of a queue

A view places items and reads and maintains them with the settings of one process. Sizes that
must not be zero count as one, so that a view also works from settings that were not validated.
-/

namespace SpoolIndex

structure View where
  allocator : Allocator
  /-- Rows asked for in one call. -/
  pageSize : Nat
  /-- Partitions drawn ahead of the one being read. -/
  fanOut : Nat
  failurePolicy : FailurePolicy
  advancePolicy : AdvancePolicy
  settleSlices : UInt32

namespace View

def ofConfig (c : Config) : View where
  allocator := .new c.bucketCount c.windowMillis
  pageSize := max 1 c.pageSize.toNat
  fanOut := max 1 c.fanOut.toNat
  failurePolicy := c.failurePolicy
  advancePolicy := c.advancePolicy
  settleSlices := c.settleSlices

instance : Inhabited View := ⟨ofConfig .default⟩

/-- The view of settings that are valid. -/
def create (c : Config) : Except Error View :=
  c.validate.map fun _ => ofConfig c

end View

end SpoolIndex
