import SpoolIndex.View.Basic

/-!
# The browse start

Each queue has a low-water mark: the slice that browses start from. It is only ever written
conditionally, first when the queue is opened and then upwards, so that of racing writers the
largest wins.
-/

namespace SpoolIndex

inductive Advance where
  | advanced
  | unchanged
deriving DecidableEq, Inhabited

namespace BrowseStart

def current (queue : QueueName) : Attempt (Option Slice) := .call (.readStart queue)

/-- The browse start, or the first slice of all for a queue that was never opened. -/
def get (queue : QueueName) : Attempt Slice := do
  return (← current queue).getD Slice.min

/-- Opens a queue at a slice, or gives the start of a queue that is open. -/
def establish (queue : QueueName) (slice : Slice) : Attempt Slice := do
  if ← Attempt.call (.swapStart queue .absent slice) then return slice
  else get queue

def advanceTo (queue : QueueName) (slice : Slice) : Attempt Advance := do
  if ← Attempt.call (.swapStart queue .below slice) then return .advanced
  else return .unchanged

end BrowseStart

namespace View

/-- Opens a queue the settle window behind now. -/
def openQueue (v : View) (queue : QueueName) : Attempt Slice := do
  let now ← Operation.now
  let start ← BrowseStart.establish queue ((v.allocator.sliceOf now).back v.settleSlices)
  Operation.event .info "queue opened"
    [("queue", .text queue.text), ("start", .text (toString start))]
  return start

end View

end SpoolIndex
