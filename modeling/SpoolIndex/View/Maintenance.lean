import SpoolIndex.View.BrowseStart
import SpoolIndex.View.Rows

/-!
# Maintenance of the browse start

Maintenance moves the browse start of a queue past slices without live items, so that browses stop
reading history that is all deleted. It stops at the first slice that has a live item, and in any
case the settle window behind now, where items may still arrive.
-/

namespace SpoolIndex

/-- Whether any of the rows that are left, at most `limit`, is an item without a tombstone. -/
def anyLive (fetch : Option Token → Attempt (Page Item)) : (limit : Nat) → Rows Item → Attempt Bool
  | 0, _ => return false
  | limit + 1, rows => do
    match ← rows.pull fetch with
    | (none, _) => return false
    | (some (.error e), _) => throw e
    | (some (.ok x), rows) =>
      if ← Attempt.call (.hasTombstone x.queue x.key) then anyLive fetch limit rows
      else do
        Operation.event .debug "live item found"
          [("key", .text x.key.render), ("slice", .text (toString x.slice))]
        return true

/-- How far maintenance came. -/
structure Maintenance where
  result : Advance
  source : Slice
  target : Slice
deriving DecidableEq

namespace Maintenance

def unchanged (start : Slice) : Maintenance := ⟨.unchanged, start, start⟩

end Maintenance

namespace View

/-- Whether a partition holds a live item. Its rows are read only if it has any. -/
def partitionIsLive (v : View) (p : Partition) : Attempt Bool := do
  if ← Attempt.call (.hasItems p) then
    anyLive (itemPages p v.pageSize) (Key.count + 1) (Rows.start none)
  else return false

/-- Whether one of the `left` buckets from `bucket` on holds a live item. -/
def sliceIsLive (v : View) (queue : QueueName) (slice : Slice) :
    (left bucket : Nat) → Attempt Bool
  | 0, _ => return false
  | left + 1, bucket => do
    if ← v.partitionIsLive ⟨queue, slice, ⟨UInt32.ofNat bucket⟩⟩ then return true
    else sliceIsLive v queue slice left (bucket + 1)

/-- The first of the `left` slices from `slice` on that holds a live item, or the slice after
them. -/
def firstLiveSlice (v : View) (queue : QueueName) : (left : Nat) → Slice → Attempt Slice
  | 0, slice => return slice
  | left + 1, slice => do
    if ← v.sliceIsLive queue slice v.allocator.bucketCount.toNat 0 then return slice
    else firstLiveSlice v queue left slice.next

/-- The slice that maintenance never passes. -/
def settleLimit (v : View) (now : Instant) : Slice :=
  (v.allocator.sliceOf now).back v.settleSlices

/-- Moves the browse start as far as it may go. -/
def maintain (v : View) (queue : QueueName) : Attempt Maintenance := do
  match ← BrowseStart.current queue with
  | none => return .unchanged Slice.min
  | some start => do
    let limit := v.settleLimit (← Operation.now)
    if limit ≤ start then do
      Operation.event .debug "browse start already at the settle limit"
        [("start", .text (toString start)), ("limit", .text (toString limit))]
      return .unchanged start
    else do
      let target ← v.firstLiveSlice queue (limit.index - start.index).toNat start
      if target ≤ start then return .unchanged start
      else return ⟨← BrowseStart.advanceTo queue target, start, target⟩

def reportMaintenance : Except Error Maintenance → Operation String
  | .ok ⟨.advanced, source, target⟩ => do
    Operation.report (.fill "view.maintenance" "view.from" (toString source))
    Operation.report (.fill "view.maintenance" "view.to" (toString target))
    Operation.inSpan "view.maintenance" (Operation.event .info "browse_start_advanced"
      [("from", .text (toString source)), ("to", .text (toString target))])
    return "advanced"
  | .ok ⟨.unchanged, _, _⟩ => return "unchanged"
  | .error _ => return "error"

def advanceBrowseStart (v : View) (queue : QueueName) : Attempt Advance :=
  ExceptT.mk do
    Operation.report (.span "view.maintenance" [("view.queue", .text queue.text)])
    let result ← (Attempt.inSpan "view.maintenance" (v.maintain queue)).run
    let outcome ← reportMaintenance result
    Operation.count .browseStartUpdates [("queue", queue.text), ("result", outcome)]
    return result.map (·.result)

end View

end SpoolIndex
