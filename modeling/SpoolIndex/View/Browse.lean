import SpoolIndex.View.BrowseStart
import SpoolIndex.View.Rows

/-!
# Browsing

A browse yields the live items of a queue in ascending order of slice, bucket and key, from the
browse start up to the slice of now, and reads only as far as it is pulled. The clock is read
again for every partition that is drawn, so a long browse follows the clock. Within a partition
up to eight tombstone lookups wait, and the first of them is made.

A partition gives nothing after its first error. The failure policy then either ends the browse
with that error or puts it aside and goes on. What is pulled from behind a cut is still read once
before the cut takes effect.
-/

namespace SpoolIndex

/-- Tombstone lookups that may wait in a partition. -/
def lookahead : Nat := 8

inductive Progress (α : Type) where
  | yield (value : α)
  | working
  | ended

structure PartitionScan where
  partition : Partition
  rows : Rows Item
  /-- Rows whose tombstone lookup is due. -/
  waiting : List (Except Error Item)
  /-- Set by the first error. -/
  failed : Bool

namespace PartitionScan

/-- Starts a scan with the first page. -/
def start (v : View) (p : Partition) : Operation PartitionScan := do
  match ← (itemPages p v.pageSize none).run with
  | .ok page => return ⟨p, .ofPage page, [], false⟩
  | .error e => return ⟨p, .finished, [.error e], false⟩

/-- Takes rows from the pages while fewer than `room` more are waiting. -/
def refill (v : View) : (room : Nat) → PartitionScan → Operation PartitionScan
  | 0, s => return s
  | room + 1, s => do
    match ← s.rows.pull (itemPages s.partition v.pageSize) with
    | (none, rows) => return { s with rows := rows }
    | (some row, rows) => refill v room { s with rows := rows, waiting := s.waiting ++ [row] }

/-- Passes on a live item or an error, unless an error came before. -/
def deliver (s : PartitionScan) (result : Except Error Item) :
    Progress (Except Error Item) × PartitionScan :=
  if s.failed then (.ended, s)
  else (.yield result, { s with failed := !result.isOk })

/-- Makes the lookup that is due. -/
def look (s : PartitionScan) : Operation (Progress (Except Error Item) × PartitionScan) := do
  match s.waiting with
  | [] => return (.ended, s)
  | .error e :: waiting =>
    return deliver { s with waiting := waiting } (.error (.partition s.partition e))
  | .ok x :: waiting => do
    let s := { s with waiting := waiting }
    match ← (Attempt.call (.hasTombstone x.queue x.key)).run with
    | .error e => return s.deliver (.error (.partition s.partition e))
    | .ok true => return (.working, s)
    | .ok false => return s.deliver (.ok x)

def step (v : View) (s : PartitionScan) :
    Operation (Progress (Except Error Item) × PartitionScan) := do
  let s ← s.refill v (lookahead - s.waiting.length)
  s.look

end PartitionScan

/-- A partition that was put aside. -/
structure PartitionFailure where
  partition : Partition
  error : Error
deriving DecidableEq

structure Browse where
  queue : QueueName
  /-- The partition to draw next; nothing once a partition beyond now was drawn. -/
  cursor : Option (Slice × UInt32)
  drawn : List Partition
  reading : Option PartitionScan
  /-- Set by an error that ends the browse. -/
  stopped : Bool
  /-- Failures that nobody asked for yet. -/
  failures : List PartitionFailure

namespace Browse

def empty (queue : QueueName) : Browse := ⟨queue, none, [], none, false, []⟩

instance : Inhabited Browse := ⟨empty default⟩

def startingAt (queue : QueueName) (start : Slice) : Browse :=
  { empty queue with cursor := some (start, 0) }

/-- No browse takes more steps than there are slices, buckets and keys to visit. -/
def patience : Nat := UInt64.size * UInt32.size * (Key.count + 2)

/-- The place after a partition; the last slice has none after its last bucket. -/
def following (v : View) (slice : Slice) (bucket : UInt32) : Option (Slice × UInt32) :=
  if bucket.toNat + 1 < v.allocator.bucketCount.toNat then some (slice, bucket + 1)
  else if slice < Slice.max then some (slice.next, 0)
  else none

/-- Draws up to `room` partitions, reading the clock for each. -/
def draw (v : View) (queue : QueueName) : (room : Nat) → Option (Slice × UInt32) →
    List Partition → Operation (List Partition × Option (Slice × UInt32))
  | 0, cursor, drawn => return (drawn.reverse, cursor)
  | _, none, drawn => return (drawn.reverse, none)
  | room + 1, some (slice, bucket), drawn => do
    let now ← Operation.now
    if v.allocator.sliceOf now < slice then return (drawn.reverse, none)
    else draw v queue room (following v slice bucket) (⟨queue, slice, ⟨bucket⟩⟩ :: drawn)

/-- Hands on a result of the partition at hand as the failure policy wants it. -/
def deliver (v : View) (b : Browse) (result : Except Error Item) :
    Operation (Progress (Except Error Item) × Browse) := do
  if b.stopped then return (.ended, b)
  match result, v.failurePolicy with
  | .ok x, _ =>
    Operation.count .itemsBrowsed [("queue", b.queue.text)]
    return (.yield (.ok x), b)
  | .error e, .failFast =>
    Operation.inSpan "view.browse" (Operation.event .warn ("aborting browse: " ++ e.message) [])
    Operation.count .partitionFailures [("policy", "fail_fast")]
    return (.yield (.error e), { b with stopped := true })
  | .error (.partition p source), .skipAndContinue =>
    Operation.inSpan "view.browse" (Operation.event .warn
      ("skipping partition: " ++ source.message) [("partition", .text p.render)])
    Operation.count .partitionFailures [("policy", "skip_and_continue")]
    return (.working, { b with failures := b.failures ++ [⟨p, source⟩] })
  | .error e, .skipAndContinue => return (.yield (.error e), b)

/-- Goes on from a step of the partition at hand. -/
def handOn (v : View) (b : Browse) : Progress (Except Error Item) × PartitionScan →
    Operation (Progress (Except Error Item) × Browse)
  | (.ended, _) => return (.working, { b with reading := none })
  | (.working, s) => return (.working, { b with reading := some s })
  | (.yield result, s) => deliver v { b with reading := some s } result

/-- One step: a lookup in the partition at hand, or the first page of the next one. -/
def step (v : View) (b : Browse) : Operation (Progress (Except Error Item) × Browse) := do
  match b.reading with
  | some s => b.handOn v (← s.step v)
  | none => do
    let (fresh, cursor) ← draw v b.queue (v.fanOut - b.drawn.length) b.cursor []
    match b.drawn ++ fresh with
    | [] => return (.ended, { b with cursor := cursor })
    | p :: drawn => do
      let s ← PartitionScan.start v p
      return (.working, { b with cursor := cursor, drawn := drawn, reading := some s })

/-- Steps until something is yielded or the browse ends. -/
def advance (v : View) : (steps : Nat) → Browse →
    Operation (Option (Except Error Item) × Browse)
  | 0, b => return (none, b)
  | steps + 1, b => do
    match ← b.step v with
    | (.yield result, b) => return (some result, b)
    | (.working, b) => advance v steps b
    | (.ended, b) => return (none, b)

/-- The next item or error; nothing at the end. -/
def pull (v : View) (b : Browse) : Operation (Option (Except Error Item) × Browse) :=
  b.advance v patience

def takeFailures (b : Browse) : List PartitionFailure × Browse :=
  (b.failures, { b with failures := [] })

/-- Pulls up to `limit` results, and tells whether the end was reached. -/
def pullMany (v : View) : (limit : Nat) → Browse → List (Except Error Item) →
    Operation ((List (Except Error Item) × Bool) × Browse)
  | 0, b, found => return ((found.reverse, false), b)
  | limit + 1, b, found => do
    match ← b.pull v with
    | (none, b) => return ((found.reverse, true), b)
    | (some result, b) => pullMany v limit b (result :: found)

def drain (v : View) (b : Browse) : Operation (List (Except Error Item) × Browse) := do
  let ((results, _), b) ← b.pullMany v patience []
  return (results, b)

end Browse

/-- Starts a browse. Only the browse start is read for it. -/
def Browse.ofQueue (queue : QueueName) : Attempt Browse := do
  Operation.report (.span "view.browse" [("view.queue", .text queue.text)])
  match ← BrowseStart.current queue with
  | none => do
    Attempt.inSpan "view.browse"
      (Operation.event .debug "queue never written to, nothing to browse" [])
    return .empty queue
  | some start => do
    Operation.report (.fill "view.browse" "view.start" (toString start))
    return .startingAt queue start

namespace View

/-- Counts the results of a browse up to its first error. -/
def countItems (v : View) : (limit : Nat) → Nat → Browse → Attempt Nat
  | 0, n, _ => return n
  | limit + 1, n, b => do
    match ← b.pull v with
    | (none, _) => return n
    | (some (.error e), _) => throw e
    | (some (.ok _), b) => countItems v limit (n + 1) b

def size (v : View) (queue : QueueName) : Attempt Nat := do
  v.countItems Browse.patience 0 (← Browse.ofQueue queue)

end View

/-- An item with the content its references name; the header is looked up first. -/
def fetchContent (x : Item) : Attempt DetailedItem := do
  let header ← Attempt.fetch x.headerRef
  let body ← Attempt.fetch x.bodyRef
  return ⟨x, header, body⟩

namespace Browse

/-- As `pull`, with the content of each item; missing content is an error in its place. -/
def pullDetailed (v : View) (b : Browse) :
    Operation (Option (Except Error DetailedItem) × Browse) := do
  match ← b.pull v with
  | (none, b) => return (none, b)
  | (some (.error e), b) => return (some (.error e), b)
  | (some (.ok x), b) => return (some (← (fetchContent x).run), b)

/-- As `pullMany`, with the content of each item. -/
def pullManyDetailed (v : View) : (limit : Nat) → Browse → List (Except Error DetailedItem) →
    Operation ((List (Except Error DetailedItem) × Bool) × Browse)
  | 0, b, found => return ((found.reverse, false), b)
  | limit + 1, b, found => do
    match ← b.pullDetailed v with
    | (none, b) => return ((found.reverse, true), b)
    | (some result, b) => pullManyDetailed v limit b (result :: found)

/-- A browse of up to `limit` results: what it yielded, whether it came to an end and what it put
aside. -/
def list (v : View) (queue : QueueName) (limit : Nat) :
    Attempt ((List (Except Error Item) × Bool) × List PartitionFailure) := do
  let (found, b) ← (← ofQueue queue).pullMany v limit []
  return (found, b.takeFailures.1)

/-- A browse to its end. -/
def drained (v : View) (queue : QueueName) :
    Attempt ((List (Except Error Item) × Bool) × List PartitionFailure) := list v queue patience

/-- As `list`, with the content of each item. -/
def listDetailed (v : View) (queue : QueueName) (limit : Nat) :
    Attempt ((List (Except Error DetailedItem) × Bool) × List PartitionFailure) := do
  let (found, b) ← (← ofQueue queue).pullManyDetailed v limit []
  return (found, b.takeFailures.1)

end Browse

end SpoolIndex
