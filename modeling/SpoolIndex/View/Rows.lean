import SpoolIndex.View.Basic

/-!
# Rows of a scan

A scan gives its rows one by one and fetches a page only when it needs it. A failed fetch is its
last element. Keys ascend within a scan, so it has no more rows than there are keys.
-/

namespace SpoolIndex

/-- The number of keys there are. -/
def Key.count : Nat := 1 <<< 128

structure Rows (α : Type) where
  /-- Rows of the page at hand. -/
  ready : List α
  /-- Where the next page starts; nothing when there is none. -/
  next : Option (Option Token)

namespace Rows

def start (after : Option Token) : Rows α := ⟨[], some after⟩

def finished : Rows α := ⟨[], none⟩

/-- What is left of a scan after its first page was fetched. -/
def ofPage (page : Page α) : Rows α := ⟨page.rows, page.next.map some⟩

variable (fetch : Option Token → Attempt (Page α))

/-- The next row, if any, and the scan after it. -/
def pull : Rows α → Operation (Option (Except Error α) × Rows α)
  | ⟨row :: ready, next⟩ => return (some (.ok row), ⟨ready, next⟩)
  | ⟨[], none⟩ => return (none, finished)
  | ⟨[], some after⟩ => do
    match ← (fetch after).run with
    | .error e => return (some (.error e), finished)
    | .ok page =>
      match page.rows with
      | [] => return (none, finished)
      | row :: ready => return (some (.ok row), ⟨ready, page.next.map some⟩)

/-- All rows that are left, at most `limit` of them. -/
def collect : (limit : Nat) → Rows α → List (Except Error α) →
    Operation (List (Except Error α))
  | 0, _, found => return found.reverse
  | limit + 1, rows, found => do
    match ← rows.pull fetch with
    | (none, _) => return found.reverse
    | (some row, rows) => collect limit rows (row :: found)

def drain (rows : Rows α) : Operation (List (Except Error α)) :=
  rows.collect fetch (Key.count + 1) []

end Rows

def itemPages (p : Partition) (pageSize : Nat) (after : Option Token) : Attempt (Page Item) :=
  .call (.scanItems p after pageSize)

def tombstonePages (queue : QueueName) (pageSize : Nat) (after : Option Token) :
    Attempt (Page Key) :=
  .call (.scanTombstones queue after pageSize)

def scanItems (p : Partition) (pageSize : Nat) (after : Option Token) :
    Operation (List (Except Error Item)) :=
  (Rows.start after).drain (itemPages p pageSize)

def scanTombstones (queue : QueueName) (pageSize : Nat) : Operation (List (Except Error Key)) :=
  (Rows.start none).drain (tombstonePages queue pageSize)

end SpoolIndex
