import SpoolIndex.Text.Quoted
import SpoolIndex.View.Browse
import SpoolIndex.View.Maintenance

/-!
# Deletion

Deleting an item writes a tombstone and leaves the item where it is. The advance policy says which
deletes run maintenance afterwards; a delete has succeeded once its tombstone is written, whatever
becomes of the maintenance.
-/

namespace SpoolIndex

def ItemFilter.describe : ItemFilter → String
  | .name value => "Name(" ++ Text.quoted value ++ ")"
  | .sender value => "Sender(" ++ Text.quoted value ++ ")"
  | .recipient value => "Recipient(" ++ Text.quoted value ++ ")"

namespace View

def maintenanceIsDue (v : View) : Operation Bool := do
  match v.advancePolicy with
  | .manual => return false
  | .eager => return true
  | .everyNth n => do
    let deletes : Nat ← Operation.perform .countDelete
    return deletes % max 1 n.toNat == 0

/-- Writes a tombstone. A delete has succeeded once it is written. -/
def bury (queue : QueueName) (key : Key) (slice : Slice) : Attempt Unit := do
  Operation.report (.span "view.delete" [("view.queue", .text queue.text),
    ("view.key", .text key.render), ("view.slice", .text (toString slice))])
  Attempt.inSpan "view.delete" (Attempt.call (.putTombstone queue key))
  Operation.count .itemsDeleted [("queue", queue.text)]

/-- Runs maintenance if it is due after a delete, and tells of its error. -/
def followUp (v : View) (queue : QueueName) : Attempt Unit := do
  if ← v.maintenanceIsDue then
    match ← (Attempt.inSpan "view.delete" (v.advanceBrowseStart queue)).outcome with
    | .ok _ => return ()
    | .error e =>
      Attempt.inSpan "view.delete"
        (Operation.event .warn ("browse start maintenance failed: " ++ e.message) [])
  else return ()

def delete (v : View) (queue : QueueName) (key : Key) (slice : Slice) : Attempt Unit := do
  bury queue key slice
  v.followUp queue

def deleteItem (v : View) (x : Item) : Attempt Unit := v.delete x.queue x.key x.slice

/-- Deletes what a browse yields and the filter accepts; gives the number of deletes. -/
def deleteAccepted (v : View) (filter : ItemFilter) : (limit : Nat) → Nat → Browse → Attempt Nat
  | 0, n, _ => return n
  | limit + 1, n, b => do
    match ← b.pull v with
    | (none, _) => return n
    | (some (.error e), _) => throw e
    | (some (.ok x), b) =>
      if filter.accepts x then do
        v.deleteItem x
        deleteAccepted v filter limit (n + 1) b
      else deleteAccepted v filter limit n b

def deleteMatching (v : View) (queue : QueueName) (filter : ItemFilter) : Attempt Nat := do
  let deleted ← v.deleteAccepted filter Browse.patience 0 (← Browse.ofQueue queue)
  Operation.event .info "deleted matching items" [("queue", .text queue.text),
    ("filter", .text filter.describe), ("deleted", .number deleted)]
  return deleted

end View

def isDeleted (queue : QueueName) (key : Key) : Attempt Bool := .call (.hasTombstone queue key)

end SpoolIndex
