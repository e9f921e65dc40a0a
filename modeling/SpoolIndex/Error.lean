import SpoolIndex.Key
import SpoolIndex.Partition

/-!
# Errors

What can go wrong, by cause, and the one wording of each. An error is transient when trying again
may help: the storage was unavailable, its connections ran out or the link to it broke.
-/

namespace SpoolIndex

inductive DatabaseError where
  | poolTimedOut
  | poolClosed
  | rowNotFound
  | workerCrashed
  /-- The link to the server broke. -/
  | link (message : String)
  | protocol (message : String)
  | columnNotFound (message : String)
  /-- The settings do not describe a database. -/
  | settings
  | refused (message : String)
deriving DecidableEq

def DatabaseError.message : DatabaseError → String
  | .poolTimedOut => "pool timed out while waiting for an open connection"
  | .poolClosed => "attempted to acquire a connection on a closed pool"
  | .rowNotFound =>
    "no rows returned by a query that expected to return at least one row"
  | .workerCrashed => "attempted to communicate with a crashed background worker"
  | .link message => "error communicating with database: " ++ message
  | .protocol message => "encountered unexpected or invalid data: " ++ message
  | .columnNotFound message => "no column found for name: " ++ message
  | .settings => "error with configuration"
  | .refused message => "error returned from database: " ++ message

inductive Error where
  | config (message : String)
  | storage (cause : DatabaseError)
  | unavailable (message : String)
  /-- One partition could not be scanned. -/
  | partition (partition : Partition) (source : Error)
  /-- An item was not recorded, or not where a browse would find it. -/
  | indexing (queue : QueueName) (key : Key) (reason : String)
  | contentMissing (ref : String)
  | transport (message : String)
  | serialization
  | invalidToken (token : String)
  | file (message : String)
  | other (message : String)
deriving DecidableEq, Inhabited

namespace Error

def message : Error → String
  | .config m => "configuration error: " ++ m
  | .storage cause => "storage error: " ++ cause.message
  | .unavailable m => "storage unavailable: " ++ m
  | .partition p source => "failed to scan partition " ++ p.render ++ ": " ++ source.message
  | .indexing queue key reason =>
    "item " ++ key.render ++ " in queue " ++ queue.text ++ " was not indexed: " ++ reason
  | .contentMissing ref => "content " ++ ref ++ " not found in blob store"
  | .transport m => "transport error: " ++ m
  | .serialization => "serialization error"
  | .invalidToken token => "invalid continuation token: " ++ token
  | .file m => "io error: " ++ m
  | .other m => m

instance : ToString Error := ⟨message⟩

/-- A failed partition is as transient as what it failed of. -/
def isTransient : Error → Bool
  | .unavailable _ => true
  | .storage .poolTimedOut => true
  | .storage (.link _) => true
  | .partition _ source => source.isTransient
  | _ => false

end Error

/-- Reads a key, naming the text that is none. -/
def Key.parse (text : String) : Except Error Key :=
  match Key.ofText? text with
  | some key => .ok key
  | none => .error (.other ("invalid item key '" ++ text ++ "'"))

end SpoolIndex
