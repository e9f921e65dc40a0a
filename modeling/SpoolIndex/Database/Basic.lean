import SpoolIndex.Database.Statement
import SpoolIndex.Fault

/-!
# A database

The tables behind a script of faults, with a log of the statements that were executed. Before the
migration there are no tables, and a statement on one is refused before it is executed.
-/

namespace SpoolIndex

inductive DatabaseFault where
  | refuse (message : String)
  /-- The server closes the connection without an answer, which is reported so. -/
  | hangUp (report : String)
  /-- The rows found come back with this bucket. -/
  | replaceBucket (bucket : Int)
  /-- The migration counts as applied in another version. -/
  | alterMigration

inductive Migration where
  | missing
  | applied
  /-- Applied, but recorded with a different text. -/
  | altered
deriving DecidableEq

inductive LogEntry where
  | migration
  | statement (s : Statement)

structure Database where
  tables : Tables
  migration : Migration
  faults : List (Fault DatabaseFault)
  /-- What was executed, the latest first. -/
  log : List LogEntry

namespace Statement

def faultName : Statement → String
  | insertItem _ => "append_item"
  | selectItems .. => "scan_items"
  | itemsExist .. => "has_items"
  | insertTombstone .. => "put_tombstone"
  | tombstoneExists .. => "has_tombstone"
  | selectTombstones .. => "scan_tombstones"
  | selectStart _ => "read_browse_start"
  | insertStart .. => "cas_absent"
  | raiseStart .. => "cas_below"
  | createQueue _ => "pgmq.create"
  | sendMessage .. => "pgmq.send"
  | ping => "health"

def queue? : Statement → Option QueueName
  | insertItem r => some r.queue
  | selectItems q .. | itemsExist q .. | insertTombstone q _ | tombstoneExists q _
  | selectTombstones q .. | selectStart q | insertStart q _ | raiseStart q _ | createQueue q
  | sendMessage q .. => some q
  | ping => none

def partition? : Statement → Option Partition
  | insertItem r => some ⟨r.queue, r.slice, ⟨UInt32.ofNat r.bucket.toNat⟩⟩
  | selectItems q s b .. | itemsExist q s b => some ⟨q, s, ⟨UInt32.ofNat b.toNat⟩⟩
  | _ => none

def key? : Statement → Option Key
  | insertItem r => some r.key
  | insertTombstone _ k | tombstoneExists _ k => some k
  | _ => none

def faultTarget (s : Statement) : FaultTarget := ⟨s.faultName, s.queue?, s.partition?, s.key?⟩

def withBucket (bucket : Int) : (s : Statement) → s.Reply → s.Reply
  | selectItems .., rows => rows.map fun r => { r with bucket }
  | insertItem _, n | insertTombstone .., n | insertStart .., n | raiseStart .., n
  | sendMessage .., n => n
  | selectTombstones .., keys => keys
  | selectStart _, slices => slices
  | itemsExist .., found | tombstoneExists .., found => found
  | createQueue _, u | ping, u => u

end Statement

def DatabaseFault.error? : DatabaseFault → Option DatabaseError
  | .refuse message => some (.refused message)
  | .hangUp report => some (.link report)
  | .replaceBucket _ | .alterMigration => none

namespace Database

def new (faults : List (Fault DatabaseFault)) : Database := ⟨.empty, .missing, faults, []⟩

instance : Inhabited Database := ⟨new []⟩

def execute (d : Database) (s : Statement) : Except DatabaseError s.Reply × Database :=
  match d.migration, s.table? with
  | .missing, some table =>
    (.error (.refused ("relation \"" ++ table ++ "\" does not exist")), d)
  | _, _ =>
    let (struck, faults) := Fault.strike s.faultTarget d.faults
    let d := { d with faults, log := .statement s :: d.log }
    match struck.bind DatabaseFault.error? with
    | some e => (.error e, d)
    | none =>
      let (reply, tables) := d.tables.execute s
      let reply := match struck with
        | some (.replaceBucket bucket) => reply.map (s.withBucket bucket)
        | _ => reply
      (reply, { d with tables })

def strike (d : Database) (name : String) : Option DatabaseFault × Database :=
  let (struck, faults) := Fault.strike ⟨name, none, none, none⟩ d.faults
  (struck, { d with faults })

def migrationFailed (reason : String) : Error := .other ("migration failed: " ++ reason)

/-- Creates the tables, unless that was done before. A migration recorded with a different text
is an error. -/
def migrate (d : Database) : Except Error Unit × Database :=
  let (struck, d) := d.strike "applied"
  match struck.bind DatabaseFault.error? with
  | some e => (.error (migrationFailed ("while executing migrations: " ++ e.message)), d)
  | none =>
    let d := match struck with
      | some .alterMigration => { d with migration := .altered }
      | _ => d
    match d.migration with
    | .altered =>
      (.error (migrationFailed "migration 1 was previously applied but has been modified"), d)
    | .applied => (.ok (), d)
    | .missing =>
      let (struck, d) := d.strike "migrate"
      let d := { d with log := .migration :: d.log }
      match struck.bind DatabaseFault.error? with
      | some e =>
        (.error (migrationFailed ("while executing migration 1: " ++ e.message)), d)
      | none => (.ok (), { d with migration := .applied })

end Database

end SpoolIndex
