import SpoolIndex.Database.Store
import SpoolIndex.Journal
import SpoolIndex.Json.Record
import SpoolIndex.Key.Generator
import SpoolIndex.Store.Retry
import SpoolIndex.Store.Scripted
import SpoolIndex.View.Basic

/-!
# Simulated installations

An installation is all that operations act on: a store or a database, clocks that only move when
they are told to, a transport, content, made keys, counters of deletes and a journal. Several
views share one installation; each works from a seat, which says what is its own.
-/

namespace SpoolIndex

inductive Backing where
  | memory (store : ScriptedStore)
  | database (db : Database)

instance : Inhabited Backing := ⟨.memory default⟩

/-- The part of an installation that belongs to one user of it. -/
structure Seat where
  clock : Nat
  /-- Which counter of deletes is used. -/
  counter : Nat
  retry : Option RetryConfig
  /-- Seconds that messages stay hidden, where the transport can do that. -/
  delay : Int
deriving Inhabited

structure Installation where
  backing : Backing
  clocks : List Instant
  generator : KeyGenerator
  /-- Keys made so far, the latest first. -/
  minted : List Key
  /-- Deletes counted so far, by counter. -/
  deletes : Nat → Nat
  refuses : Bool
  /-- Messages the transport in memory accepted, the latest first. -/
  sent : List Message
  content : List (ContentRef × List UInt8)
  stored : Nat
  journal : Journal

namespace Installation

def new (backing : Backing) (clocks : List Instant) : Installation where
  backing := backing
  clocks := clocks
  generator := .new
  minted := []
  deletes := fun _ => 0
  refuses := false
  sent := []
  content := []
  stored := 0
  journal := .empty

instance : Inhabited Installation := ⟨new default []⟩

/-- The installation as a new process finds it, which counts its deletes from zero. -/
def restarted (w : Installation) : Installation := { w with deletes := fun _ => 0 }

/-- The installation with nothing on record; the counts stay. -/
def withoutRecords (w : Installation) : Installation :=
  let w := { w with journal := { w.journal with entries := [], spans := [] } }
  match w.backing with
  | .memory s => { w with backing := .memory { s with calls := [] } }
  | .database db => { w with backing := .database { db with log := [] } }

/-- The installation with an empty script of faults. -/
def withoutFaults (w : Installation) : Installation :=
  match w.backing with
  | .memory s => { w with backing := .memory { s with faults := [] } }
  | .database db => { w with backing := .database { db with faults := [] } }

def isInMemory (w : Installation) : Bool :=
  match w.backing with
  | .memory _ => true
  | .database _ => false

def onDatabase (w : Installation) (f : Database → Except Error Unit × Database) :
    Except Error Unit × Installation :=
  match w.backing with
  | .memory _ => (.ok (), w)
  | .database db =>
    let (result, db) := f db
    (result, { w with backing := .database db })

def now (w : Installation) (clock : Nat) : Instant := w.clocks.getD clock Instant.epoch

def setClock (w : Installation) (clock : Nat) (t : Instant) : Installation :=
  { w with clocks := w.clocks.set clock t }

/-- Moves a clock; `none` if there is no such date. -/
def moveClock? (w : Installation) (clock : Nat) (millis : Int) : Option Installation :=
  ((w.now clock).after? millis).map (w.setClock clock)

/-- The bits of the n-th key that stand for chance: spread out, and different for every n. -/
def entropy (n : Nat) : KeyGenerator.Entropy where
  counterStart := (n + 1) * 1265538517889
  tail := ((n + 1) * 11400714819323198485) <<< 10 + n

def mint (w : Installation) (moment : Instant) : Key × Installation :=
  let (key, generator) := w.generator.keyAt moment (entropy w.minted.length)
  (key, { w with generator, minted := key :: w.minted })

/-- What a fault of the store does outside of it. -/
def suffer (w : Installation) : Option StoreFault → Installation
  | some (.moveClock millis) => (w.moveClock? 0 millis).getD w
  | _ => w

def call (w : Installation) (c : StoreCall) : Except Error c.Reply × Installation :=
  match w.backing with
  | .memory s =>
    let ((reply, struck), s) := s.perform c
    (reply, suffer { w with backing := .memory s } struck)
  | .database db =>
    let (reply, db) := db.perform c
    (reply, { w with backing := .database db })

def report (w : Installation) (r : Report) : Installation :=
  { w with journal := w.journal.add r }

def countTransport (w : Installation) (queue : QueueName) (operation : String) :
    Except Error α → Installation
  | .ok _ => w.report
      (.count .transportOperations [("queue", queue.text), ("operation", operation)])
  | .error _ => w

def sendToQueue (w : Installation) (db : Database) (queue : QueueName) (payload : Json)
    (delay : Int) : Except Error Nat × Installation :=
  let (reply, db) := db.sendMessage queue payload delay
  (reply, countTransport { w with backing := .database db } queue "send" reply)

/-- Creates a queue of the transport. The one in memory has all queues there are. -/
def createQueue (w : Installation) (queue : QueueName) : Except Error Unit × Installation :=
  if w.isInMemory then (.ok (), w)
  else
    let (result, w) := w.onDatabase (·.createQueue queue)
    (result, countTransport w queue "create" result)

/-- The transport in memory numbers what it accepts. -/
def transmit (w : Installation) (m : Message) : Except Error Receipt × Installation :=
  if w.refuses then (.error (.transport "refused"), w)
  else (.ok ⟨toString (w.sent.length + 1)⟩, { w with sent := m :: w.sent })

def send (w : Installation) (delay : Int) (m : Message) :
    Except Error Receipt × Installation :=
  match w.backing with
  | .memory _ => w.transmit m
  | .database db =>
    let (reply, w) := w.sendToQueue db m.queue m.toJson delay
    match reply with
    | .ok number => (.ok ⟨toString number⟩, w)
    | .error e => (.error (.transport e.message), w)

def fetch (w : Installation) (ref : ContentRef) : Except Error (List UInt8) :=
  match w.content.find? (·.1 == ref) with
  | some (_, bytes) => .ok bytes
  | none => .error (.contentMissing ref.text)

def store (w : Installation) (bytes : List UInt8) : ContentRef × Installation :=
  let ref : ContentRef := ⟨"blob#" ++ toString w.stored⟩
  (ref, { w with content := (ref, bytes) :: w.content, stored := w.stored + 1 })

def remove (w : Installation) (ref : ContentRef) : Installation :=
  { w with content := w.content.filter (·.1 != ref) }

def countDelete (w : Installation) (counter : Nat) : Nat × Installation :=
  let n := w.deletes counter + 1
  (n, { w with deletes := withValue w.deletes counter n })

def answer (seat : Seat) : (action : Action) → Installation → action.Reply × Installation
  | .store c, w => w.call c
  | .now, w => (w.now seat.clock, w)
  | .mint moment, w => w.mint moment
  | .createQueue queue, w => w.createQueue queue
  | .send m, w => w.send seat.delay m
  | .fetch ref, w => (w.fetch ref, w)
  | .countDelete, w => w.countDelete seat.counter
  | .sleep _, w => ((), w)
  | .report r, w => ((), w.report r)

def withRetries (seat : Seat) (op : Operation α) : Operation α :=
  match seat.retry with
  | some config => op.retrying config
  | none => op

def run (w : Installation) (seat : Seat) (op : Operation α) : α × Installation :=
  (withRetries seat op).run (answer seat) w

end Installation

end SpoolIndex
