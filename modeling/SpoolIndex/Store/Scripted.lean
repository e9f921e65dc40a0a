import SpoolIndex.Fault
import SpoolIndex.Store.Memory

/-!
# A store with a script

The store in memory behind a script of faults, with a record of the calls made to it. A fault
makes a call fail, or has something happen just before the call.
-/

namespace SpoolIndex

namespace StoreCall

def tokenText : Option Token → String
  | none => "-"
  | some t => t.text

def scriptName : StoreCall → String
  | swapStart .. => "cas_browse_start"
  | call => call.name

def conditionText : SwapCondition → String
  | .absent => "absent"
  | .below => "below"

def arguments : StoreCall → List String
  | appendItem x => [x.partition.render, x.key.render]
  | scanItems p after limit => [p.render, tokenText after, toString limit]
  | hasItems p => [p.render]
  | putTombstone queue key | hasTombstone queue key => [queue.text, key.render]
  | scanTombstones queue after limit => [queue.text, tokenText after, toString limit]
  | readStart queue => [queue.text]
  | swapStart queue condition slice =>
    [queue.text, conditionText condition, toString slice]

def describe (call : StoreCall) : String := " ".intercalate (call.scriptName :: call.arguments)

def faultTarget (call : StoreCall) : FaultTarget :=
  ⟨call.scriptName, some call.queue, call.partition?, call.key?⟩

end StoreCall

inductive StoreFault where
  | fail (error : Error)
  /-- The first clock moves by some milliseconds. -/
  | moveClock (millis : Int)
  /-- The browse start of the call's queue moves up. -/
  | raiseStart (slice : Slice)
  /-- A key of the call's queue gets a tombstone. -/
  | bury (key : Key)
  | append (item : Item)

structure ScriptedStore where
  store : Store
  faults : List (Fault StoreFault)
  /-- The calls made so far, the latest first. -/
  calls : List StoreCall

namespace ScriptedStore

def new (faults : List (Fault StoreFault)) : ScriptedStore := ⟨.empty, faults, []⟩

instance : Inhabited ScriptedStore := ⟨new []⟩

def prelude (store : Store) (queue : QueueName) : StoreFault → Store
  | .fail _ | .moveClock _ => store
  | .raiseStart slice => (store.perform (.swapStart queue .below slice)).2
  | .bury key => store.bury queue key
  | .append x => store.append x

def perform (s : ScriptedStore) (call : StoreCall) :
    (Except Error call.Reply × Option StoreFault) × ScriptedStore :=
  let (struck, faults) := Fault.strike call.faultTarget s.faults
  let calls := call :: s.calls
  match struck with
  | some (.fail e) => ((.error e, struck), { s with faults, calls })
  | struck =>
    let store := match struck with
      | some fault => prelude s.store call.queue fault
      | none => s.store
    let (reply, store) := store.perform call
    ((reply, struck), ⟨store, faults, calls⟩)

end ScriptedStore

end SpoolIndex
