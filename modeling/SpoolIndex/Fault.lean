import SpoolIndex.Partition
import SpoolIndex.Key

/-!
# Scripted faults

A fault fits the calls of one name, narrowed by what else it asks for. It lets some of them pass,
then strikes a number of times. Of several faults the first that strikes counts, and the ones
after it do not see the call.
-/

namespace SpoolIndex

structure FaultTarget where
  name : String
  queue : Option QueueName
  partition : Option Partition
  key : Option Key

structure Fault (ε : Type) where
  name : String
  queue : Option QueueName
  slice : Option Slice
  bucket : Option Bucket
  key : Option Key
  /-- Fitting calls that still pass. -/
  skip : Nat
  /-- Strikes that are left; nothing when there is no end to them. -/
  times : Option Nat
  effect : ε

namespace Fault

def meets [DecidableEq α] (wanted actual : Option α) : Bool := wanted.isNone || wanted == actual

def fits (f : Fault ε) (t : FaultTarget) : Bool :=
  f.name == t.name && meets f.queue t.queue && meets f.slice (t.partition.map (·.slice)) &&
    meets f.bucket (t.partition.map (·.bucket)) && meets f.key t.key

def strike (t : FaultTarget) : List (Fault ε) → Option ε × List (Fault ε)
  | [] => (none, [])
  | f :: fs =>
    if !f.fits t || f.times == some 0 then
      let (effect, fs) := strike t fs
      (effect, f :: fs)
    else if 0 < f.skip then
      let (effect, fs) := strike t fs
      (effect, { f with skip := f.skip - 1 } :: fs)
    else (some f.effect, { f with times := f.times.map (· - 1) } :: fs)

end Fault

end SpoolIndex
