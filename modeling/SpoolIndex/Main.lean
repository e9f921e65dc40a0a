import SpoolIndex.Program
import Std.Time.DateTime.Timestamp

/-!
# The executable

Runs the program once, on a database that begins empty and lives as long as the run.
-/

open SpoolIndex

def knownVariables : List String := ["DATABASE_URL", "MQVIEW_CONFIG", "OTEL_ENDPOINT", "LOG_LEVEL"]

def readVariables : IO (List (String × String)) :=
  knownVariables.filterMapM fun name => do
    return (← IO.getEnv name).map fun value => (name, value)

def readFile (path : String) : IO (Except FileError ByteArray) := do
  try
    return .ok (← IO.FS.readBinFile path)
  catch
    | .inappropriateType .. => return .error .directory
    | _ => return .error .missing

def readEnvironment : IO Environment := do
  let bindings ← readVariables
  let file ← readFile ((bindings.lookup "MQVIEW_CONFIG").getD "")
  return ⟨bindings, fun _ => file⟩

def readClock : IO Instant := do
  let now ← Std.Time.Timestamp.now
  return (Instant.ofNanos? now.toNanosecondsSinceUnixEpoch.val).getD Instant.latest

def printOutcome : Outcome → IO Unit
  | .usage .help => IO.println usageText
  | .usage _ => IO.eprintln usageText
  | .finished printed => do
    for text in printed.texts do
      IO.println text
    if let .error e := printed.outcome then IO.eprintln ("Error: " ++ e.message)
where
  usageText : String :=
    "Usage: mqview " ++ "|".intercalate (CommandLine.commands.map (·.name)) ++ " QUEUE ..."

def main (words : List String) : IO UInt32 := do
  let world := Installation.new (.database (.new [])) [← readClock]
  let (outcome, _) := Program.run (← readEnvironment) none words world
  printOutcome outcome
  return UInt32.ofNat outcome.exitCode
