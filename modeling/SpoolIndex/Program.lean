import SpoolIndex.CommandLine.Commands
import SpoolIndex.Database.Connection
import SpoolIndex.Settings
import SpoolIndex.Installation
import SpoolIndex.Telemetry.Endpoint

/-!
# The program

A run of the program: the command line is read, then the settings, the database is connected to
and migrated, and the command is carried out. The first of these that fails ends the run.
-/

namespace SpoolIndex

inductive Outcome where
  | usage (error : UsageError)
  | finished (printed : Printed)

namespace Outcome

/-- The exit code: help that was asked for is no failure. -/
def exitCode : Outcome → Nat
  | .usage .help => 0
  | .usage _ => 2
  | .finished ⟨_, .ok _⟩ => 0
  | .finished ⟨_, .error _⟩ => 1

end Outcome

namespace Program

/-- What is needed before the database is there: settings and a connection. -/
def prepare (env : Environment) (refusal : Option String) : Except Error Settings := do
  let settings ← Settings.ofEnvironment env
  Telemetry.start false settings.telemetryEndpoint
  Database.connect refusal settings.databaseUrl.expose
  return settings

/-- Carries out a command once settings and connection are there. -/
def execute (settings : Settings) (command : Command) (w : Installation) :
    Printed × Installation :=
  match w.onDatabase Database.migrate with
  | (.error e, w) => (.failed e, w)
  | (.ok _, w) =>
    match View.create settings.view with
    | .error e => (.failed e, w)
    | .ok view => w.run ⟨0, 0, some settings.view.retry, 0⟩ (command.execute view)

def run (env : Environment) (refusal : Option String) (words : List String) (w : Installation) :
    Outcome × Installation :=
  match CommandLine.parse words with
  | .error e => (.usage e, w)
  | .ok command =>
    match prepare env refusal with
    | .error e => (.finished (.failed e), w)
    | .ok settings =>
      let (printed, w) := execute settings command w.restarted
      (.finished printed, w)

end Program

end SpoolIndex
