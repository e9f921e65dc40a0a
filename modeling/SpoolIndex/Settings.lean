import SpoolIndex.Config.Reader
import SpoolIndex.Environment
import SpoolIndex.Text.Quoted

/-!
# Settings of the program

The program is set up by environment variables, one of which may name a file with the settings of
its view. The database URL is a secret: the description of the settings does not show it.
-/

namespace SpoolIndex

namespace Config

def ofFile (env : Environment) (path : String) : Except Error Config :=
  match env.readText path with
  | .error e => .error (.file e.message)
  | .ok text => (ofText text).mapError fun e => .config (path ++ ": " ++ e.message)

end Config

/-- A text that is not shown. -/
structure Secret where
  expose : String

structure Settings where
  databaseUrl : Secret
  telemetryEndpoint : Option String
  logLevel : String
  view : Config

namespace Settings

def ofEnvironment (env : Environment) : Except Error Settings := do
  let view ← match env.get? "MQVIEW_CONFIG" with
    | some path => Config.ofFile env path
    | none => pure Config.default
  match env.get? "DATABASE_URL" with
  | none => throw (.config "required environment variable DATABASE_URL is not set")
  | some url =>
    return {
      databaseUrl := ⟨url⟩
      telemetryEndpoint := env.get? "OTEL_ENDPOINT"
      logLevel := (env.get? "LOG_LEVEL").getD "info"
      view := view }

def describe (s : Settings) : String :=
  let endpoint := match s.telemetryEndpoint with
    | some endpoint => Text.quoted endpoint
    | none => "none"
  "database_url: [REDACTED], otel_endpoint: " ++ endpoint ++ ", log_level: " ++
    Text.quoted s.logLevel

end Settings

end SpoolIndex
