/-!
# Reports

What operations tell about themselves: spans that follow one operation from end to end, events
inside them, and counts. Nothing in the view depends on a report.
-/

namespace SpoolIndex

inductive Level where
  | debug
  | info
  | warn
deriving DecidableEq

def Level.name : Level → String
  | .debug => "DEBUG"
  | .info => "INFO"
  | .warn => "WARN"

inductive Field where
  | text (value : String)
  | number (value : Nat)
deriving DecidableEq

inductive Instrument where
  | itemsRecorded
  | itemsDeleted
  | itemsBrowsed
  | browseStartUpdates
  | partitionFailures
  | storageRetries
  | operationDuration
  | transportOperations
deriving DecidableEq

def Instrument.name : Instrument → String
  | .itemsRecorded => "mqview.items.recorded"
  | .itemsDeleted => "mqview.items.deleted"
  | .itemsBrowsed => "mqview.items.browsed"
  | .browseStartUpdates => "mqview.browse_start.updates"
  | .partitionFailures => "mqview.browse.partition_failures"
  | .storageRetries => "mqview.storage.retries"
  | .operationDuration => "mqview.operation.duration_ms"
  | .transportOperations => "mqview.transport.operations"

inductive Report where
  /-- A span is created with the fields it has from the start. -/
  | span (name : String) (fields : List (String × Field))
  /-- A field of a span is filled in. -/
  | fill (span field value : String)
  /-- What follows happens inside a span. -/
  | enter (span : String)
  /-- The span entered last is left. -/
  | leave
  | event (level : Level) (message : String) (fields : List (String × Field))
  /-- One more of what an instrument counts. -/
  | count (instrument : Instrument) (labels : List (String × String))
deriving DecidableEq

end SpoolIndex
