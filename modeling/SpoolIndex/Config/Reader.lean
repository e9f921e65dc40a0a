import SpoolIndex.Config
import SpoolIndex.Toml.Reader

/-!
# Reading settings

The settings of a view from a TOML document. What is not set keeps its default, and names that
mean nothing are passed over. The retry settings and the advance policy may also be written as
arrays, with their values in order.
-/

namespace SpoolIndex

namespace Toml

def natural? (limit : Nat) : Toml → Option Nat
  | integer n => if 0 ≤ n ∧ n < limit then some n.toNat else none
  | _ => none

def word32? (x : Toml) : Option UInt32 := (x.natural? UInt32.size).map UInt32.ofNat

def word64? (x : Toml) : Option UInt64 := (x.natural? UInt64.size).map UInt64.ofNat

/-- A name out of a few: its text, or a table with nothing in it but the name, set to nothing. -/
def choice? : Toml → Option String
  | string s => some s
  | table _ [(name, table _ [])] | table _ [(name, array [])] => some name
  | _ => none

/-- Reads one entry, or keeps the default where there is none. -/
def entryOr (entries : Entries) (name : String) (default : α) (read? : Toml → Option α) :
    Option α :=
  match find? name entries with
  | none => some default
  | some x => read? x

end Toml

namespace FailurePolicy

def ofToml? (x : Toml) : Option FailurePolicy :=
  match x.choice? with
  | some "fail_fast" => some .failFast
  | some "skip_and_continue" => some .skipAndContinue
  | _ => none

end FailurePolicy

namespace AdvancePolicy

def ofMode? (mode : Toml) (every : Option Toml) : Option AdvancePolicy :=
  match mode.choice?, every with
  | some "eager", none => some .eager
  | some "manual", none => some .manual
  | some "every_nth", some n => n.word32?.map .everyNth
  | _, _ => none

def ofToml? : Toml → Option AdvancePolicy
  | .table _ entries => do ofMode? (← Toml.find? "mode" entries) (Toml.find? "every" entries)
  | .array (mode :: every :: _) => ofMode? mode (some every)
  | _ => none

end AdvancePolicy

namespace RetryConfig

def ofEntries? (entries : Toml.Entries) : Option RetryConfig := do
  return {
    maxAttempts := ← Toml.entryOr entries "max_attempts" default.maxAttempts Toml.word32?
    initialBackoffMillis :=
      ← Toml.entryOr entries "initial_backoff_ms" default.initialBackoffMillis Toml.word64?
    maxBackoffMillis :=
      ← Toml.entryOr entries "max_backoff_ms" default.maxBackoffMillis Toml.word64? }

/-- The names of the settings in the order of an array. -/
def names : List String := ["max_attempts", "initial_backoff_ms", "max_backoff_ms"]

/-- A date counts as a table without settings. -/
def ofToml? : Toml → Option RetryConfig
  | .table _ entries => ofEntries? entries
  | .array values => ofEntries? (names.zip values)
  | .moment => some default
  | _ => none

end RetryConfig

namespace Config

def ofEntries? (entries : Toml.Entries) : Option Config := do
  return {
    bucketCount := ← Toml.entryOr entries "bucket_count" default.bucketCount Toml.word32?
    sliceWindowSeconds :=
      ← Toml.entryOr entries "slice_window_secs" default.sliceWindowSeconds Toml.word64?
    pageSize := ← Toml.entryOr entries "page_size" default.pageSize Toml.word64?
    fanOut := ← Toml.entryOr entries "fan_out" default.fanOut Toml.word64?
    failurePolicy :=
      ← Toml.entryOr entries "failure_policy" default.failurePolicy FailurePolicy.ofToml?
    advancePolicy :=
      ← Toml.entryOr entries "advance_policy" default.advancePolicy AdvancePolicy.ofToml?
    settleSlices := ← Toml.entryOr entries "settle_slices" default.settleSlices Toml.word32?
    retry := ← Toml.entryOr entries "retry" default.retry RetryConfig.ofToml? }

def unreadable : String := "not a document of settings"

def ofText (text : String) : Except Error Config :=
  match (Toml.read? text).bind ofEntries? with
  | none => .error (.config unreadable)
  | some c => c.validate.map fun _ => c

end Config

end SpoolIndex
