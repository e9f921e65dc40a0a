import SpoolIndex.Error

/-!
# Settings of a view

Bucket count and slice window belong to the stored layout; the rest tunes one view. `validate`
names the first setting a view cannot run with.
-/

namespace SpoolIndex

inductive FailurePolicy where
  /-- Yield the error and end. -/
  | failFast
  /-- Report the partition on the side and go on. -/
  | skipAndContinue
deriving DecidableEq, Inhabited

inductive AdvancePolicy where
  | eager
  /-- After every n-th delete. -/
  | everyNth (n : UInt32)
  | manual
deriving DecidableEq, Inhabited

structure RetryConfig where
  maxAttempts : UInt32
  initialBackoffMillis : UInt64
  maxBackoffMillis : UInt64
deriving DecidableEq

structure Config where
  bucketCount : UInt32
  sliceWindowSeconds : UInt64
  pageSize : UInt64
  fanOut : UInt64
  failurePolicy : FailurePolicy
  advancePolicy : AdvancePolicy
  /-- Slices behind now that maintenance leaves alone; a new queue opens as many before its first
  item. -/
  settleSlices : UInt32
  retry : RetryConfig
deriving DecidableEq

def RetryConfig.default : RetryConfig := ⟨3, 50, 2000⟩

namespace Config

def default : Config where
  bucketCount := 1
  sliceWindowSeconds := 3600
  pageSize := 100
  fanOut := 4
  failurePolicy := .failFast
  advancePolicy := .everyNth 100
  settleSlices := 1
  retry := .default

instance : Inhabited Config := ⟨default⟩

def windowMillis (c : Config) : Nat := c.sliceWindowSeconds.toNat * 1000

/-- The settings that must not be zero, in the order they are checked. -/
def required (c : Config) : List (String × Bool) :=
  [("bucket_count", c.bucketCount != 0), ("slice_window_secs", c.sliceWindowSeconds != 0),
    ("page_size", c.pageSize != 0), ("fan_out", c.fanOut != 0),
    ("settle_slices", c.settleSlices != 0),
    ("advance_policy every", c.advancePolicy != .everyNth 0),
    ("retry.max_attempts", c.retry.maxAttempts != 0)]

def validate (c : Config) : Except Error Unit :=
  match c.required.find? (!·.2) with
  | some (name, _) => .error (.config (name ++ " must be at least 1"))
  | none => .ok ()

end Config

end SpoolIndex
