import SpoolIndex.Config
import SpoolIndex.Operation

/-!
# Trying again

A store call that fails with a transient error is made again, up to a number of attempts, with a
wait in between that doubles up to a ceiling. The last outcome is the outcome of the call.
-/

namespace SpoolIndex

namespace Operation

/-- Makes a call with `left` more attempts allowed after this one, the first of which follows a
wait of `backoff` milliseconds. -/
def attempts (ceiling : Nat) (call : StoreCall) :
    (left attempt backoff : Nat) → Operation (Except Error call.Reply)
  | 0, _, _ => perform (.store call)
  | left + 1, attempt, backoff => do
    match ← perform (.store call) with
    | .error e =>
      if e.isTransient then do
        event .warn ("transient storage error, retrying: " ++ e.message)
          [("operation", .text call.name), ("attempt", .number attempt),
            ("backoff_ms", .number backoff)]
        count .storageRetries [("operation", call.name)]
        perform (.sleep backoff)
        attempts ceiling call left (attempt + 1) (min (backoff * 2) ceiling)
      else return .error e
    | .ok reply => return .ok reply

def retrying (config : RetryConfig) : Operation α → Operation α
  | done value => done value
  | act (.store call) next =>
    (attempts config.maxBackoffMillis.toNat call (config.maxAttempts.toNat - 1) 1
      config.initialBackoffMillis.toNat).bind fun reply => retrying config (next reply)
  | act action next => act action fun reply => retrying config (next reply)

end Operation

end SpoolIndex
