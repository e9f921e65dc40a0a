import Mathlib.Algebra.Group.Nat.Defs
import SpoolIndex.Proofs.Operation.Transcripts
import SpoolIndex.Store.Retry

/-!
# Retried calls

Against a store that gives the attempts at a call one outcome after the other
(`foretold`), a retried call is tried until an outcome is no passing error or the
attempts run out (`retrying_call`). Its whole transcript is one `RetryConfig.retry`
for each error that was got over, and then the last attempt. The waits are those
of `RetryConfig.wait`.
-/

namespace SpoolIndex

namespace Error

/-- What failed, without the partitions that it was scanned for. -/
def innermost : Error → Error
  | .partition _ source => source.innermost
  | e => e

def Passing (e : Error) : Prop :=
  (∃ m, e.innermost = .unavailable m) ∨ e.innermost = .storage .poolTimedOut ∨
    ∃ m, e.innermost = .storage (.link m)

theorem isTransient_iff (e : Error) : e.isTransient ↔ e.Passing := by
  induction e with
  | partition p source ih => exact ih
  | storage cause => cases cause <;> simp [isTransient, Passing, innermost]
  | _ => simp [isTransient, Passing, innermost]

end Error

def PassingFailure (outcome : Except Error α) : Prop := ∃ e, outcome = .error e ∧ e.Passing

/-- Replies by how many calls were made before. -/
def foretold (replies : (action : Action) → Nat → action.Reply) (action : Action) (made : Nat) :
    action.Reply × Nat :=
  (replies action made, match action with
    | .store _ => made + 1
    | _ => made)

namespace RetryConfig

variable (config : RetryConfig)

/-- The wait for the attempt that follows `i + 1` failed ones, in milliseconds. -/
def wait : Nat → Nat
  | 0 => config.initialBackoffMillis.toNat
  | i + 1 => min (wait i * 2) config.maxBackoffMillis.toNat

def retry (c : StoreCall) (i : Nat) (e : Error) : List Exchange :=
  [⟨.store c, .error e⟩,
    ⟨.report (.event .warn ("transient storage error, retrying: " ++ e.message)
      [("operation", .text c.name), ("attempt", .number (i + 1 : Nat)),
        ("backoff_ms", .number (config.wait i))]), ()⟩,
    ⟨.report (.count .storageRetries [("operation", c.name)]), ()⟩,
    ⟨.sleep (config.wait i), ()⟩]

example : (List.range 8).map RetryConfig.default.wait =
    [50, 100, 200, 400, 800, 1600, 2000, 2000] := rfl

theorem wait_lt (i : Nat) : config.wait i < 2 ^ 64 := by
  cases i with
  | zero => exact config.initialBackoffMillis.toNat_lt
  | succ i =>
    have hmax := config.maxBackoffMillis.toNat_lt
    simp only [wait]
    omega

end RetryConfig

namespace Operation

variable (config : RetryConfig) (c : StoreCall) (replies : (action : Action) → Nat → action.Reply)

/-- How attempts end when `i` have failed before and `left` are allowed after the first: these
errors are got over, and the outcome after them is the last one. -/
structure Attempted (left i : Nat) (errors : List Error) : Prop where
  allowed : errors.length ≤ left
  failed : ∀ k (h : k < errors.length),
    replies (.store c) (i + k) = .error errors[k] ∧ errors[k].Passing
  stopped : errors.length < left → ¬PassingFailure (replies (.store c) (i + errors.length))
  exchanged : (attempts config.maxBackoffMillis.toNat c left (i + 1) (config.wait i)).transcript
    (foretold replies) i = (errors.mapIdx fun k => config.retry c (i + k)).flatten ++
      [⟨.store c, replies (.store c) (i + errors.length)⟩]
  ran : (attempts config.maxBackoffMillis.toNat c left (i + 1) (config.wait i)).run
    (foretold replies) i = (replies (.store c) (i + errors.length), i + errors.length + 1)

variable {config c replies}

theorem attempts_stop (h : 0 < left → ¬PassingFailure (replies (.store c) i)) :
    Attempted config c replies left i [] := by
  have hattempts : ∃ next, attempts config.maxBackoffMillis.toNat c left (i + 1) (config.wait i) =
      .act (.store c) next ∧ next (replies (.store c) i) = .done (replies (.store c) i) := by
    cases left with
    | zero => exact ⟨.done, rfl, rfl⟩
    | succ left =>
      refine ⟨_, rfl, ?_⟩
      cases hr : replies (.store c) i with
      | ok reply => rfl
      | error e =>
        have he : e.isTransient = false := by
          rw [Bool.eq_false_iff, ne_eq, e.isTransient_iff]
          exact fun hpassing => h left.succ_pos ⟨e, hr, hpassing⟩
        exact if_neg (ne_true_of_eq_false he)
  obtain ⟨next, hattempts, hnext⟩ := hattempts
  refine ⟨Nat.zero_le _, nofun, h, ?_, ?_⟩
  · simp [hattempts, transcript, foretold, hnext]
  · simp [hattempts, foretold, hnext]

/-- After a passing error, the rest goes like attempts of which one more has failed. -/
theorem attempts_again (he : replies (.store c) i = .error e) (hpassing : e.Passing)
    (h : Attempted config c replies left (i + 1) errors) :
    Attempted config c replies (left + 1) i (e :: errors) := by
  have hattempts : ∃ next, attempts config.maxBackoffMillis.toNat c (left + 1) (i + 1)
      (config.wait i) = .act (.store c) next ∧ next (.error e) = (do
        event .warn ("transient storage error, retrying: " ++ e.message)
          [("operation", .text c.name), ("attempt", .number (i + 1 : Nat)),
            ("backoff_ms", .number (config.wait i))]
        count .storageRetries [("operation", c.name)]
        perform (.sleep (config.wait i))
        attempts config.maxBackoffMillis.toNat c left (i + 1 + 1) (config.wait (i + 1))) := by
    exact ⟨_, rfl, if_pos (e.isTransient_iff.mpr hpassing)⟩
  obtain ⟨next, hattempts, hnext⟩ := hattempts
  have hlast : i + (e :: errors).length = i + 1 + errors.length := by simp; omega
  refine ⟨by simpa using h.allowed, ?_, ?_, ?_, ?_⟩
  · rintro (_ | k) hk
    · exact ⟨he, hpassing⟩
    · have hfailed := h.failed k (by simpa using hk)
      rwa [Nat.add_right_comm, Nat.add_assoc] at hfailed
  · intro hless
    rw [hlast]
    exact h.stopped (by simpa using hless)
  · have hrest : (fun k => config.retry c (i + (k + 1))) = fun k => config.retry c (i + 1 + k) :=
      funext fun k => by rw [Nat.add_right_comm, Nat.add_assoc]
    have hexchanged : (act (.store c) next).transcript (foretold replies) i =
        config.retry c i e ++ (attempts config.maxBackoffMillis.toNat c left (i + 1 + 1)
          (config.wait (i + 1))).transcript (foretold replies) (i + 1) := by
      simp only [transcript, foretold]
      rw [he, hnext]
      rfl
    rw [hattempts, hexchanged, h.exchanged, hlast, List.mapIdx_cons, List.flatten_cons, hrest,
      List.append_assoc]
    rfl
  · have hran : (act (.store c) next).run (foretold replies) i =
        (attempts config.maxBackoffMillis.toNat c left (i + 1 + 1)
          (config.wait (i + 1))).run (foretold replies) (i + 1) := by
      simp only [run, foretold]
      rw [he, hnext]
      rfl
    rw [hattempts, hran, h.ran, hlast]

variable (config c replies)

theorem exists_attempted (left i : Nat) :
    ∃ errors, Attempted config c replies left i errors := by
  induction left generalizing i with
  | zero => exact ⟨[], attempts_stop nofun⟩
  | succ left ih =>
    by_cases h : PassingFailure (replies (.store c) i)
    · obtain ⟨e, he, hpassing⟩ := h
      obtain ⟨errors, herrors⟩ := ih (i + 1)
      exact ⟨e :: errors, attempts_again he hpassing herrors⟩
    · exact ⟨[], attempts_stop fun _ => h⟩

/-- A call is tried until an outcome is no passing error or the attempts run out, and the last
outcome is returned as it is. Before each further attempt one retry is counted under the name of
the call and the next wait is kept. Attempts have 32-bit numbers, settings are 64-bit milliseconds
and durations have 64-bit seconds, and neither the next attempt nor twice a wait is too large. -/
theorem retrying_call :
    let outcome := replies (.store c)
    let op := (Attempt.call c).run.retrying config
    let most := max 1 config.maxAttempts.toNat
    ∃ errors : List Error,
      op.transcript (foretold replies) 0 =
        (errors.mapIdx (config.retry c)).flatten ++ [⟨.store c, outcome errors.length⟩] ∧
      op.run (foretold replies) 0 = (outcome errors.length, errors.length + 1) ∧
      (∀ i (h : i < errors.length), outcome i = .error errors[i] ∧ errors[i].Passing) ∧
      (∀ j, (∀ i < j, PassingFailure (outcome i)) → ¬PassingFailure (outcome j) →
        errors.length + 1 = min (j + 1) most) ∧
      ((∀ i, PassingFailure (outcome i)) → errors.length + 1 = most) ∧
      ∀ i < errors.length, i + 2 < 2 ^ 32 ∧ config.wait i < 2 ^ 64 ∧
        config.wait i * 2 < 2 ^ 64 * 1000 := by
  intro outcome op most
  obtain ⟨errors, h⟩ := exists_attempted config c replies (config.maxAttempts.toNat - 1) 0
  have hop : op = attempts config.maxBackoffMillis.toNat c (config.maxAttempts.toNat - 1) (0 + 1)
      (config.wait 0) := bind_done _
  have hmost : most = config.maxAttempts.toNat - 1 + 1 := by omega
  have hallowed := h.allowed
  have hfailed : ∀ i (hi : i < errors.length), outcome i = .error errors[i] ∧ errors[i].Passing :=
    fun i hi => by simpa only [Nat.zero_add] using h.failed i hi
  have hstopped : errors.length + 1 < most → ¬PassingFailure (outcome errors.length) :=
    fun hless => by simpa only [Nat.zero_add] using h.stopped (by omega)
  refine ⟨errors, ?_, ?_, hfailed, ?_, ?_, ?_⟩
  · simpa only [hop, Nat.zero_add] using h.exchanged
  · simpa only [hop, Nat.zero_add] using h.ran
  · intro j hbefore hj
    -- No error was got over at `j`, and none before `j` ended the attempts early.
    have hle : errors.length ≤ j := Nat.le_of_not_lt fun hlt => hj ⟨_, hfailed j hlt⟩
    obtain heq | hlt := Nat.eq_or_lt_of_le hle
    · omega
    · have hlast : ¬errors.length + 1 < most := fun hless => hstopped hless (hbefore _ hlt)
      omega
  · intro hall
    have hlast : ¬errors.length + 1 < most := fun hless => hstopped hless (hall _)
    omega
  · intro i hi
    have hmax := config.maxAttempts.toNat_lt
    have hwait := config.wait_lt i
    omega

end Operation

end SpoolIndex
