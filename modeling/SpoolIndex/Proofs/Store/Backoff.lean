import SpoolIndex.Proofs.Store.Retry

/-!
# Waits between attempts

The waits of a retried call are the first so many of `RetryConfig.wait`, whatever
the attempts are answered (`Operation.attempts_waits`), and there are as many as
the settings allow when every attempt fails (`Operation.exists_exhausted`). From
the second one on they stay under the ceiling and never get shorter. The first one
is the setting itself, which validation does not compare with the ceiling, so it
may be above (`Config.backoff_iff`).
-/

namespace SpoolIndex

def sleepsOf (path : List Exchange) : List Nat :=
  path.filterMap fun x => match x.action with
    | .sleep millis => some millis
    | _ => none

namespace RetryConfig

variable (config : RetryConfig)

def waits (i n : Nat) : List Nat := (List.range' i n).map config.wait

@[simp] theorem waits_zero (i : Nat) : config.waits i 0 = [] := rfl

@[simp] theorem waits_succ (i n : Nat) :
    config.waits i (n + 1) = config.wait i :: config.waits (i + 1) n := rfl

/-- Whatever the attempts at a call are answered, the waits between them satisfy `P`. -/
def Waits (P : List Nat → Prop) : Prop :=
  ∀ (c : StoreCall) (path : List Exchange) (result : Except Error c.Reply),
    ((Attempt.call c).run.retrying config).Ends path result → P (sleepsOf path)

theorem wait_succ_le (i : Nat) : config.wait (i + 1) ≤ config.maxBackoffMillis.toNat :=
  Nat.min_le_right _ _

theorem wait_le_succ (h : config.wait i ≤ config.maxBackoffMillis.toNat) :
    config.wait i ≤ config.wait (i + 1) := by
  apply Nat.le_min_of_le_of_le
  · omega
  · exact h

variable {config}

theorem wait_le (h : config.wait i ≤ config.maxBackoffMillis.toNat) (hij : i ≤ j) :
    config.wait i ≤ config.wait j ∧ config.wait j ≤ config.maxBackoffMillis.toNat := by
  induction hij with
  | refl => exact ⟨Nat.le_refl _, h⟩
  | step _ ih => exact ⟨Nat.le_trans ih.1 (config.wait_le_succ ih.2), config.wait_succ_le _⟩

theorem waits_le (h : config.wait i ≤ config.maxBackoffMillis.toNat) (n : Nat) :
    ∀ wait ∈ config.waits i n, config.wait i ≤ wait ∧ wait ≤ config.maxBackoffMillis.toNat := by
  intro wait hwait
  obtain ⟨j, hj, rfl⟩ := List.mem_map.mp hwait
  obtain ⟨k, -, rfl⟩ := List.mem_range'.mp hj
  exact wait_le h (by omega)

theorem waits_pairwise (h : config.wait i ≤ config.maxBackoffMillis.toNat) (n : Nat) :
    (config.waits i n).Pairwise (· ≤ ·) := by
  induction n generalizing i with
  | zero => exact .nil
  | succ n ih =>
    have hrest := ih (config.wait_succ_le i)
    rw [waits_succ, List.pairwise_cons]
    refine ⟨?_, hrest⟩
    intro wait hwait
    obtain ⟨hle, -⟩ := waits_le (config.wait_succ_le i) n wait hwait
    exact Nat.le_trans (config.wait_le_succ h) hle

end RetryConfig

namespace Operation

variable {config : RetryConfig} {c : StoreCall}

theorem attempts_again_ends (he : e.isTransient) {path : List Exchange}
    {result : Except Error c.Reply}
    (h : (attempts ceiling c left (attempt + 1) (min (backoff * 2) ceiling)).Ends path result) :
    (attempts ceiling c (left + 1) attempt backoff).Ends
      (⟨.store c, .error e⟩ ::
        ⟨.report (.event .warn ("transient storage error, retrying: " ++ e.message)
          [("operation", .text c.name), ("attempt", .number attempt),
            ("backoff_ms", .number backoff)]), ()⟩ ::
        ⟨.report (.count .storageRetries [("operation", c.name)]), ()⟩ ::
        ⟨.sleep backoff, ()⟩ :: path) result := by
  obtain ⟨next, hattempts, hnext⟩ : ∃ next, attempts ceiling c (left + 1) attempt backoff =
      .act (.store c) next ∧ next (.error e) = (do
        event .warn ("transient storage error, retrying: " ++ e.message)
          [("operation", .text c.name), ("attempt", .number attempt),
            ("backoff_ms", .number backoff)]
        count .storageRetries [("operation", c.name)]
        perform (.sleep backoff)
        attempts ceiling c left (attempt + 1) (min (backoff * 2) ceiling)) :=
    ⟨_, rfl, if_pos he⟩
  rw [hattempts]
  apply Ends.act
  rw [hnext]
  exact .act (.act (.act h))

theorem attempts_waits {path : List Exchange} {result : Except Error c.Reply}
    (h : (attempts config.maxBackoffMillis.toNat c left (i + 1) (config.wait i)).Ends path result) :
    ∃ n ≤ left, sleepsOf path = config.waits i n := by
  induction left generalizing i path with
  | zero =>
    obtain rfl := h.of_perform
    exact ⟨0, Nat.le_refl 0, rfl⟩
  | succ left ih =>
    obtain ⟨_, rest, reply, rfl, hcall, hrest⟩ := Ends.of_bind h
    obtain rfl := hcall.of_perform
    cases reply with
    | ok reply =>
      obtain ⟨rfl, -⟩ := hrest.of_done
      exact ⟨0, Nat.zero_le _, rfl⟩
    | error e =>
      dsimp only at hrest
      split at hrest
      · obtain ⟨_, _, _, rfl, hwarn, hcounted⟩ := Ends.of_bind hrest
        obtain ⟨_, _, _, rfl, hcount, hslept⟩ := Ends.of_bind hcounted
        obtain ⟨_, _, _, rfl, hsleep, hlast⟩ := Ends.of_bind hslept
        obtain rfl := hwarn.of_perform
        obtain rfl := hcount.of_perform
        obtain rfl := hsleep.of_perform
        obtain ⟨n, hn, hwaits⟩ := ih hlast
        exact ⟨n + 1, Nat.succ_le_succ hn, congrArg (config.wait i :: ·) hwaits⟩
      · obtain ⟨rfl, -⟩ := hrest.of_done
        exact ⟨0, Nat.zero_le _, rfl⟩

theorem exists_exhausted (config : RetryConfig) (c : StoreCall) (left i : Nat) :
    ∃ (path : List Exchange) (result : Except Error c.Reply),
      (attempts config.maxBackoffMillis.toNat c left (i + 1) (config.wait i)).Ends path result ∧
        sleepsOf path = config.waits i left := by
  induction left generalizing i with
  | zero => exact ⟨[⟨.store c, .error (.unavailable "down")⟩], _, .act (.done _), rfl⟩
  | succ left ih =>
    obtain ⟨path, result, h, hwaits⟩ := ih (i + 1)
    refine ⟨_, result, attempts_again_ends (e := .unavailable "down") rfl h, ?_⟩
    exact congrArg (config.wait i :: ·) hwaits

theorem retrying_call_eq (config : RetryConfig) (c : StoreCall) :
    (Attempt.call c).run.retrying config =
      attempts config.maxBackoffMillis.toNat c (config.maxAttempts.toNat - 1) (0 + 1)
        (config.wait 0) := bind_done _

end Operation

namespace RetryConfig

variable {config : RetryConfig}

/-- A property that the waits lose only by more of them is decided by as many as are allowed. -/
theorem waits_iff {P : List Nat → Prop} (hfewer : ∀ {waits waits'}, waits.Sublist waits' →
    P waits' → P waits) : config.Waits P ↔ P (config.waits 0 (config.maxAttempts.toNat - 1)) := by
  constructor
  · intro h
    obtain ⟨path, result, hends, hwaits⟩ := Operation.exists_exhausted config
      (.readStart ⟨"spool"⟩) (config.maxAttempts.toNat - 1) 0
    rw [← hwaits]
    apply h (.readStart ⟨"spool"⟩) path result
    rw [Operation.retrying_call_eq]
    exact hends
  · intro h c path result hends
    rw [Operation.retrying_call_eq] at hends
    obtain ⟨n, hn, hwaits⟩ := Operation.attempts_waits hends
    rw [hwaits]
    apply hfewer _ h
    exact (List.range'_sublist_right.mpr hn).map config.wait

theorem lt_waits_of_lt (h : config.maxBackoffMillis < config.initialBackoffMillis) :
    config.maxBackoffMillis.toNat < config.wait 0 ∧ config.wait 1 < config.wait 0 := by
  have hlt : config.maxBackoffMillis.toNat < config.wait 0 := UInt64.lt_iff_toNat_lt.mp h
  exact ⟨hlt, Nat.lt_of_le_of_lt (config.wait_succ_le 0) hlt⟩

/-- All waits are under the ceiling if the first one is, or if there is none. -/
theorem waits_bounded_iff :
    (config.Waits fun waits => ∀ wait ∈ waits, wait ≤ config.maxBackoffMillis.toNat) ↔
      config.initialBackoffMillis ≤ config.maxBackoffMillis ∨ config.maxAttempts.toNat ≤ 1 := by
  rw [waits_iff fun hsub h wait hwait => h wait (hsub.subset hwait)]
  constructor
  · intro h
    refine Decidable.byContradiction fun hnot => ?_
    obtain ⟨hlt, hmany⟩ := not_or.mp hnot
    obtain ⟨n, hn⟩ : ∃ n, config.maxAttempts.toNat - 1 = n + 1 :=
      ⟨config.maxAttempts.toNat - 2, by omega⟩
    rw [hn, waits_succ] at h
    obtain ⟨hfirst, -⟩ := lt_waits_of_lt (UInt64.not_le.mp hlt)
    exact Nat.not_le.mpr hfirst (h _ List.mem_cons_self)
  · rintro (hle | hfew) wait hwait
    · have hfirst : config.wait 0 ≤ config.maxBackoffMillis.toNat := UInt64.le_iff_toNat_le.mp hle
      exact (waits_le hfirst _ wait hwait).2
    · have hnone : config.maxAttempts.toNat - 1 = 0 := by omega
      rw [hnone] at hwait
      cases hwait

/-- No wait is shorter than the one before if the first one is under the ceiling, or if there are
not two of them. -/
theorem waits_pairwise_iff : config.Waits (·.Pairwise (· ≤ ·)) ↔
    config.initialBackoffMillis ≤ config.maxBackoffMillis ∨ config.maxAttempts.toNat ≤ 2 := by
  rw [waits_iff fun hsub h => h.sublist hsub]
  constructor
  · intro h
    refine Decidable.byContradiction fun hnot => ?_
    obtain ⟨hlt, hmany⟩ := not_or.mp hnot
    obtain ⟨n, hn⟩ : ∃ n, config.maxAttempts.toNat - 1 = n + 2 :=
      ⟨config.maxAttempts.toNat - 3, by omega⟩
    rw [hn, waits_succ, waits_succ, List.pairwise_cons] at h
    obtain ⟨-, hsecond⟩ := lt_waits_of_lt (UInt64.not_le.mp hlt)
    exact Nat.not_le.mpr hsecond (h.1 _ List.mem_cons_self)
  · rintro (hle | hfew)
    · have hfirst : config.wait 0 ≤ config.maxBackoffMillis.toNat := UInt64.le_iff_toNat_le.mp hle
      exact waits_pairwise hfirst _
    · have hone : config.maxAttempts.toNat - 1 ≤ 1 := by omega
      apply List.Pairwise.sublist ((List.range'_sublist_right.mpr hone).map config.wait)
      exact List.pairwise_singleton ..

theorem waits_tail (config : RetryConfig) : config.Waits fun waits =>
    (∀ first ∈ waits.head?, first = config.initialBackoffMillis.toNat) ∧
      (∀ wait ∈ waits.tail, wait ≤ config.maxBackoffMillis.toNat) ∧
      waits.tail.Pairwise (· ≤ ·) := by
  intro c path result hends
  rw [Operation.retrying_call_eq] at hends
  obtain ⟨n, -, hwaits⟩ := Operation.attempts_waits hends
  rw [hwaits]
  cases n with
  | zero => simp
  | succ n =>
    have hsecond := config.wait_succ_le 0
    refine ⟨?_, ?_, waits_pairwise hsecond n⟩
    · rintro first ⟨⟩
      rfl
    · intro wait hwait
      exact (waits_le hsecond n wait hwait).2

end RetryConfig

namespace Config

theorem required_of_validate {c : Config} (hc : c.validate = .ok ()) {setting : String × Bool}
    (h : setting ∈ c.required) : setting.2 = true := by
  unfold validate at hc
  split at hc
  · cases hc
  · rename_i hnone
    simpa using List.find?_eq_none.mp hnone setting h

/-- Validation does not look at how long the waits are. -/
theorem validate_backoff (c : Config) (initial ceiling : UInt64) :
    ({ c with retry := ⟨c.retry.maxAttempts, initial, ceiling⟩ } : Config).validate = c.validate :=
  rfl

/-- With settings that validation accepts, waits stay under the ceiling if and only if the first one
does or no call is tried again, and they never get shorter if and only if the first one is under the
ceiling or no call is tried a third time. Which of these is the case makes no difference to
validation. From the second wait on, both always hold. -/
theorem backoff_iff (c : Config) (hc : c.validate = .ok ()) :
    let retry := c.retry
    let ceiling := retry.maxBackoffMillis
    ((retry.Waits fun waits => ∀ wait ∈ waits, wait ≤ ceiling.toNat) ↔
      retry.initialBackoffMillis ≤ ceiling ∨ retry.maxAttempts.toNat = 1) ∧
    (retry.Waits (·.Pairwise (· ≤ ·)) ↔
      retry.initialBackoffMillis ≤ ceiling ∨ retry.maxAttempts.toNat ≤ 2) ∧
    (∀ initial ceiling,
      ({ c with retry := ⟨retry.maxAttempts, initial, ceiling⟩ } : Config).validate = .ok ()) ∧
    retry.Waits fun waits =>
      (∀ first ∈ waits.head?, first = retry.initialBackoffMillis.toNat) ∧
        (∀ wait ∈ waits.tail, wait ≤ ceiling.toNat) ∧ waits.tail.Pairwise (· ≤ ·) := by
  intro retry ceiling
  have hattempts : 0 < retry.maxAttempts.toNat := by
    have hlisted : ("retry.max_attempts", c.retry.maxAttempts != 0) ∈ c.required := by
      simp [required]
    have hset : (c.retry.maxAttempts != 0) = true := required_of_validate hc hlisted
    apply Nat.pos_of_ne_zero
    intro hzero
    rw [show c.retry.maxAttempts = 0 from UInt32.toNat_inj.mp hzero] at hset
    cases hset
  refine ⟨?_, RetryConfig.waits_pairwise_iff, ?_, retry.waits_tail⟩
  · have hone : retry.maxAttempts.toNat = 1 ↔ retry.maxAttempts.toNat ≤ 1 := by omega
    rw [hone]
    exact RetryConfig.waits_bounded_iff
  · intro initial ceiling
    rw [← hc]
    exact c.validate_backoff initial ceiling

end Config

namespace Sample

/-- The first wait is longer than the ceiling allows. -/
def impatient : Config := { Config.default with retry := ⟨3, 5000, 2000⟩ }

theorem impatient_accepted : impatient.validate = .ok () ∧
    ¬(impatient.retry.Waits fun waits => ∀ wait ∈ waits, wait ≤ 2000) ∧
    ¬impatient.retry.Waits (·.Pairwise (· ≤ ·)) := by
  have hvalid : impatient.validate = .ok () := rfl
  obtain ⟨hbounded, hordered, -⟩ := Config.backoff_iff impatient hvalid
  refine ⟨hvalid, fun h => ?_, fun h => ?_⟩
  · have hno := hbounded.mp h
    revert hno
    decide
  · have hno := hordered.mp h
    revert hno
    decide

end Sample

end SpoolIndex
