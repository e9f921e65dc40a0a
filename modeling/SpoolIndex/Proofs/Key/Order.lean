import Mathlib.Algebra.Group.Nat.Defs
import SpoolIndex.Key.Generator
import SpoolIndex.Proofs.Time.Instant

/-!
# Keys in the order they were made

A generator has a rank: the millisecond of its counter and the counter itself, as
one number. No key that it made has a higher one (`KeyGenerator.Issued`), and to
make a key for a moment that is not before the last one raises it. So this key is
greater than all keys before it, those of replayed moments among them, as long as
the millisecond of the counter has room in a key (`KeyGenerator.keyAt_follows`). The
counter runs ahead of the moments by at most a millisecond for every `2 ^ 41` keys,
and not at all if fewer fall into each millisecond; every key then tells its own.
Beyond the last millisecond a key has room for, the next key is the smallest of all
(`KeyGenerator.keyAt_exceptions`).
-/

namespace SpoolIndex

namespace KeyGenerator

-- ---------------------------------------------------------------------------
-- The parts of a key
-- ---------------------------------------------------------------------------

theorem bits_compose (millis low : Nat) : (compose millis low).bits =
    millis % 2 ^ 48 * 2 ^ 80 + 7 * 2 ^ 76 + low / 2 ^ 62 % 2 ^ 12 * 2 ^ 64 + 2 * 2 ^ 62 +
      low % 2 ^ 62 := by
  simp only [compose, Key.ofNat, Nat.shiftLeft_eq, Nat.shiftRight_eq_div_pow]
  omega

@[simp] theorem version_compose (millis low : Nat) : (compose millis low).version = 7 := by
  rw [Key.version, bits_compose]
  omega

@[simp] theorem variant_compose (millis low : Nat) : (compose millis low).variant = 2 := by
  rw [Key.variant, bits_compose]
  omega

theorem leadingMillis_compose (h : millis < 2 ^ 48) :
    (compose millis low).leadingMillis = millis := by
  rw [Key.leadingMillis, bits_compose]
  omega

theorem timestamp_compose (h : millis < 2 ^ 48) :
    (compose millis low).timestamp = Instant.ofMillis? millis := by
  simp only [Key.timestamp, version_compose, leadingMillis_compose h]

theorem compose_lt (_ : millis < 2 ^ 48) (_ : millis' < 2 ^ 48) (_ : low' < 2 ^ 74)
    (hlt : millis < millis' ∨ millis = millis' ∧ low < low') :
    compose millis low < compose millis' low' := by
  change (compose millis low).bits < (compose millis' low').bits
  rw [bits_compose, bits_compose]
  omega

-- ---------------------------------------------------------------------------
-- Ranks
-- ---------------------------------------------------------------------------

def rank (g : KeyGenerator) : Nat := g.counterMillis * 2 ^ 42 + g.counter

/-- A key has room for the millisecond of the counter. -/
def Fits (g : KeyGenerator) : Prop := g.counterMillis < 2 ^ 48

/-- The key is for a millisecond and with first bits that the counter has reached. -/
def Reached (g : KeyGenerator) (key : Key) : Prop :=
  ∃ millis low, key = compose millis low ∧ millis < 2 ^ 48 ∧ low < 2 ^ 74 ∧
    millis * 2 ^ 42 + low / 2 ^ 32 ≤ g.rank

theorem Reached.mono {g g' : KeyGenerator} (h : g.Reached key) (hle : g.rank ≤ g'.rank) :
    g'.Reached key := by
  obtain ⟨millis, low, hkey, hmillis, hlow, hrank⟩ := h
  exact ⟨millis, low, hkey, hmillis, hlow, Nat.le_trans hrank hle⟩

section
variable {g : KeyGenerator} {millis fresh : Nat}

theorem Reached.lt {g' : KeyGenerator} (h : g.Reached key) (hlt : g.rank < g'.rank)
    (hfits : g'.Fits) (hcounter : g'.counter < 2 ^ 42) (htail : tail < 2 ^ 32) :
    key < compose g'.counterMillis (g'.counter * 2 ^ 32 + tail) := by
  obtain ⟨millis, low, rfl, hmillis, hlow, hrank⟩ := h
  have hroom : g'.counter * 2 ^ 32 + tail < 2 ^ 74 := by omega
  have hlast : millis < g'.counterMillis ∨
      millis = g'.counterMillis ∧ low < g'.counter * 2 ^ 32 + tail := by
    unfold rank at hrank hlt
    omega
  exact compose_lt hmillis hfits hroom hlast

theorem lastMillis_advance : (g.advance millis fresh).lastMillis = millis := by
  unfold advance
  split
  · rfl
  · split <;> rfl

theorem counter_advance : (g.advance millis fresh).counter < 2 ^ 42 := by
  have hfresh : fresh % 2 ^ 41 < 2 ^ 41 := Nat.mod_lt _ (by decide)
  unfold advance
  split
  · exact Nat.lt_trans hfresh (by decide)
  · split
    · rename_i hroom
      exact hroom
    · exact Nat.lt_trans hfresh (by decide)

theorem rank_lt_advance (_ : g.counter < 2 ^ 42) : g.rank < (g.advance millis fresh).rank := by
  unfold advance
  split
  · simp only [rank]
    omega
  · split
    · simp only [rank]
      omega
    · simp only [rank]
      omega

theorem le_counterMillis_advance : millis ≤ (g.advance millis fresh).counterMillis := by
  unfold advance
  split
  · exact Nat.le_refl _
  · split <;> simp only <;> omega

theorem counterMillis_le_advance : g.counterMillis ≤ (g.advance millis fresh).counterMillis := by
  unfold advance
  split
  · simp only
    omega
  · split <;> simp only <;> omega

/-- How far the counter has run, in keys: a millisecond stands for as many as surely fit. -/
def distance (g : KeyGenerator) : Nat := g.counterMillis * 2 ^ 41 + (g.counter + 1 - 2 ^ 41)

theorem distance_advance_le : (g.advance millis fresh).distance ≤
    max (g.distance + 1) (millis * 2 ^ 41) := by
  have hfresh : fresh % 2 ^ 41 < 2 ^ 41 := Nat.mod_lt _ (by decide)
  unfold advance distance
  split
  · dsimp only
    omega
  · split
    · dsimp only
      omega
    · dsimp only
      omega

end

-- ---------------------------------------------------------------------------
-- Runs of a generator
-- ---------------------------------------------------------------------------

def after (g : KeyGenerator) : List (Instant × Entropy) → KeyGenerator
  | [] => g
  | (t, entropy) :: rest => (g.keyAt t entropy).2.after rest

theorem keysAt_append (g : KeyGenerator) (past rest : List (Instant × Entropy)) :
    g.keysAt (past ++ rest) = g.keysAt past ++ (g.after past).keysAt rest := by
  induction past generalizing g with
  | nil => rfl
  | cons entry past ih => exact congrArg (_ :: ·) (ih _)

structure Issued (g : KeyGenerator) (past : List (Instant × Entropy)) (keys : List Key) :
    Prop where
  attained : g.lastMillis = 0 ∨ ∃ entry ∈ past, clampedMillis entry.1 = g.lastMillis
  ahead : g.lastMillis ≤ g.counterMillis
  counter_lt : g.counter < 2 ^ 42
  distance_le : g.distance ≤ g.lastMillis * 2 ^ 41 + past.length
  reached : g.Fits → ∀ key ∈ keys, g.Reached key

theorem issued_new : Issued new [] [] where
  attained := .inl rfl
  ahead := Nat.le_refl 0
  counter_lt := by decide
  distance_le := by decide
  reached _ _ hkey := nomatch hkey

section
variable {g : KeyGenerator} {past : List (Instant × Entropy)} {keys : List Key} {t : Instant}
  {entropy : Entropy}

theorem keyAt_later (h : g.lastMillis ≤ clampedMillis t) : g.keyAt t entropy =
    (compose (g.advance (clampedMillis t) entropy.counterStart).counterMillis
      ((g.advance (clampedMillis t) entropy.counterStart).counter * 2 ^ 32 +
        entropy.tail % 2 ^ 32), g.advance (clampedMillis t) entropy.counterStart) := if_pos h

theorem keyAt_replayed (h : clampedMillis t < g.lastMillis) :
    g.keyAt t entropy = (compose (clampedMillis t) (entropy.tail % 2 ^ 74), g) :=
  if_neg (Nat.not_le.mpr h)

theorem Issued.later (h : Issued g past keys) (hlater : g.lastMillis ≤ clampedMillis t) :
    Issued (g.keyAt t entropy).2 (past ++ [(t, entropy)]) (keys ++ [(g.keyAt t entropy).1]) := by
  rw [keyAt_later hlater]
  dsimp only
  have hrank : g.rank < (g.advance (clampedMillis t) entropy.counterStart).rank :=
    rank_lt_advance h.counter_lt
  have hdistance : (g.advance (clampedMillis t) entropy.counterStart).distance ≤ _ :=
    distance_advance_le
  have htail : entropy.tail % 2 ^ 32 < 2 ^ 32 := Nat.mod_lt _ (by decide)
  have hcounter : (g.advance (clampedMillis t) entropy.counterStart).counter < 2 ^ 42 :=
    counter_advance
  refine ⟨.inr ⟨(t, entropy), by simp, lastMillis_advance.symm⟩, ?_, hcounter, ?_, ?_⟩
  · rw [lastMillis_advance]
    exact le_counterMillis_advance
  · have hle := h.distance_le
    rw [lastMillis_advance, List.length_append, List.length_singleton]
    omega
  · intro hfits
    have hbefore : g.Fits := Nat.lt_of_le_of_lt counterMillis_le_advance hfits
    refine List.forall_mem_append.mpr
      ⟨?_, List.forall_mem_singleton.mpr ⟨_, _, rfl, hfits, by omega, ?_⟩⟩
    · intro key hkey
      exact (h.reached hbefore key hkey).mono (Nat.le_of_lt hrank)
    · unfold rank
      omega

theorem Issued.replayed (h : Issued g past keys) (hbefore : clampedMillis t < g.lastMillis) :
    Issued (g.keyAt t entropy).2 (past ++ [(t, entropy)]) (keys ++ [(g.keyAt t entropy).1]) := by
  rw [keyAt_replayed hbefore]
  dsimp only
  have htail : entropy.tail % 2 ^ 74 < 2 ^ 74 := Nat.mod_lt _ (by decide)
  have hahead := h.ahead
  refine ⟨?_, hahead, h.counter_lt, ?_, ?_⟩
  · refine h.attained.imp_right ?_
    rintro ⟨entry, hentry, hmillis⟩
    exact ⟨entry, List.mem_append_left _ hentry, hmillis⟩
  · have hle := h.distance_le
    rw [List.length_append]
    omega
  · intro hfits
    have hroom : g.counterMillis < 2 ^ 48 := hfits
    refine List.forall_mem_append.mpr
      ⟨h.reached hfits, List.forall_mem_singleton.mpr ⟨_, _, rfl, by omega, htail, ?_⟩⟩
    unfold rank
    omega

theorem Issued.keyAt (h : Issued g past keys) : Issued (g.keyAt t entropy).2
    (past ++ [(t, entropy)]) (keys ++ [(g.keyAt t entropy).1]) := by
  by_cases hlater : g.lastMillis ≤ clampedMillis t
  · exact h.later hlater
  · exact h.replayed (Nat.not_le.mp hlater)

theorem Issued.after (h : Issued g past keys) (rest : List (Instant × Entropy)) :
    Issued (g.after rest) (past ++ rest) (keys ++ g.keysAt rest) := by
  induction rest generalizing g past keys with
  | nil => simpa [KeyGenerator.after, keysAt] using h
  | cons entry rest ih =>
    have hrest := ih (h.keyAt : Issued (g.keyAt entry.1 entry.2).2 _ _)
    simpa [KeyGenerator.after, keysAt] using hrest

theorem issued_after (past : List (Instant × Entropy)) :
    Issued (new.after past) past (new.keysAt past) := issued_new.after past

theorem Issued.lastMillis_le (h : Issued g past keys)
    (hlatest : ∀ entry ∈ past, clampedMillis entry.1 ≤ millis) : g.lastMillis ≤ millis := by
  obtain hzero | ⟨entry, hentry, hlast⟩ := h.attained
  · rw [hzero]
    exact Nat.zero_le millis
  · rw [← hlast]
    exact hlatest entry hentry

/-- A key for a moment that no other was after is greater than all keys before it. -/
theorem Issued.lt_key (h : Issued g past keys) (hlater : g.lastMillis ≤ clampedMillis t)
    (hfits : (g.keyAt t entropy).2.Fits) : ∀ key ∈ keys, key < (g.keyAt t entropy).1 := by
  rw [keyAt_later hlater] at hfits ⊢
  have hbefore : g.Fits := Nat.lt_of_le_of_lt counterMillis_le_advance hfits
  intro key hkey
  have htail : entropy.tail % 2 ^ 32 < 2 ^ 32 := Nat.mod_lt _ (by decide)
  exact (h.reached hbefore key hkey).lt (rank_lt_advance h.counter_lt) hfits counter_advance htail

-- ---------------------------------------------------------------------------
-- Few keys in each millisecond
-- ---------------------------------------------------------------------------

def within (millis : Nat) (entries : List (Instant × Entropy)) : Nat :=
  entries.countP fun entry => clampedMillis entry.1 = millis

/-- Too few moments fall into any one millisecond for a counter to be used up. -/
def Sparse (entries : List (Instant × Entropy)) : Prop := ∀ millis, within millis entries < 2 ^ 41

theorem within_append (millis : Nat) (past rest : List (Instant × Entropy)) :
    within millis (past ++ rest) = within millis past + within millis rest := List.countP_append

theorem Sparse.of_append (h : Sparse (past ++ rest)) : Sparse past := by
  intro millis
  have hmillis := h millis
  rw [within_append] at hmillis
  omega

structure InStep (g : KeyGenerator) (past : List (Instant × Entropy)) : Prop where
  same : g.counterMillis = g.lastMillis
  counter_lt : g.counter < 2 ^ 41 + within g.lastMillis past

theorem InStep.keyAt (h : InStep g past) (hsparse : Sparse (past ++ [(t, entropy)])) :
    InStep (g.keyAt t entropy).2 (past ++ [(t, entropy)]) := by
  have hsame := h.same
  have hcounter := h.counter_lt
  by_cases hlater : g.lastMillis ≤ clampedMillis t
  · rw [keyAt_later hlater]
    have hfew := hsparse (clampedMillis t)
    have hone : within (clampedMillis t) [(t, entropy)] = 1 := by simp [within]
    rw [within_append, hone] at hfew
    have hfresh : entropy.counterStart % 2 ^ 41 < 2 ^ 41 := Nat.mod_lt _ (by decide)
    unfold advance
    split
    · refine ⟨rfl, ?_⟩
      dsimp only
      omega
    · -- the moment falls into the last millisecond, where the counter has room for one more
      have hlast : g.lastMillis = clampedMillis t := by omega
      rw [hlast] at hcounter
      rw [if_pos (by omega)]
      refine ⟨by rw [hsame, hlast], ?_⟩
      dsimp only
      rw [within_append, hone]
      omega
  · rw [keyAt_replayed (Nat.not_le.mp hlater)]
    refine ⟨hsame, ?_⟩
    dsimp only
    rw [within_append]
    omega

theorem InStep.after (h : InStep g past) (hsparse : Sparse (past ++ rest)) :
    InStep (g.after rest) (past ++ rest) := by
  induction rest generalizing g past with
  | nil => simpa [KeyGenerator.after] using h
  | cons entry rest ih =>
    rw [List.append_cons] at hsparse ⊢
    exact ih (h.keyAt hsparse.of_append) hsparse

theorem key_of_inStep (h : InStep (g.keyAt t entropy).2 past) :
    ∃ low, (g.keyAt t entropy).1 = compose (clampedMillis t) low := by
  by_cases hlater : g.lastMillis ≤ clampedMillis t
  · rw [keyAt_later hlater] at h ⊢
    refine ⟨_, congrArg (compose · _) ?_⟩
    exact h.same.trans lastMillis_advance
  · rw [keyAt_replayed (Nat.not_le.mp hlater)]
    exact ⟨_, rfl⟩

end

theorem version_keyAt (g : KeyGenerator) (t : Instant) (entropy : Entropy) :
    (g.keyAt t entropy).1.version = 7 ∧ (g.keyAt t entropy).1.variant = 2 := by
  by_cases hlater : g.lastMillis ≤ clampedMillis t
  · rw [keyAt_later hlater]
    simp
  · rw [keyAt_replayed (Nat.not_le.mp hlater)]
    simp

theorem exists_ofMillis? (h : millis < 2 ^ 48) :
    ∃ moment, Instant.ofMillis? (millis : Nat) = some moment := by
  have hlow : Instant.earliest.millis = -8334601228800000 := rfl
  have hhigh : Instant.latest.millis = 8210266876799999 := rfl
  refine Option.isSome_iff_exists.mp (Instant.isSome_ofMillis?_iff.mpr ?_)
  omega

theorem clampedMillis_eq (t : Instant) :
    (clampedMillis t : Int) = if t < .epoch then 0 else t.millis := by
  have hbefore : t < .epoch ↔ t.seconds < 0 := by
    simp only [Instant.lt_def, Instant.epoch, Instant.startOf]
    omega
  unfold clampedMillis
  by_cases h : t.seconds < 0
  · rw [if_pos h, if_pos (hbefore.mpr h)]
    rfl
  · rw [if_neg h, if_neg (mt hbefore.mp h)]
    refine Int.toNat_of_nonneg ?_
    simp only [Instant.millis, Instant.nanos]
    omega

/-- The next key of a fresh generator after any others. It is of version 7. If no moment before was
later, it is greater than all keys before it, provided that the millisecond of the counter has room
in a key; which it has as long as the counter does not take it beyond 48 bits, one millisecond for
every `2 ^ 41` keys. If fewer keys than that fall into each millisecond, the counter stays where the
moments are, and the key tells the millisecond that it was made for. -/
theorem keyAt_follows (past : List (Instant × Entropy)) (t : Instant) (entropy : Entropy) :
    let millis := clampedMillis t
    let made := (new.after past).keyAt t entropy
    let Latest := ∀ entry ∈ past, clampedMillis entry.1 ≤ millis
    ((millis : Int) = if t < .epoch then 0 else t.millis) ∧
    new.keysAt (past ++ [(t, entropy)]) = new.keysAt past ++ [made.1] ∧
    (made.1.version = 7 ∧ made.1.variant = 2) ∧
    (Latest → made.2.Fits → ∀ earlier ∈ new.keysAt past, earlier < made.1) ∧
    (Latest → millis + (past.length + 1) / 2 ^ 41 < 2 ^ 48 → made.2.Fits) ∧
    (millis < 2 ^ 48 → Sparse (past ++ [(t, entropy)]) → (Latest → made.2.Fits) ∧
      ∃ moment, Instant.ofMillis? millis = some moment ∧ made.1.timestamp = some moment) := by
  intro millis made Latest
  have hissued := issued_after past
  have hlast : Latest → made.2.lastMillis = millis := by
    intro hlatest
    have hlater : (new.after past).lastMillis ≤ clampedMillis t := hissued.lastMillis_le hlatest
    unfold made
    rw [keyAt_later hlater]
    exact lastMillis_advance
  refine ⟨clampedMillis_eq t, keysAt_append new past _, version_keyAt _ t entropy, ?_, ?_, ?_⟩
  · intro hlatest hfits
    exact hissued.lt_key (hissued.lastMillis_le hlatest) hfits
  · intro hlatest hroom
    have hmade : Issued made.2 (past ++ [(t, entropy)]) (new.keysAt past ++ [made.1]) :=
      hissued.keyAt
    have hle : made.2.counterMillis * 2 ^ 41 ≤ made.2.distance := Nat.le_add_right _ _
    have hdistance := hmade.distance_le
    rw [hlast hlatest, List.length_append, List.length_singleton] at hdistance
    change made.2.counterMillis < 2 ^ 48
    omega
  · intro hbefore hsparse
    have hnew : InStep new [] := ⟨rfl, by decide⟩
    have hbehind : InStep (new.after past) past := hnew.after hsparse.of_append
    have hstep : InStep made.2 (past ++ [(t, entropy)]) := hbehind.keyAt hsparse
    refine ⟨?_, ?_⟩
    · intro hlatest
      change made.2.counterMillis < 2 ^ 48
      rw [hstep.same, hlast hlatest]
      exact hbefore
    · obtain ⟨low, hkey⟩ := key_of_inStep hstep
      obtain ⟨moment, hmoment⟩ := exists_ofMillis? hbefore
      refine ⟨moment, hmoment, ?_⟩
      rw [← hmoment, hkey]
      exact timestamp_compose hbefore

end KeyGenerator

namespace Sample

def evening : Instant := .startOf 64800 (by decide) (by decide)

def moments : List (Instant × KeyGenerator.Entropy) := [(evening, ⟨3, 9⟩), (.epoch, ⟨0, 2 ^ 70⟩)]

theorem evening_follows :
    let key := ((KeyGenerator.new.after moments).keyAt evening ⟨5, 1⟩).1
    (∀ earlier ∈ KeyGenerator.new.keysAt moments, earlier < key) ∧
      key.timestamp = some evening := by
  intro key
  have hlatest : ∀ entry ∈ moments,
      KeyGenerator.clampedMillis entry.1 ≤ KeyGenerator.clampedMillis evening := by decide
  have hsparse : KeyGenerator.Sparse (moments ++ [(evening, ⟨5, 1⟩)]) := by
    intro millis
    exact Nat.lt_of_le_of_lt List.countP_le_length (by decide)
  obtain ⟨-, -, -, hordered, -, hexact⟩ := KeyGenerator.keyAt_follows moments evening ⟨5, 1⟩
  obtain ⟨hfits, moment, hmoment, htold⟩ := hexact (by decide) hsparse
  have hevening : Instant.ofMillis? (KeyGenerator.clampedMillis evening) = some evening := by decide
  exact ⟨hordered hlatest (hfits hlatest), htold.trans (hmoment.symm.trans hevening)⟩

end Sample

namespace KeyGenerator

theorem after_replicate {n counter : Nat} (t : Instant) (entropy : Entropy)
    (hroom : counter + n < 2 ^ 42) :
    (mk (clampedMillis t) (clampedMillis t) counter).after (.replicate n (t, entropy)) =
      ⟨clampedMillis t, clampedMillis t, counter + n⟩ := by
  induction n generalizing counter with
  | zero => rfl
  | succ n ih =>
    have hnext : ((mk (clampedMillis t) (clampedMillis t) counter).keyAt t entropy).2 =
        ⟨clampedMillis t, clampedMillis t, counter + 1⟩ := by
      rw [keyAt_later (Nat.le_refl _)]
      dsimp only [advance]
      rw [if_neg (Nat.lt_irrefl _), if_pos (by omega)]
    rw [List.replicate_succ, after, hnext, ih (by omega), Nat.add_right_comm, Nat.add_assoc]

end KeyGenerator

namespace Sample

def lastRoom : Instant := ⟨281474976710, 655000000, by decide, by decide, by decide⟩

def leapBefore1970 : Instant := (Instant.ofSeconds? (-1) 1500000000).get rfl

/-- As many keys for the last millisecond as use up a counter that starts at its highest. -/
def crowd : List (Instant × KeyGenerator.Entropy) :=
  .replicate (2 ^ 41 + 1) (lastRoom, ⟨2 ^ 41 - 1, 0⟩)

end Sample

namespace KeyGenerator

open Sample (lastRoom leapBefore1970 crowd)

/-- A counter that is used up in the last millisecond goes on with a millisecond that a key has no
room for, so the next key is less than the first. And a leap second before 1970 may have
milliseconds of 1970, which its key does not tell. -/
theorem keyAt_exceptions :
    ((∀ entry ∈ crowd, clampedMillis entry.1 ≤ clampedMillis lastRoom) ∧
      clampedMillis lastRoom < 2 ^ 48 ∧
      ∃ earlier ∈ new.keysAt crowd, ((new.after crowd).keyAt lastRoom ⟨0, 0⟩).1 < earlier) ∧
    max 0 leapBefore1970.millis = 500 ∧
      (new.keyAt leapBefore1970 ⟨0, 0⟩).1.timestamp = some .epoch := by
  have hlast : clampedMillis lastRoom = 2 ^ 48 - 1 := rfl
  have hfirst : new.keyAt lastRoom ⟨2 ^ 41 - 1, 0⟩ = (compose (2 ^ 48 - 1) ((2 ^ 41 - 1) * 2 ^ 32),
      ⟨clampedMillis lastRoom, clampedMillis lastRoom, 2 ^ 41 - 1⟩) := rfl
  have hused : new.after crowd = ⟨clampedMillis lastRoom, clampedMillis lastRoom, 2 ^ 42 - 1⟩ := by
    rw [crowd, List.replicate_succ, after, hfirst]
    exact after_replicate _ _ (by decide)
  have hnext : ((mk (clampedMillis lastRoom) (clampedMillis lastRoom) (2 ^ 42 - 1)).keyAt
      lastRoom ⟨0, 0⟩).1 = compose (2 ^ 48) 0 := rfl
  have hwrapped : ((new.after crowd).keyAt lastRoom ⟨0, 0⟩).1 = compose (2 ^ 48) 0 := by
    rw [hused, hnext]
  refine ⟨⟨?_, by decide, compose (2 ^ 48 - 1) ((2 ^ 41 - 1) * 2 ^ 32), ?_, ?_⟩, by decide,
    by decide⟩
  · intro entry hentry
    obtain rfl := List.eq_of_mem_replicate hentry
    exact Nat.le_refl _
  · rw [crowd, List.replicate_succ, keysAt, hfirst]
    exact List.mem_cons_self
  · rw [hwrapped]
    decide

end KeyGenerator

end SpoolIndex
