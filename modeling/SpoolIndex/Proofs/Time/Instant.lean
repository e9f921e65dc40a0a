import SpoolIndex.Time.Instant

/-!
# Instants and their milliseconds

Outside leap seconds, milliseconds keep the order of instants. A leap second has the
milliseconds of the second after it, though, so an instant there may have more than a
later one (`Instant.millis_mono` and `Instant.lt_of_millis_lt` each ask one of the two
to lie outside). The milliseconds that begin with a date are the ones from that of the
first date to that of the last (`Instant.isSome_ofMillis?_iff`).
-/

namespace SpoolIndex.Instant

variable {t u : Instant} {n : Int}

theorem le_def : t ≤ u ↔
    t.seconds < u.seconds ∨ t.seconds = u.seconds ∧ t.subsecond ≤ u.subsecond := Iff.rfl

theorem lt_def : t < u ↔
    t.seconds < u.seconds ∨ t.seconds = u.seconds ∧ t.subsecond < u.subsecond := Iff.rfl

theorem inLeapSecond_eq_false : t.inLeapSecond = false ↔ t.subsecond < 1000000000 := by
  rw [inLeapSecond, decide_eq_false_iff_not, Nat.not_le]

theorem millis_mono (h : t ≤ u) (ht : t.inLeapSecond = false) : t.millis ≤ u.millis := by
  rw [le_def] at h
  rw [inLeapSecond_eq_false] at ht
  simp only [millis, nanos]
  omega

theorem lt_of_millis_lt (h : t.millis < u.millis) (hu : u.inLeapSecond = false) : t < u := by
  rw [inLeapSecond_eq_false] at hu
  rw [lt_def]
  simp only [millis, nanos] at h
  omega

theorem lt_iff_nanos_lt (ht : t.inLeapSecond = false) (hu : u.inLeapSecond = false) :
    t < u ↔ t.nanos < u.nanos := by
  rw [inLeapSecond_eq_false] at ht hu
  rw [lt_def]
  simp only [nanos]
  omega

theorem earliest_le (t : Instant) : earliest ≤ t := by
  have hearliest := t.first_le
  rw [le_def]
  simp only [earliest, startOf]
  omega

theorem millis_earliest_le (t : Instant) : earliest.millis ≤ t.millis :=
  millis_mono t.earliest_le rfl

theorem millis_le_latestLeap (t : Instant) : t.millis ≤ latestLeap.millis := by
  have hlatest := t.le_last
  have hsub := t.subsecond_lt
  simp only [millis, nanos, latestLeap]
  omega

theorem millis_bounds (t : Instant) :
    -9007199254740992 < t.millis ∧ t.millis < 9007199254740992 := by
  have hlow : earliest.millis = -8334601228800000 := rfl
  have hhigh : latestLeap.millis = 8210266876800999 := rfl
  have hearliest := t.millis_earliest_le
  have hlatest := t.millis_le_latestLeap
  omega

theorem nanos_earliest_le (t : Instant) : earliest.nanos ≤ t.nanos := by
  have hfirst := t.first_le
  simp only [nanos, earliest, startOf]
  omega

theorem nanos_earliest : earliest.nanos = earliest.millis * 1000000 := by decide

-- ---------------------------------------------------------------------------
-- Instants of numbers
-- ---------------------------------------------------------------------------

theorem ofSeconds?_eq_some {seconds : Int} {subsecond : Nat} :
    ofSeconds? seconds subsecond = some t ↔ t.seconds = seconds ∧ t.subsecond = subsecond := by
  unfold ofSeconds?
  split
  · rw [Option.some.injEq]
    constructor
    · rintro rfl
      exact ⟨rfl, rfl⟩
    · rintro ⟨rfl, rfl⟩
      rfl
  · rename_i hout
    refine iff_of_false nofun ?_
    rintro ⟨rfl, rfl⟩
    exact hout ⟨t.first_le, t.le_last, t.subsecond_lt⟩

theorem ofNanos?_eq_some : ofNanos? n = some t ↔ t.nanos = n ∧ t.inLeapSecond = false := by
  rw [ofNanos?, ofSeconds?_eq_some, inLeapSecond_eq_false, nanos]
  omega

theorem inLeapSecond_of_ofMillis? (h : ofMillis? n = some t) : t.inLeapSecond = false :=
  (ofNanos?_eq_some.mp h).2

theorem nanos_of_ofMillis? (h : ofMillis? n = some t) : t.nanos = n * 1000000 :=
  (ofNanos?_eq_some.mp h).1

theorem millis_of_ofMillis? (h : ofMillis? n = some t) : t.millis = n := by
  rw [millis, nanos_of_ofMillis? h]
  exact Int.mul_ediv_cancel n (by decide)

/-- The start of a millisecond is not after a date of that millisecond or of a later one, outside
leap seconds. -/
theorem le_of_ofMillis? (h : ofMillis? n = some t) (hle : n ≤ u.millis)
    (hu : u.inLeapSecond = false) : t ≤ u := by
  have ht := nanos_of_ofMillis? h
  rw [inLeapSecond_eq_false] at hu
  rw [le_def]
  simp only [millis, nanos] at ht hle
  omega

theorem isSome_ofMillis?_iff : (ofMillis? n).isSome ↔ earliest.millis ≤ n ∧ n ≤ latest.millis := by
  have hlow : earliest.millis = -8334601228800000 := rfl
  have hhigh : latest.millis = 8210266876799999 := rfl
  rw [hlow, hhigh, ofMillis?, ofNanos?]
  unfold ofSeconds?
  split
  · rename_i hin
    simp only [earliestSecond, latestSecond] at hin
    simp only [Option.isSome_some, true_iff]
    omega
  · rename_i hout
    simp only [earliestSecond, latestSecond] at hout
    simp only [Option.isSome_none, Bool.false_eq_true, false_iff]
    omega

end SpoolIndex.Instant
