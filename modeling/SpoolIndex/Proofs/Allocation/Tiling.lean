import SpoolIndex.Proofs.Allocation

/-!
# Slices tile time

Every date falls into exactly one slice, and the dates of a slice are as many
consecutive milliseconds as the window is wide, unless an end of the dates cuts
them short (`Allocator.slices_tile_time`). All of it comes from one fact, which
holds before 1970 as after: `s` is the slice of a date exactly if the date lies
between `s` windows and one more (`Allocator.sliceOf_eq_iff`). A leap second has the
milliseconds of the second after it, and so lies in the slices of that second,
whose starts it may come before (`Allocator.Sample.leap_second_before_slice`).
-/

namespace SpoolIndex

namespace Allocator

variable {a : Allocator} {s : Slice}

-- ---------------------------------------------------------------------------
-- The dates of a slice
-- ---------------------------------------------------------------------------

theorem window_pos_int (a : Allocator) : (0 : Int) < a.window := Int.natCast_pos.mpr a.window_pos

theorem sliceOf_mono {t u : Instant} (h : t ≤ u) (ht : t.inLeapSecond = false) :
    a.sliceOf t ≤ a.sliceOf u := by
  simp only [Slice.le_def, index_sliceOf]
  exact Int.ediv_le_ediv a.window_pos_int (Instant.millis_mono h ht)

theorem sliceOf_eq_iff {t : Instant} : a.sliceOf t = s ↔
    s.index * a.window ≤ t.millis ∧ t.millis < (s.index + 1) * a.window := by
  have hquotient : t.millis / a.window = s.index ↔
      s.index ≤ t.millis / a.window ∧ t.millis / a.window < s.index + 1 := by omega
  have heq : a.sliceOf t = s ↔ t.millis / a.window = s.index := by
    rw [← index_sliceOf]
    exact ⟨fun h => h ▸ rfl, Slice.ext_index⟩
  rw [heq, hquotient, Int.le_ediv_iff_mul_le a.window_pos_int,
    Int.ediv_lt_iff_lt_mul a.window_pos_int]

theorem sliceOf_lt_max (a : Allocator) (t : Instant) : a.sliceOf t < Slice.max := by
  obtain ⟨-, hhigh⟩ := a.quotient_bounds t
  rw [Slice.lt_def, index_sliceOf, Slice.index_max, Slice.highest]
  omega

theorem index_next_sliceOf (t : Instant) :
    (a.sliceOf t).next.index = (a.sliceOf t).index + 1 :=
  Slice.index_next (a.sliceOf_lt_max t)

-- ---------------------------------------------------------------------------
-- The first date of a slice
-- ---------------------------------------------------------------------------

theorem ofMillis?_clamp (n : Int) :
    Instant.ofMillis? (Slice.clamp n).index = Instant.ofMillis? n := by
  by_cases hfits : Slice.lowest ≤ n ∧ n ≤ Slice.highest
  · rw [Slice.index_clamp]
    congr 1
    omega
  · have hclamped : (Slice.clamp n).index = Slice.lowest ∨
        (Slice.clamp n).index = Slice.highest := by
      rw [Slice.index_clamp]
      simp only [Slice.lowest, Slice.highest] at hfits ⊢
      omega
    have hnone : Instant.ofMillis? n = none := by
      have hlow : Instant.earliest.millis = -8334601228800000 := rfl
      have hhigh : Instant.latest.millis = 8210266876799999 := rfl
      simp only [Slice.lowest, Slice.highest] at hfits
      refine Option.not_isSome_iff_eq_none.mp (mt Instant.isSome_ofMillis?_iff.mp ?_)
      omega
    rw [hnone]
    rcases hclamped with h | h <;> (rw [h]; rfl)

theorem sliceStart_eq (a : Allocator) (s : Slice) : a.sliceStart s =
    (Instant.ofMillis? (s.index * a.window)).getD Instant.earliest := by
  rw [sliceStart, ofMillis?_clamp]

theorem sliceStart_of_date {first : Instant}
    (h : Instant.ofMillis? (s.index * a.window) = some first) : a.sliceStart s = first := by
  rw [sliceStart_eq, h, Option.getD_some]

theorem inLeapSecond_sliceStart (a : Allocator) (s : Slice) :
    (a.sliceStart s).inLeapSecond = false := by
  rw [sliceStart_eq]
  cases hfirst : Instant.ofMillis? (s.index * a.window) with
  | none => rfl
  | some first => exact Instant.inLeapSecond_of_ofMillis? hfirst

theorem sliceStart_sliceOf_le {t : Instant} (h : t.inLeapSecond = false) :
    a.sliceStart (a.sliceOf t) ≤ t := by
  obtain ⟨hfrom, -⟩ := (sliceOf_eq_iff (a := a) (t := t)).mp rfl
  rw [sliceStart_eq]
  cases hfirst : Instant.ofMillis? ((a.sliceOf t).index * a.window) with
  | none => exact t.earliest_le
  | some first => exact Instant.le_of_ofMillis? hfirst hfrom h

theorem lt_sliceStart_next {t first : Instant}
    (h : Instant.ofMillis? ((a.sliceOf t).next.index * a.window) = some first) :
    t < a.sliceStart (a.sliceOf t).next := by
  obtain ⟨-, hbefore⟩ := (sliceOf_eq_iff (a := a) (t := t)).mp rfl
  rw [sliceStart_of_date h]
  refine Instant.lt_of_millis_lt ?_ (Instant.inLeapSecond_of_ofMillis? h)
  rw [Instant.millis_of_ofMillis? h, index_next_sliceOf]
  exact hbefore

theorem sliceOf_sliceStart {first : Instant}
    (h : Instant.ofMillis? (s.index * a.window) = some first) : a.sliceOf (a.sliceStart s) = s := by
  have hwindow := a.window_pos_int
  rw [sliceStart_of_date h, sliceOf_eq_iff, Instant.millis_of_ofMillis? h, Int.add_mul]
  omega

-- ---------------------------------------------------------------------------
-- Slices of a window
-- ---------------------------------------------------------------------------

/-- Slices cut time into runs of `width` milliseconds: a slice starts with its run, unless that is
before the first date, and the slices of dates are in the order of the dates, apart from leap
seconds. -/
theorem slices_tile_time (buckets : UInt32) (window : Duration) :
    let a := new buckets window.millis
    let width : Int := window.width
    (∀ t, t.inLeapSecond = false → a.sliceStart (a.sliceOf t) ≤ t) ∧
    (∀ t, (Instant.ofMillis? ((a.sliceOf t).next.index * width)).isSome →
      t < a.sliceStart (a.sliceOf t).next) ∧
    (∀ t u, t ≤ u → t.inLeapSecond = false → a.sliceOf t ≤ a.sliceOf u) ∧
    (∀ s, (Instant.ofMillis? (s.index * width)).isSome → a.sliceOf (a.sliceStart s) = s) ∧
    (∀ s t, a.sliceOf t = s ↔ s.index * width ≤ t.millis ∧ t.millis < s.index * width + width) := by
  intro a width
  refine ⟨fun _ => sliceStart_sliceOf_le, ?_, fun _ _ => sliceOf_mono, ?_, ?_⟩
  · intro t hdate
    obtain ⟨first, hfirst⟩ := Option.isSome_iff_exists.mp hdate
    exact lt_sliceStart_next hfirst
  · intro s hdate
    obtain ⟨first, hfirst⟩ := Option.isSome_iff_exists.mp hdate
    exact sliceOf_sliceStart hfirst
  · intro s t
    have hspan : s.index * width + width = (s.index + 1) * width := by rw [Int.add_mul, Int.one_mul]
    rw [hspan]
    exact sliceOf_eq_iff

namespace Sample

/-- A window of a millisecond and nearly another, of which slices keep the first. -/
def brief : Duration := ⟨0, 1999999, by decide⟩

def lastBeforeEpoch : Instant := .endOf (-1) (by decide) (by decide)

/-- The nanosecond before 1970 lies in the slice before the one of 1970, not in that. -/
theorem slices_tile_before_epoch :
    let a := new 1 brief.millis
    a.sliceStart (Slice.clamp (-1)) ≤ lastBeforeEpoch ∧
      lastBeforeEpoch < a.sliceStart (Slice.clamp 0) ∧
      a.sliceOf lastBeforeEpoch ≤ a.sliceOf Instant.epoch ∧
      a.sliceOf (a.sliceStart (Slice.clamp (-1))) = Slice.clamp (-1) ∧
      a.sliceOf lastBeforeEpoch = Slice.clamp (-1) := by
  obtain ⟨hstart, hnext, hmono, hround, hslice⟩ := slices_tile_time 1 brief
  have hplace := (hslice (Slice.clamp (-1)) lastBeforeEpoch).mpr (by decide)
  refine ⟨?_, ?_, hmono _ _ (by decide) rfl, hround _ (by decide), hplace⟩
  · have h := hstart lastBeforeEpoch rfl
    rwa [hplace] at h
  · have h := hnext lastBeforeEpoch (by decide)
    rw [hplace] at h
    exact h

def hourly : Duration := ⟨3600, 0, by decide⟩

def leapOf2016 : Instant := ⟨1483228799, 1500000000, by decide, by decide, by decide⟩

def newYear2017 : Instant := .startOf 1483228800 (by decide) (by decide)

/-- The slice of a leap second starts after it, and instants after it are in slices before. -/
theorem leap_second_before_slice :
    leapOf2016 < (new 1 hourly.millis).sliceStart ((new 1 hourly.millis).sliceOf leapOf2016) ∧
      leapOf2016 ≤ newYear2017 ∧
      (new 1 brief.millis).sliceOf newYear2017 < (new 1 brief.millis).sliceOf leapOf2016 := by
  decide

end Sample

end Allocator

end SpoolIndex
