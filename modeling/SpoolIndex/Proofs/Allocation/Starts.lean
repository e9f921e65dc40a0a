import SpoolIndex.Proofs.Allocation.Tiling

/-!
# The order of the starts of slices

A slice starts with its first millisecond if that is a date, and with the first date
there is if it is not. This keeps the order for slices that begin before the first
date. Those that begin after the last one get the same start, though, and so start
before slices that they follow. There are such slices whatever the window, and no
others start out of order (`Allocator.starts_out_of_order_iff`).
-/

namespace SpoolIndex

namespace Allocator

variable {a : Allocator} {s u : Slice}

def Dated (a : Allocator) (s : Slice) : Prop :=
  Instant.earliest.millis ≤ s.index * a.window ∧ s.index * a.window ≤ Instant.latest.millis

theorem nanos_sliceStart (h : a.Dated s) :
    (a.sliceStart s).nanos = s.index * a.window * 1000000 := by
  obtain ⟨first, hfirst⟩ := Option.isSome_iff_exists.mp (Instant.isSome_ofMillis?_iff.mpr h)
  rw [sliceStart_of_date hfirst, Instant.nanos_of_ofMillis? hfirst]

theorem sliceStart_undated (h : ¬a.Dated s) : a.sliceStart s = Instant.earliest := by
  have hnone : Instant.ofMillis? (s.index * a.window) = none :=
    Option.not_isSome_iff_eq_none.mp (mt Instant.isSome_ofMillis?_iff.mp h)
  rw [sliceStart_eq, hnone, Option.getD_none]

/-- Nothing starts before a slice that begins before or with the first date, and nothing but
the slices that begin after the last date starts before a slice that it follows. -/
theorem sliceStart_lt_iff (h : s ≤ u) : a.sliceStart u < a.sliceStart s ↔
    Instant.earliest.millis < s.index * a.window ∧ s.index * a.window ≤ Instant.latest.millis ∧
      Instant.latest.millis < u.index * a.window := by
  have hle : s.index * a.window ≤ u.index * a.window :=
    Int.mul_le_mul_of_nonneg_right h (Int.le_of_lt a.window_pos_int)
  have hearliest := Instant.nanos_earliest
  rw [Instant.lt_iff_nanos_lt (a.inLeapSecond_sliceStart u) (a.inLeapSecond_sliceStart s)]
  by_cases hs : a.Dated s
  · have hs' := nanos_sliceStart hs
    by_cases hu : a.Dated u
    · -- two dates are in the order of their milliseconds
      have hu' := nanos_sliceStart hu
      unfold Dated at hu
      omega
    · -- `u` is not before `s`, so it can only begin after the last date
      rw [sliceStart_undated hu]
      unfold Dated at hs hu
      omega
  · have hfirst := (a.sliceStart u).nanos_earliest_le
    rw [sliceStart_undated hs]
    unfold Dated at hs
    omega

/-- A window has at least a millisecond, so the last slices are beyond the dates. -/
theorem sliceStart_max_lt (a : Allocator) :
    a.sliceStart Slice.max < a.sliceStart (Slice.clamp 0) := by
  have hzero : (Slice.clamp 0).index = 0 := rfl
  have hlast : Slice.highest ≤ Slice.max.index * a.window := by
    rw [Slice.index_max]
    calc Slice.highest = Slice.highest * 1 := (Int.mul_one _).symm
      _ ≤ Slice.highest * a.window := Int.mul_le_mul_of_nonneg_left a.window_pos_int (by decide)
  rw [sliceStart_lt_iff (Slice.le_max _), hzero, Int.zero_mul]
  exact ⟨by decide, by decide, Int.lt_of_lt_of_le (by decide) hlast⟩

/-- A slice that begins with a date starts there, and one that does not starts with the first date,
on whichever side of the dates it is. So a slice starts before one that it follows if and only if
it begins after the last date and the other one with a date other than the first. This happens
with every window. -/
theorem starts_out_of_order_iff (buckets : UInt32) (window : Duration) :
    let a := new buckets window.millis
    let width : Int := window.width
    let first := Instant.earliest.millis
    let last := Instant.latest.millis
    (∀ s, first ≤ s.index * width → s.index * width ≤ last →
      (a.sliceStart s).nanos = s.index * width * 1000000) ∧
    (∀ s, s.index * width < first ∨ last < s.index * width → a.sliceStart s = Instant.earliest) ∧
    (∀ s u, s ≤ u → (a.sliceStart u < a.sliceStart s ↔
      first < s.index * width ∧ s.index * width ≤ last ∧ last < u.index * width)) ∧
    a.sliceStart Slice.max < a.sliceStart (Slice.clamp 0) ∧
    ∀ s, (a.sliceStart s).inLeapSecond = false := by
  intro a width first last
  refine ⟨fun s hfirst hlast => nanos_sliceStart ⟨hfirst, hlast⟩, ?_, fun s u => sliceStart_lt_iff,
    a.sliceStart_max_lt, a.inLeapSecond_sliceStart⟩
  intro s hout
  apply sliceStart_undated
  rintro ⟨hfirst, hlast⟩
  rcases hout with hearly | hlate
  · exact Int.not_lt.mpr hfirst hearly
  · exact Int.not_lt.mpr hlast hlate

namespace Sample

/-- The slice of the last hour there is. -/
def lastHour : Slice := Slice.clamp 2280629687

/-- The slice after that of the last hour starts with the first date. -/
theorem hourAfterLast_starts_first :
    let a := new 1 hourly.millis
    lastHour ≤ lastHour.next ∧ a.sliceStart lastHour.next < a.sliceStart lastHour ∧
      (a.sliceStart lastHour).nanos = Instant.latest.nanos - 3599999999999 ∧
      a.sliceStart lastHour.next = Instant.earliest := by
  obtain ⟨hdated, hundated, horder, -⟩ := starts_out_of_order_iff 1 hourly
  have hnext : lastHour ≤ lastHour.next := by decide
  refine ⟨hnext, (horder _ _ hnext).mpr (by decide), ?_, hundated _ (by decide)⟩
  exact hdated lastHour (by decide) (by decide)

end Sample

end Allocator

end SpoolIndex
