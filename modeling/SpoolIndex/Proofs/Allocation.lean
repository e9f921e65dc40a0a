import SpoolIndex.Allocation
import SpoolIndex.Proofs.Slice
import SpoolIndex.Proofs.Time.Instant

/-!
# Slices of dates

Dates lie well within the slices there are. The slice of a date is therefore the
exact quotient of its milliseconds (`Allocator.index_sliceOf`), and the slice a
settle window before it is exactly as many slices before
(`Allocator.index_back_sliceOf`).
-/

namespace SpoolIndex

namespace Allocator

variable (a : Allocator) (t : Instant)

theorem quotient_bounds :
    -9007199254740992 ≤ t.millis / a.window ∧ t.millis / a.window < 9007199254740992 := by
  have hpos : (0 : Int) < a.window := Int.natCast_pos.mpr a.window_pos
  obtain ⟨hlow, hhigh⟩ := t.millis_bounds
  constructor
  · refine Int.le_ediv_of_mul_le hpos ?_
    have hone : (1 : Int) ≤ a.window := hpos
    omega
  · refine Int.ediv_lt_of_lt_mul hpos ?_
    have hone : (1 : Int) ≤ a.window := hpos
    omega

theorem index_sliceOf : (a.sliceOf t).index = t.millis / a.window := by
  obtain ⟨hlow, hhigh⟩ := a.quotient_bounds t
  rw [sliceOf, Slice.index_clamp]
  simp only [Slice.lowest, Slice.highest]
  omega

theorem index_back_sliceOf (n : UInt32) :
    ((a.sliceOf t).back n).index = (a.sliceOf t).index - n.toNat := by
  obtain ⟨hlow, hhigh⟩ := a.quotient_bounds t
  have hn := n.toNat_lt
  rw [Slice.back, Slice.index_clamp, index_sliceOf]
  simp only [Slice.lowest, Slice.highest]
  omega

end Allocator

end SpoolIndex
