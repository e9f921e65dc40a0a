import SpoolIndex.Partition

/-!
# The order of slices

Slices are ordered as their numbers; `next` and `back` move by the numbers
until they meet an end of the range.
-/

namespace SpoolIndex.Slice

theorem le_def {a b : Slice} : a ≤ b ↔ a.index ≤ b.index := Iff.rfl

theorem lt_def {a b : Slice} : a < b ↔ a.index < b.index := Iff.rfl

theorem ext_index {a b : Slice} (h : a.index = b.index) : a = b := by
  cases a; cases b; cases h; rfl

theorem le_refl (a : Slice) : a ≤ a := Int.le_refl _

theorem le_trans {a b c : Slice} (hab : a ≤ b) (hbc : b ≤ c) : a ≤ c := Int.le_trans hab hbc

theorem lt_of_le_of_ne {a b : Slice} (h : a ≤ b) (hne : a ≠ b) : a < b :=
  Int.lt_iff_le_and_ne.mpr ⟨h, fun he => hne (ext_index he)⟩

theorem not_le {a b : Slice} : ¬a ≤ b ↔ b < a := Int.not_le

theorem not_lt {a b : Slice} : ¬a < b ↔ b ≤ a := Int.not_lt

theorem index_clamp (n : Int) : (clamp n).index = Max.max lowest (Min.min n highest) := by
  by_cases hl : n < lowest
  · simp only [clamp, hl, ↓reduceDIte]
    simp only [lowest, highest] at hl ⊢
    omega
  · by_cases hh : highest < n
    · simp only [clamp, hl, hh, ↓reduceDIte]
      simp only [lowest, highest] at hh ⊢
      omega
    · simp only [clamp, hl, hh, ↓reduceDIte]
      omega

theorem next_le {a b : Slice} (h : a < b) : a.next ≤ b := by
  have hb := b.lowest_le
  rw [lt_def] at h
  rw [le_def, next, index_clamp]
  omega

theorem index_max : max.index = highest := by
  rw [max, index_clamp]
  decide

theorem le_max (a : Slice) : a ≤ max := by
  rw [le_def, index_max]
  exact a.le_highest

theorem index_next {a : Slice} (h : a < max) : a.next.index = a.index + 1 := by
  have ha := a.lowest_le
  rw [lt_def, max, index_clamp] at h
  rw [next, index_clamp]
  simp only [lowest, highest] at h ha ⊢
  omega

theorem next_index_le (a : Slice) : a.next.index ≤ a.index + 1 := by
  have ha := a.lowest_le
  rw [next, index_clamp]
  simp only [lowest, highest] at ha ⊢
  omega

end SpoolIndex.Slice
