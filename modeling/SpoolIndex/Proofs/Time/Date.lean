import SpoolIndex.Time.Date

/-!
# Dates are read back from their days

The day of a date counted from 1970 gives the date again (`toDays_ofDays`), and every
day is a valid date (`isValid_ofDays`). Both follow from the place of a day in the
cycles of 400, 100 and 4 years, which `exists_cycles` names once.
-/

namespace SpoolIndex.Date

theorem monthDay_spec {day : Nat} (h : day ≤ 365) :
    let d := monthDay day
    dayOfYear d.1 d.2 = day ∧ 1 ≤ d.1 ∧ d.1 ≤ 12 ∧ 1 ≤ d.2 ∧ d.2 ≤ daysInMonth 2000 d.1 ∧
      (d.1 ≤ 2 ↔ 306 ≤ day) ∧ (d.1 = 2 → d.2 = 29 → day = 365) := by
  have hall : ∀ day < 366, let d := monthDay day
      dayOfYear d.1 d.2 = day ∧ 1 ≤ d.1 ∧ d.1 ≤ 12 ∧ 1 ≤ d.2 ∧ d.2 ≤ daysInMonth 2000 d.1 ∧
        (d.1 ≤ 2 ↔ 306 ≤ day) ∧ (d.1 = 2 → d.2 = 29 → day = 365) := by
    decide +kernel
  exact hall day (Nat.lt_succ_of_le h)

/-- The place of a day: its year from March in the cycles of 400, 100 and 4 years, and the day in
that year. Only the last year of a cycle of 4 has 366 days, and not if a century ends with it. -/
structure Cycles (days : Int) (era : Int) (century four one day : Nat) : Prop where
  century_le : century ≤ 3
  four_le : four ≤ 24
  one_le : one ≤ 3
  day_le : day ≤ 365
  leap : day = 365 → one = 3 ∧ (four = 24 → century = 3)
  sum : days + epochOffset =
    146097 * era + 36524 * century + 1461 * four + 365 * one + day

theorem exists_cycles (days : Int) : ∃ era century four one day,
    Cycles days era century four one day ∧
      let year : Int := 400 * era + 100 * century + 4 * four + one
      let d := monthDay day
      ofDays days = ⟨if d.1 ≤ 2 then year + 1 else year, d.1, d.2⟩ := by
  refine ⟨_, _, _, _, _, ?_, rfl⟩
  have hlow := Int.emod_nonneg (days + epochOffset) (show (146097 : Int) ≠ 0 by decide)
  have hhigh := Int.emod_lt_of_pos (days + epochOffset) (show (0 : Int) < 146097 by decide)
  have hsum := Int.mul_ediv_add_emod (days + epochOffset) 146097
  constructor <;> omega

theorem toDays_ofDays (days : Int) : (ofDays days).toDays = days := by
  obtain ⟨era, century, four, one, day, ⟨hc, hf, ho, hd, -, hsum⟩, he⟩ := exists_cycles days
  obtain ⟨hday, -⟩ := monthDay_spec hd
  have hyear (marched : Int) (month : Nat) : (if month ≤ 2
      then (if month ≤ 2 then marched + 1 else marched) - 1
      else (if month ≤ 2 then marched + 1 else marched)) = marched := by
    split <;> omega
  simp only [he, toDays, hyear, hday]
  omega

theorem isLeapYear_iff {year : Int} :
    isLeapYear year ↔ year % 4 = 0 ∧ (year % 100 ≠ 0 ∨ year % 400 = 0) := by
  simp [isLeapYear]

theorem daysInMonth_le (year : Int) (month : Nat) : daysInMonth year month ≤ 31 := by
  unfold daysInMonth
  repeat' split
  all_goals decide

theorem le_daysInMonth {year : Int} {month day : Nat} (h : day ≤ daysInMonth 2000 month)
    (hfeb : month = 2 → day = 29 → isLeapYear year) : day ≤ daysInMonth year month := by
  by_cases hm : month = 2
  · subst hm
    change day ≤ 29 at h
    simp only [daysInMonth]
    split
    · exact h
    · rename_i hcommon
      have hlast : day ≠ 29 := fun hd => hcommon (hfeb rfl hd)
      omega
  · unfold daysInMonth at h ⊢
    split at h <;> simp_all

theorem isValid_ofDays (days : Int) : (ofDays days).IsValid := by
  obtain ⟨era, century, four, one, day, ⟨hc, hf, ho, hd, hleap, -⟩, he⟩ := exists_cycles days
  obtain ⟨-, hm, hm', hd', hlast, -, hfeb⟩ := monthDay_spec hd
  rw [he]
  refine ⟨hm, hm', hd', le_daysInMonth hlast fun hmonth hday => ?_⟩
  obtain ⟨rfl, hcentury⟩ := hleap (hfeb hmonth hday)
  dsimp only at hmonth ⊢
  rw [if_pos (by omega), isLeapYear_iff]
  omega

theorem year_ofDays_bounds {days : Int} (hlow : -96465292 ≤ days) (hhigh : days ≤ 95026236) :
    -262143 ≤ (ofDays days).year ∧ (ofDays days).year ≤ 262142 := by
  obtain ⟨era, century, four, one, day, ⟨hc, hf, ho, hd, hleap, hsum⟩, he⟩ := exists_cycles days
  obtain ⟨-, -, -, -, -, hwinter, -⟩ := monthDay_spec hd
  simp only [he, epochOffset] at hsum ⊢
  split
  · have h306 := hwinter.mp ‹_›
    -- the last years lie in the cycle of the years 262000 to 262399
    have hera : era < 655 ∨ era = 655 := by omega
    rcases hera with hera | rfl <;> omega
  · have h306 := mt hwinter.mpr ‹_›
    omega

end SpoolIndex.Date
