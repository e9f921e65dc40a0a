import SpoolIndex.Proofs.Text.Digits
import SpoolIndex.Proofs.Time.Date
import SpoolIndex.Proofs.Time.Instant
import SpoolIndex.Time.Rfc3339

/-!
# Written moments are read back

`Rfc3339.read?_render_iff`: the text of a moment is read as that moment, in every year
that there is, to the nanosecond, and inside a leap second as well, unless that comes
within a minute, where no clock shows one. Such a moment is written as one of the
second after it.
-/

namespace SpoolIndex

/-- If the instant is in a leap second, this is one at the end of a minute. -/
def Instant.OnClock (t : Instant) : Prop := t.inLeapSecond → t.seconds % 60 = 59

instance (t : Instant) : Decidable t.OnClock := inferInstanceAs (Decidable (_ → _))

namespace Rfc3339

open Digits (padded value takeRun isDigit_of_mem_padded length_padded value_padded takeRun_append
  ends_cons)

variable {rest : List Char}

-- ---------------------------------------------------------------------------
-- Numbers and marks
-- ---------------------------------------------------------------------------

theorem skipBlanks_cons (h : isBlank c = false) : skipBlanks (c :: rest) = c :: rest := by
  simp [skipBlanks, h]

theorem not_isBlank_of_isDigit (h : c.isDigit) : isBlank c = false :=
  Digits.of_isDigit (P := fun c => isBlank c = false) (by decide) h

theorem mark?_cons (h : isBlank c = false) : mark? c (c :: rest) = some rest := by
  simp [mark?, skipBlanks_cons h]

theorem skipBlanks_padded (width n : Nat) :
    skipBlanks (padded width n ++ rest) = padded width n ++ rest := by
  obtain ⟨d, ds, hds, hd⟩ := Digits.exists_padded width n
  rw [hds]
  exact skipBlanks_cons (not_isBlank_of_isDigit hd)

theorem digits?_padded (hl : (padded width n).length ≤ limit)
    (hr : (padded width n).length < limit → Digits.Ends rest) (hn : n ≤ largest) :
    digits? limit (padded width n ++ rest) = some (n, rest) := by
  have hrun := takeRun_append (fun _ => isDigit_of_mem_padded) hl hr
  simp [digits?, hrun, Digits.padded_ne_nil, Nat.not_lt.mpr hn]

theorem field?_padded (hn : n < 100) (hlow : low ≤ n) (hhigh : n ≤ high) :
    field? low high 2 (padded 2 n ++ rest) = some (n, rest) := by
  have hl : (padded 2 n).length = 2 := length_padded (by decide) hn
  have hrun : takeRun 2 (padded 2 n ++ rest) = (padded 2 n, rest) :=
    takeRun_append (fun _ => isDigit_of_mem_padded) (Nat.le_of_eq hl) (by omega)
  have hfits : ¬largest < n := by
    simp only [largest]
    omega
  simp [field?, number?, skipBlanks_padded, hrun, Digits.padded_ne_nil, hfits, hlow, hhigh]

theorem year?_digit (h : c.isDigit) : year? (c :: cs) = (digits? 4 (c :: cs)).bind fun (n, rest) =>
    if -2147483648 ≤ (n : Int) ∧ (n : Int) ≤ 2147483647 then some ((n : Int), rest) else none := by
  obtain ⟨hminus, hplus⟩ : c ≠ '-' ∧ c ≠ '+' :=
    Digits.of_isDigit (P := fun c => c ≠ '-' ∧ c ≠ '+') (by decide) h
  unfold year?
  rw [skipBlanks_cons (not_isBlank_of_isDigit h)]
  split
  · rename_i he
    exact absurd (List.cons.inj he).1 hminus
  · rename_i he
    exact absurd (List.cons.inj he).1 hplus
  · rfl

theorem year?_yearText {year : Int} (hlow : -262143 ≤ year) (hhigh : year ≤ 262142) :
    year? (yearText year ++ '-' :: rest) = some (year, '-' :: rest) := by
  have hends : Digits.Ends ('-' :: rest) := ends_cons rfl
  have hdigits {limit : Nat} (n : Nat) (hl : (padded 4 n).length ≤ limit) (hn : n ≤ 262143) :
      digits? limit (padded 4 n ++ '-' :: rest) = some (n, '-' :: rest) := by
    refine digits?_padded hl (fun _ => hends) ?_
    simp only [largest]
    omega
  unfold yearText
  split
  · rename_i hplain
    have hl : (padded 4 year.toNat).length = 4 := length_padded (by decide) (by omega)
    have hread := hdigits year.toNat (Nat.le_of_eq hl) (by omega)
    obtain ⟨d, ds, hds, hd⟩ := Digits.exists_padded 4 year.toNat
    rw [hds, List.cons_append] at hread ⊢
    rw [year?_digit hd, hread]
    simp only [Option.bind_some, Int.toNat_of_nonneg hplain.1]
    rw [if_pos (by omega)]
  · have hread : digits? (padded 4 year.natAbs ++ '-' :: rest).length _ = _ :=
      hdigits year.natAbs (by simp) (by omega)
    split
    · rename_i hneg
      have hsign : -(year.natAbs : Int) = year := by omega
      have hminus : isBlank '-' = false := rfl
      simp only [year?, List.cons_append, skipBlanks_cons hminus, hread, Option.bind_some, hsign]
      rw [if_pos (by omega)]
    · rename_i hpos
      have hsign : (year.natAbs : Int) = year := by omega
      have hplus : isBlank '+' = false := rfl
      simp only [year?, List.cons_append, skipBlanks_cons hplus, hread, Option.bind_some, hsign]
      rw [if_pos (by omega)]

-- ---------------------------------------------------------------------------
-- Fractions
-- ---------------------------------------------------------------------------

theorem fraction?_padded (hw : 0 < width) (hle : width ≤ 9) (hn : n < 10 ^ width) :
    fraction? ('.' :: padded width n ++ ['Z']) = some (n * 10 ^ (9 - width), ['Z']) := by
  have hl := length_padded hw hn
  have hends : Digits.Ends ['Z'] := ends_cons rfl
  have hrun : takeRun 9 (padded width n ++ ['Z']) = (padded width n, ['Z']) :=
    takeRun_append (fun _ => isDigit_of_mem_padded) (by omega) fun _ => hends
  have hrest : List.dropWhile Char.isDigit ['Z'] = ['Z'] := rfl
  simp [fraction?, hrun, Digits.padded_ne_nil, hl, hrest, Digits.scaled_eq]

theorem fraction?_fractionText (h : nanos < 1000000000) :
    fraction? (fractionText nanos ++ ['Z']) = some (nanos, ['Z']) := by
  unfold fractionText
  split
  · rename_i hzero
    rw [hzero]
    rfl
  split
  · rename_i hmillis
    rw [fraction?_padded (by decide) (by decide) (by omega)]
    exact congrArg some (Prod.ext (by simp only; omega) rfl)
  split
  · rename_i hmicros
    rw [fraction?_padded (by decide) (by decide) (by omega)]
    exact congrArg some (Prod.ext (by simp only; omega) rfl)
  · rw [fraction?_padded (by decide) (by decide) (by omega)]
    simp

-- ---------------------------------------------------------------------------
-- Moments
-- ---------------------------------------------------------------------------

theorem date_split (t : Instant) : (split t).1.IsValid ∧ hasYearInRange (split t).1 ∧
    (split t).1.toDays = t.seconds / 86400 := by
  have hfirst := t.first_le
  have hlast := t.le_last
  simp only [Instant.earliestSecond, Instant.latestSecond] at hfirst hlast
  have hdays : -96465292 ≤ t.seconds / 86400 ∧ t.seconds / 86400 ≤ 95026236 := by
    omega
  obtain ⟨hlow, hhigh⟩ := Date.year_ofDays_bounds hdays.1 hdays.2
  exact ⟨Date.isValid_ofDays _, by simp [split, hasYearInRange, hlow, hhigh], Date.toDays_ofDays _⟩

/-- What a moment is read as: its second, and the fraction, which is that of a leap second if the
number of the second is 60. -/
theorem assemble?_split (t : Instant) :
    let second := (split t).2 % 60 + if t.inLeapSecond then 1 else 0
    assemble? (split t).1 ((split t).2 / 3600) ((split t).2 / 60 % 60) second
        (t.subsecond % 1000000000) 0 =
      if second = 60 then Instant.ofSeconds? t.seconds (t.subsecond % 1000000000 + 1000000000)
      else Instant.ofSeconds? (t.seconds + if t.inLeapSecond then 1 else 0)
        (t.subsecond % 1000000000) := by
  intro second
  obtain ⟨hvalid, hyear, hdays⟩ := date_split t
  have hlast : (split t).2 % 60 < 60 := Nat.mod_lt _ (by decide)
  have hseconds : (split t).1.toDays * 86400 + 3600 * ((split t).2 / 3600 : Nat) +
      60 * ((split t).2 / 60 % 60 : Nat) + ((split t).2 % 60 : Nat) = t.seconds := by
    rw [hdays]
    simp only [split]
    omega
  rw [assemble?, if_pos ⟨hvalid, hyear, by decide, by decide⟩]
  by_cases hsecond : second = 60
  · have h59 : (split t).2 % 60 = 59 := by
      unfold second at hsecond
      split at hsecond <;> omega
    rw [h59] at hseconds
    simp only [hsecond, BEq.rfl, ↓reduceIte]
    congr 1
    omega
  · have hplain : (second == 60) = false := beq_eq_false_iff_ne.mpr hsecond
    simp only [hsecond, hplain, Bool.false_eq_true, ↓reduceIte, Nat.add_zero]
    congr 1
    unfold second
    split <;> omega

theorem read?_render (t : Instant) : read? (render t) =
    if (split t).2 % 60 + (if t.inLeapSecond then 1 else 0) = 60 then
      Instant.ofSeconds? t.seconds (t.subsecond % 1000000000 + 1000000000)
    else Instant.ofSeconds? (t.seconds + if t.inLeapSecond then 1 else 0)
      (t.subsecond % 1000000000) := by
  obtain ⟨⟨hmonth, hmonth', hday, hday'⟩, hyear, -⟩ := date_split t
  obtain ⟨hfirst, hlast⟩ : -262143 ≤ (split t).1.year ∧ (split t).1.year ≤ 262142 := by
    simpa [hasYearInRange] using hyear
  have hmost := Date.daysInMonth_le (split t).1.year (split t).1.month
  have hsecond : (split t).2 < 86400 := by
    simp only [split]
    omega
  have hsub : t.subsecond % 1000000000 < 1000000000 := Nat.mod_lt _ (by decide)
  have hleap : (if t.inLeapSecond then 1 else 0) ≤ 1 := by split <;> decide
  have htext : (render t).toList = yearText (split t).1.year ++
      '-' :: (padded 2 (split t).1.month ++ '-' :: (padded 2 (split t).1.day ++
        'T' :: (padded 2 ((split t).2 / 3600) ++ ':' :: (padded 2 ((split t).2 / 60 % 60) ++
          ':' :: (padded 2 ((split t).2 % 60 + if t.inLeapSecond then 1 else 0) ++
            (fractionText (t.subsecond % 1000000000) ++ ['Z'])))))) := by
    simp [render, dateText, clockText]
  have hdash : isBlank '-' = false := rfl
  have hcolon : isBlank ':' = false := rfl
  rw [read?, htext, year?_yearText hfirst hlast]
  simp only [Option.bind_eq_bind, Option.bind_some, mark?_cons hdash]
  rw [field?_padded (by omega) hmonth hmonth']
  simp only [Option.bind_some, mark?_cons hdash]
  rw [field?_padded (by omega) hday (by omega)]
  simp only [Option.bind_some]
  rw [field?_padded (by omega) (by omega) (by omega)]
  simp only [Option.bind_some, mark?_cons hcolon]
  rw [field?_padded (by omega) (by omega) (by omega)]
  simp only [Option.bind_some, mark?_cons hcolon]
  rw [field?_padded (by omega) (by omega) (by omega)]
  simp only [Option.bind_some]
  rw [fraction?_fractionText hsub]
  exact assemble?_split t

theorem read?_render_iff {t : Instant} : read? (render t) = some t ↔ t.OnClock := by
  have hsub := t.subsecond_lt
  have hminute : ((split t).2 % 60 : Nat) = t.seconds % 60 := by
    simp only [split]
    omega
  rw [read?_render]
  cases hleap : t.inLeapSecond with
  | false =>
    have hwithin : t.subsecond % 1000000000 = t.subsecond :=
      Nat.mod_eq_of_lt (Instant.inLeapSecond_eq_false.mp hleap)
    have hread : Instant.ofSeconds? t.seconds t.subsecond = some t :=
      Instant.ofSeconds?_eq_some.mpr ⟨rfl, rfl⟩
    have hplain : ¬(split t).2 % 60 = 60 := by omega
    simp [hplain, hwithin, hread, Instant.OnClock, hleap]
  | true =>
    have hbeyond : t.subsecond % 1000000000 + 1000000000 = t.subsecond := by
      simp only [Instant.inLeapSecond, decide_eq_true_eq] at hleap
      omega
    have hclock : t.OnClock ↔ (split t).2 % 60 + 1 = 60 := by
      simp only [Instant.OnClock, hleap, forall_const]
      omega
    rw [hclock, if_pos rfl]
    split
    · rename_i hlast
      rw [hbeyond]
      exact iff_of_true (Instant.ofSeconds?_eq_some.mpr ⟨rfl, rfl⟩) hlast
    · rename_i hlast
      refine iff_of_false ?_ hlast
      rw [Instant.ofSeconds?_eq_some]
      omega

end Rfc3339

end SpoolIndex
