import Mathlib.Algebra.Group.Nat.Defs
import SpoolIndex.Text.Digits

/-!
# Runs of digits are read back

A padded number is a run of digits that stands for the number (`value_padded`), and a
run is taken off the text whole if no digit follows it (`takeRun_append`). The text of
an integer is a run of digits, perhaps with a sign in front, and tells the integer
(`toString_inj`).
-/

namespace SpoolIndex.Digits

theorem of_isDigit {P : Char → Prop} {c : Char} (h : ∀ n < 10, P (Char.ofNat (48 + n)))
    (hc : c.isDigit) : P c := by
  obtain ⟨hlow, hhigh⟩ : 48 ≤ c.toNat ∧ c.toNat ≤ 57 := by
    simpa [Char.isDigit, UInt32.le_iff_toNat_le] using hc
  have hp := h (c.toNat - 48) (by omega)
  rwa [show 48 + (c.toNat - 48) = c.toNat by omega, Char.ofNat_toNat] at hp

theorem isDigit_of_mem_padded (h : c ∈ padded width n) : c.isDigit := by
  rcases List.mem_append.mp h with h | h
  · obtain ⟨-, rfl⟩ := List.mem_replicate.mp h
    rfl
  · exact Nat.isDigit_of_mem_toDigits (by decide) (by decide) h

@[simp] theorem value_padded (width n : Nat) : value (padded width n) = n := by
  simp [value, padded, Nat.ofDigitChars_append, Nat.ofDigitChars_replicate_zero,
    Nat.ofDigitChars_ten_toDigits]

theorem scaled_eq (n zeros : Nat) : scaled n zeros = n * 10 ^ zeros := rfl

@[simp] theorem scaled_zero (n : Nat) : scaled n 0 = n := Nat.mul_one n

theorem length_padded (hw : 0 < width) (h : n < 10 ^ width) : (padded width n).length = width := by
  have hle := (Nat.length_toDigits_le_iff (b := 10) (by decide) hw).mpr h
  simp only [padded, List.length_append, List.length_replicate]
  omega

theorem padded_ne_nil (width n : Nat) : padded width n ≠ [] := by
  simp [padded, Nat.toDigits_ne_nil]

theorem exists_toDigits (n : Nat) : ∃ d ds, Nat.toDigits 10 n = d :: ds ∧ d.isDigit := by
  obtain ⟨d, ds, hds⟩ := List.exists_cons_of_ne_nil (Nat.toDigits_ne_nil (n := n) (b := 10))
  have hd : d ∈ Nat.toDigits 10 n := hds ▸ List.mem_cons_self
  exact ⟨d, ds, hds, Nat.isDigit_of_mem_toDigits (by decide) (by decide) hd⟩

theorem exists_padded (width n : Nat) : ∃ d ds, padded width n = d :: ds ∧ d.isDigit := by
  obtain ⟨d, ds, hds⟩ := List.exists_cons_of_ne_nil (padded_ne_nil width n)
  exact ⟨d, ds, hds, isDigit_of_mem_padded (hds ▸ List.mem_cons_self)⟩

theorem toList_toString (n : Int) : (toString n).toList =
    if 0 ≤ n then Nat.toDigits 10 n.toNat else '-' :: Nat.toDigits 10 (-n).toNat := by
  rw [Int.toString_eq_repr, Int.repr_eq_if]
  split <;> simp [Nat.repr_eq_ofList_toDigits]

theorem of_mem_toString {n : Int} (h : c ∈ (toString n).toList) : c = '-' ∨ c.isDigit := by
  have hdigit {m : Nat} (hm : c ∈ Nat.toDigits 10 m) : c.isDigit :=
    Nat.isDigit_of_mem_toDigits (by decide) (by decide) hm
  rw [toList_toString] at h
  split at h
  · exact .inr (hdigit h)
  · exact (List.mem_cons.mp h).imp_right hdigit

theorem toDigits_inj {m n : Nat} (h : Nat.toDigits 10 m = Nat.toDigits 10 n) : m = n := by
  have hvalue := congrArg value h
  rwa [value, Nat.ofDigitChars_ten_toDigits, value, Nat.ofDigitChars_ten_toDigits] at hvalue

theorem toString_inj {m n : Int} (h : (toString m).toList = (toString n).toList) : m = n := by
  have hsign {k : Nat} {digits : List Char} : Nat.toDigits 10 k ≠ '-' :: digits := by
    intro he
    have hminus : '-' ∈ Nat.toDigits 10 k := he ▸ List.mem_cons_self
    exact absurd (Nat.isDigit_of_mem_toDigits (by decide) (by decide) hminus) (by decide)
  rw [toList_toString, toList_toString] at h
  split at h <;> split at h
  · have hdigits := toDigits_inj h
    omega
  · exact absurd h hsign
  · exact absurd h.symm hsign
  · have hdigits := toDigits_inj (List.cons.inj h).2
    omega

def Ends (rest : List Char) : Prop := ∀ c, rest.head? = some c → c.isDigit = false

theorem ends_cons (h : c.isDigit = false) : Ends (c :: rest) := by
  rintro d hd
  cases hd
  exact h

theorem takeRun_append {ds rest : List Char} (hd : ∀ c ∈ ds, c.isDigit) (hl : ds.length ≤ limit)
    (hr : ds.length < limit → Ends rest) : takeRun limit (ds ++ rest) = (ds, rest) := by
  have hrest : (rest.take (limit - ds.length)).takeWhile Char.isDigit = [] := by
    cases rest with
    | nil => simp
    | cons c rest =>
      cases hroom : limit - ds.length with
      | zero => rfl
      | succ room => simp [hr (by omega) c rfl]
  have hrun : ((ds ++ rest).take limit).takeWhile Char.isDigit = ds := by
    rw [List.take_append, List.take_of_length_le hl, List.takeWhile_append_of_pos hd, hrest,
      List.append_nil]
  simp [takeRun, hrun]

end SpoolIndex.Digits
