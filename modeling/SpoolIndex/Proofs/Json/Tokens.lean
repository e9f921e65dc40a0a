import SpoolIndex.Json.Reader
import SpoolIndex.Json.Writer
import SpoolIndex.Proofs.Key.Rendering
import SpoolIndex.Proofs.Text.Digits

/-!
# Written strings and integers are read back

Whatever characters a string has, it is read from its quoted text (`string?_quoted`),
and integers of 64 bits, signed or not, are read as they are (`number?_int`).
-/

namespace SpoolIndex.Json.Reader

variable {strict : Bool} {rest : List Char}

-- ---------------------------------------------------------------------------
-- Strings
-- ---------------------------------------------------------------------------

theorem unit?_hex (n : Nat) : unit? (Digits.hex 4 n ++ rest) = some (n % 65536, rest) := by
  have hread := Digits.hexNumber?_hex 4 n
  match h : Digits.hex 4 n, Digits.length_hex 4 n with
  | [a, b, c, d], _ =>
    rw [h] at hread
    simp [unit?, hread]

theorem unicodeEscape?_hex {c : Char} (h : c < ' ') :
    unicodeEscape? strict (Digits.hex 4 c.toNat ++ rest) = some (c, rest) := by
  have hlt : c.toNat < 32 := h
  have hmod : c.toNat % 65536 = c.toNat := Nat.mod_eq_of_lt (by omega)
  have hlow : c.toNat < 0xD800 ∨ 0xE000 ≤ c.toNat := by omega
  simp [unicodeEscape?, unit?_hex, hmod, hlow]

theorem stringBody?_plain {c : Char} (hquote : c ≠ '"') (hescape : c ≠ '\\') (h : ¬c < ' ')
    (steps : Nat) : stringBody? strict (steps + 1) (c :: rest) =
      (do let (cs, rest) ← stringBody? strict steps rest; some (c :: cs, rest)) := by
  rw [stringBody?]
  · simp [h, hescape]
  all_goals simp_all

theorem stringBody?_escape (c : Char) (steps : Nat) :
    stringBody? strict (steps + 1) (escape c ++ rest) =
      (do let (cs, rest) ← stringBody? strict steps rest; some (c :: cs, rest)) := by
  unfold escape
  split
  case h_8 hquote hescape _ _ _ _ _ =>
    split
    · rename_i hcontrol
      simp [stringBody?, unicodeEscape?_hex hcontrol]
    · rename_i hplain
      exact stringBody?_plain hquote hescape hplain steps
  all_goals simp [stringBody?, simpleEscape?]

theorem length_le_escape (cs : List Char) : cs.length ≤ (cs.flatMap escape).length := by
  have hpos (c : Char) : 0 < (escape c).length := by
    unfold escape
    split
    case h_8 => split <;> simp
    all_goals decide
  induction cs with
  | nil => simp
  | cons c cs ih =>
    have hc := hpos c
    simp only [List.length_cons, List.flatMap_cons, List.length_append]
    omega

theorem stringBody?_escaped {cs : List Char} {steps : Nat} (h : cs.length < steps) :
    stringBody? strict steps (cs.flatMap escape ++ '"' :: rest) = some (cs, rest) := by
  induction cs generalizing steps with
  | nil =>
    obtain ⟨steps, rfl⟩ := Nat.exists_eq_add_one.mpr h
    simp [stringBody?]
  | cons c cs ih =>
    obtain ⟨steps, rfl⟩ := Nat.exists_eq_add_one.mpr (Nat.zero_lt_of_lt h)
    rw [List.flatMap_cons, List.append_assoc, stringBody?_escape, ih (Nat.lt_of_succ_lt_succ h)]
    rfl

theorem string?_quoted (s : String) : string? strict (quoted s ++ rest) = some (s, rest) := by
  have hsteps := length_le_escape s.toList
  have hbody : stringBody? strict (s.toList.flatMap escape ++ '"' :: rest).length
      (s.toList.flatMap escape ++ '"' :: rest) = some (s.toList, rest) := by
    refine stringBody?_escaped ?_
    simp only [List.length_append, List.length_cons]
    omega
  simp only [quoted, List.cons_append, List.append_assoc, List.nil_append, string?, hbody,
    Option.map_some, String.ofList_toList]

-- ---------------------------------------------------------------------------
-- Integers
-- ---------------------------------------------------------------------------

/-- What comes after a value: nothing, the next one or the end of what holds it. -/
def Closes (rest : List Char) : Prop :=
  ∀ c, rest.head? = some c → c = ',' ∨ c = ']' ∨ c = '\x7d'

theorem closes_cons (h : c = ',' ∨ c = ']' ∨ c = '\x7d') : Closes (c :: rest) := by
  rintro d hd
  cases hd
  exact h

theorem Closes.ends (h : Closes rest) : Digits.Ends rest := by
  intro c hc
  rcases h c hc with rfl | rfl | rfl <;> rfl

theorem Closes.integer (h : Closes rest) :
    fraction? rest = some ([], rest) ∧ exponent? rest = some (none, rest) := by
  cases rest with
  | nil => exact ⟨rfl, rfl⟩
  | cons c rest => rcases h c rfl with rfl | rfl | rfl <;> exact ⟨rfl, rfl⟩

theorem head?_toDigits {n : Nat} (h : (Nat.toDigits 10 n).head? = some '0') : n = 0 := by
  induction n using Nat.strongRecOn with
  | _ n ih =>
    by_cases hn : n < 10
    · rw [Nat.toDigits_of_lt_base hn] at h
      exact Nat.digitChar_eq_zero.mp (Option.some.inj h)
    · obtain ⟨d, ds, hds, -⟩ := Digits.exists_toDigits (n / 10)
      rw [Nat.toDigits_of_base_le (by decide) (Nat.le_of_not_lt hn), hds] at h
      have hzero := ih (n / 10) (by omega) (hds ▸ h)
      omega

theorem fitsDouble_of_lt {n : Nat} (h : n < 18446744073709551616) : fitsDouble n 0 := by
  have hlimit : 18446744073709551616 ≤ doubleLimit := by decide +kernel
  have hlt : n < doubleLimit := Nat.lt_of_lt_of_le h hlimit
  simp [fitsDouble, hlt]

theorem unsigned?_toDigits {n : Nat} {negative : Bool} (h : n < 18446744073709551616)
    (hr : Closes rest) : unsigned? strict negative (Nat.toDigits 10 n ++ rest) =
      some (numberValue negative (Nat.toDigits 10 n) [] none, rest) := by
  have hrun : Digits.takeRun (Nat.toDigits 10 n ++ rest).length (Nat.toDigits 10 n ++ rest) =
      (Nat.toDigits 10 n, rest) :=
    Digits.takeRun_append (fun _ => Nat.isDigit_of_mem_toDigits (by decide) (by decide)) (by simp)
      fun _ => hr.ends
  have hzero : ¬((Nat.toDigits 10 n).head? = some '0' ∧ 1 < (Nat.toDigits 10 n).length) := by
    rintro ⟨hhead, hlength⟩
    rw [head?_toDigits hhead] at hlength
    exact absurd hlength (by decide)
  have hvalue : Digits.value (Nat.toDigits 10 n) = n := Nat.ofDigitChars_ten_toDigits
  obtain ⟨hfraction, hexponent⟩ := hr.integer
  have hfits := fitsDouble_of_lt h
  simp only [unsigned?, hrun]
  rw [if_neg (by simpa [Nat.toDigits_ne_nil] using hzero)]
  simp [hfraction, hexponent, hvalue, hfits]

theorem numberValue_toDigits {n : Nat} (h : n < 18446744073709551616) :
    numberValue false (Nat.toDigits 10 n) [] none = .int n := by
  have hvalue : Digits.value (Nat.toDigits 10 n) = n := Nat.ofDigitChars_ten_toDigits
  simp [numberValue, hvalue, h]

theorem numberValue_negative {n : Nat} (hpos : 0 < n) (h : n ≤ 9223372036854775808) :
    numberValue true (Nat.toDigits 10 n) [] none = .int (-n) := by
  have hvalue : Digits.value (Nat.toDigits 10 n) = n := Nat.ofDigitChars_ten_toDigits
  simp [numberValue, hvalue, hpos, h]

theorem number?_toDigits (n : Nat) : number? strict (Nat.toDigits 10 n ++ rest) =
    unsigned? strict false (Nat.toDigits 10 n ++ rest) := by
  obtain ⟨d, ds, hds, hd⟩ := Digits.exists_toDigits n
  have hminus : d ≠ '-' := Digits.of_isDigit (P := (· ≠ '-')) (by decide) hd
  rw [hds, List.cons_append, number?]
  intro rest h
  exact hminus (List.cons.inj h).1

theorem number?_int {n : Int} (hlow : -9223372036854775808 ≤ n) (hhigh : n < 18446744073709551616)
    (hr : Closes rest) : number? strict ((toString n).toList ++ rest) = some (.int n, rest) := by
  rw [Digits.toList_toString]
  split
  · rename_i hn
    rw [number?_toDigits, unsigned?_toDigits (by omega) hr, numberValue_toDigits (by omega),
      Int.toNat_of_nonneg hn]
  · rename_i hn
    have hneg : -((-n).toNat : Int) = n := by omega
    rw [List.cons_append, number?, unsigned?_toDigits (by omega) hr,
      numberValue_negative (by omega) (by omega), hneg]

theorem exists_toString (n : Int) :
    ∃ c cs, (toString n).toList = c :: cs ∧ (c = '-' ∨ c.isDigit) := by
  rw [Digits.toList_toString]
  split
  · obtain ⟨d, ds, hds, hd⟩ := Digits.exists_toDigits n.toNat
    exact ⟨d, ds, hds, .inr hd⟩
  · exact ⟨_, _, rfl, .inl rfl⟩

end SpoolIndex.Json.Reader
