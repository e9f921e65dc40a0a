import Mathlib.Algebra.Group.Nat.Defs
import SpoolIndex.Store.Call

/-!
# Rendered keys are read back

`Key.ofText?_render`: the text of a key is read as that key. A token is such a
text, so a scan goes on after exactly the key that its token was made from
(`Token.bound_after`).
-/

namespace SpoolIndex

namespace Digits

theorem hexValue?_digitChar (h : d < 16) : hexValue? (Nat.digitChar d) = some d := by
  have hall : ∀ d : Fin 16, hexValue? (Nat.digitChar d) = some d.val := by decide
  exact hall ⟨d, h⟩

theorem length_hex (width n : Nat) : (hex width n).length = width := by
  induction width generalizing n with
  | zero => rfl
  | succ width ih => simp [hex, ih]

theorem hexNumber?_hex (width n : Nat) : hexNumber? (hex width n) = some (n % 16 ^ width) := by
  induction width generalizing n with
  | zero => simp [hex, hexNumber?, Nat.mod_one]
  | succ width ih =>
    have hd := hexValue?_digitChar (Nat.mod_lt n (show 0 < 16 by decide))
    have hn : 16 * (n / 16 % 16 ^ width) + n % 16 = n % 16 ^ (width + 1) := by
      rw [Nat.pow_succ', Nat.mod_mul]
      omega
    have ih := ih (n / 16)
    simp only [hexNumber?] at ih ⊢
    simp [hex, List.foldlM_append, ih, hd, hn]

end Digits

namespace Key

theorem length_hex (k : Key) : k.hex.length = 32 := Digits.length_hex 32 k.bits

theorem ofHex?_hex (k : Key) : ofHex? k.hex = some k := by
  have hn : Digits.hexNumber? k.hex = some k.bits := by
    rw [hex, Digits.hexNumber?_hex]
    exact congrArg some (Nat.mod_eq_of_lt k.bits_lt)
  simp only [ofHex?, length_hex, hn, k.bits_lt, ↓reduceIte, ↓reduceDIte]

theorem length_hyphenate (h : digits.length = 32) : (hyphenate digits).length = 36 := by
  simp [hyphenate, h]

theorem groups_append {a b c d e : List Char} (ha : a.length = 8) (hb : b.length = 4)
    (hc : c.length = 4) (hd : d.length = 4) :
    let text := a ++ '-' :: b ++ '-' :: c ++ '-' :: d ++ '-' :: e
    text.take 8 ++ (text.drop 9).take 4 ++ (text.drop 14).take 4 ++ (text.drop 19).take 4 ++
      text.drop 24 = a ++ b ++ c ++ d ++ e := by
  simp [List.drop_append, List.drop_of_length_le, ha, hb, hc, hd]

theorem groups_hyphenate (h : digits.length = 32) :
    (hyphenate digits).take 8 ++ ((hyphenate digits).drop 9).take 4 ++
      ((hyphenate digits).drop 14).take 4 ++ ((hyphenate digits).drop 19).take 4 ++
      (hyphenate digits).drop 24 = digits := by
  have hg := groups_append (a := digits.take 8) (b := (digits.drop 8).take 4)
    (c := (digits.drop 12).take 4) (d := (digits.drop 16).take 4) (e := digits.drop 20)
    (by simp [h]) (by simp [h]) (by simp [h]) (by simp [h])
  have hjoin (m n : Nat) : (digits.drop m).take n ++ digits.drop (m + n) = digits.drop m := by
    rw [← List.drop_drop, List.take_append_drop]
  refine hg.trans ?_
  rw [List.append_assoc, hjoin 16 4, List.append_assoc, hjoin 12 4, List.append_assoc, hjoin 8 4,
    List.take_append_drop]

theorem ofHyphenated?_hyphenate (h : digits.length = 32) :
    ofHyphenated? (hyphenate digits) = ofHex? digits := by
  have hmarks : [8, 13, 18, 23].all (fun i => (hyphenate digits)[i]? = some '-') := by
    simp [hyphenate, List.getElem?_append, h]
  rw [ofHyphenated?, if_pos ⟨length_hyphenate h, hmarks⟩, groups_hyphenate h]

theorem ofText?_render (k : Key) : ofText? k.render = some k := by
  have hl : (hyphenate k.hex).length = 36 := length_hyphenate k.length_hex
  simp only [ofText?, render, String.toList_ofList, hl]
  rw [ofHyphenated?_hyphenate k.length_hex, ofHex?_hex]

end Key

@[simp] theorem Token.bound_none : Token.bound none = .ok none := rfl

@[simp] theorem Token.bound_after (k : Key) : Token.bound (some (.after k)) = .ok (some k) := by
  simp [Token.bound, Token.lastKey, Token.after, Key.ofText?_render, Except.map]

end SpoolIndex
