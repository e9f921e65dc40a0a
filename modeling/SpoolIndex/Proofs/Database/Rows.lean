import SpoolIndex.Database.Store
import SpoolIndex.Proofs.Store.Growth
import SpoolIndex.Proofs.Time.Instant

/-!
# Rows and what they were made from

A row of the items table gives back the item it was made from
(`ItemRow.toItem_ofItem`), if the moment of the item is a whole number of
microseconds: anything finer is cut off, and the column knows no leap seconds.
Rows in any order are found sorted by key, as an ordered map keeps them
(`Tables.firstByKey_of_perm`), and the insertion of a row that conflicts with
none is the insertion into such a map (`Tables.filter_insertNew_same`).
-/

namespace SpoolIndex

-- ---------------------------------------------------------------------------
-- Moments and items
-- ---------------------------------------------------------------------------

namespace Instant

def IsStorable (t : Instant) : Prop := t.inLeapSecond = false ∧ 1000 ∣ t.nanos

instance (t : Instant) : Decidable t.IsStorable :=
  inferInstanceAs (Decidable (t.inLeapSecond = false ∧ 1000 ∣ t.nanos))

theorem micros_of_isStorable (h : IsStorable t) : t.micros * 1000 = t.nanos := by
  obtain ⟨-, count, hcount⟩ := h
  have hnanos : t.nanos - micros2000 * 1000 = 1000 * (count - micros2000) := by
    rw [hcount]
    omega
  have hmicros : t.micros = count := by
    rw [micros, hnanos, Int.mul_tdiv_cancel_left _ (by decide)]
    omega
  rw [hmicros, hcount, Int.mul_comm]

theorem ofMicros_micros (h : IsStorable t) : ofMicros t.micros = t := by
  have hread : ofNanos? t.nanos = some t := ofNanos?_eq_some.mpr ⟨rfl, h.1⟩
  rw [ofMicros, micros_of_isStorable h, hread, Option.getD_some]

end Instant

namespace ItemRow

theorem toItem_ofItem (h : x.enqueuedAt.IsStorable) : (ofItem x).toItem = .ok x := by
  have hlt := x.bucket.id.toNat_lt
  have hrange : (0 : Int) ≤ x.bucket.id.toNat ∧ (x.bucket.id.toNat : Int) < 4294967296 := by omega
  have hbucket : UInt32.ofNat (x.bucket.id.toNat : Int).toNat = x.bucket.id := by
    rw [Int.toNat_natCast]
    exact UInt32.ofNat_toNat
  simp only [ofItem, toItem, hrange, and_self, ↓reduceIte, hbucket, Instant.ofMicros_micros h]

theorem mapM_toItem {xs : List Item} (h : ∀ x ∈ xs, x.enqueuedAt.IsStorable) :
    (xs.map ofItem).mapM toItem = .ok xs := by
  induction xs with
  | nil => rfl
  | cons x xs ih =>
    obtain ⟨hx, hxs⟩ := List.forall_mem_cons.mp h
    rw [List.map_cons, List.mapM_cons, toItem_ofItem hx, ih hxs]
    rfl

def isOf (p : Partition) (r : ItemRow) : Bool := r.isIn p.queue p.slice p.bucket.id.toNat

@[simp]
theorem key_ofItem : (ofItem x).key = x.key := rfl

@[simp]
theorem isOf_ofItem {p : Partition} : (ofItem x).isOf p = decide (x.partition = p) := by
  have hbucket : (x.bucket.id.toNat : Int) = p.bucket.id.toNat ↔ x.bucket = p.bucket := by
    rw [Int.natCast_inj, UInt32.toNat_inj]
    cases x.bucket
    cases p.bucket
    simp
  refine Bool.eq_iff_iff.mpr ?_
  simp only [isOf, isIn, ofItem, Bool.and_eq_true, beq_iff_eq, hbucket, Item.partition]
  cases p
  simp [and_assoc]

theorem sameKey_ofItem (r : ItemRow) (x : Item) :
    r.sameKey (ofItem x) = (r.isOf x.partition && r.key == x.key) := rfl

end ItemRow

-- ---------------------------------------------------------------------------
-- Rows sorted by key
-- ---------------------------------------------------------------------------

section
variable {keyOf : α → Key} {x : α} {rows : List α}

theorem insertByKey_free (h : ∀ y ∈ rows, keyOf y ≠ keyOf x) :
    (insertByKey keyOf x rows).Perm (x :: rows) := by
  induction rows with
  | nil => exact .refl _
  | cons r rows ih =>
    obtain ⟨hr, hrows⟩ := List.forall_mem_cons.mp h
    unfold insertByKey
    split
    · exact .refl _
    · rw [if_neg (Ne.symm hr)]
      exact ((ih hrows).cons r).trans (.swap x r rows)

theorem length_insertByKey_le : (insertByKey keyOf x rows).length ≤ rows.length + 1 := by
  induction rows with
  | nil => exact Nat.le_refl _
  | cons r rows ih =>
    unfold insertByKey
    split
    · exact Nat.le_refl _
    · split
      · exact Nat.le_succ _
      · exact Nat.succ_le_succ ih

end

namespace Tables

theorem firstByKey_of_perm {keyOf : α → Key} (hs : SortedByKey keyOf sorted)
    (hp : rows.Perm sorted) : firstByKey keyOf limit rows = sorted.take limit := by
  have hperm : (rows.mergeSort fun a b => keyOf a ≤ keyOf b).Perm sorted :=
    (List.mergeSort_perm rows _).trans hp
  have htrans (a b c : α) (hab : decide (keyOf a ≤ keyOf b)) (hbc : decide (keyOf b ≤ keyOf c)) :
      decide (keyOf a ≤ keyOf c) :=
    decide_eq_true (Nat.le_trans (of_decide_eq_true hab) (of_decide_eq_true hbc))
  have htotal (a b : α) : decide (keyOf a ≤ keyOf b) || decide (keyOf b ≤ keyOf a) := by
    rcases Nat.le_total (keyOf a).bits (keyOf b).bits with h | h
    · exact Bool.or_eq_true_iff.mpr (.inl (decide_eq_true h))
    · exact Bool.or_eq_true_iff.mpr (.inr (decide_eq_true h))
  have hmerged : (rows.mergeSort fun a b => keyOf a ≤ keyOf b).Pairwise fun a b =>
      keyOf a ≤ keyOf b :=
    (List.pairwise_mergeSort htrans htotal rows).imp of_decide_eq_true
  refine congrArg (List.take limit) (hperm.eq_of_pairwise (fun a b ha hb hab hba => ?_) hmerged
    (hs.imp Nat.le_of_lt))
  exact hs.eq_of_key (hperm.mem_iff.mp ha) hb (Key.ext (Nat.le_antisymm hab hba))

theorem insertNew_eq (conflicts : α → Bool) (row : α) (rows : List α) :
    insertNew conflicts row rows =
      if ∃ r ∈ rows, conflicts r then (0, rows) else (1, rows ++ [row]) := by
  simp [insertNew, List.any_eq_true]

theorem filter_insertNew_other (h : here row = false) :
    (insertNew conflicts row rows).2.filter here = rows.filter here := by
  rw [insertNew_eq]
  split
  · rfl
  · simp [h]

theorem filter_insertNew_same (toRow : α → ρ) {keyOf : α → Key} (hs : SortedByKey keyOf sorted)
    (hp : (rows.filter here).Perm (sorted.map toRow)) (hx : here (toRow x))
    (hc : ∀ r ∈ rows, conflicts r → here r)
    (hkey : ∀ y ∈ sorted, conflicts (toRow y) ↔ keyOf y = keyOf x) :
    ((insertNew conflicts (toRow x) rows).2.filter here).Perm
      ((insertByKey keyOf x sorted).map toRow) := by
  have hmem (r : ρ) : r ∈ rows ∧ here r ↔ ∃ y ∈ sorted, toRow y = r := by
    rw [← List.mem_filter, hp.mem_iff, List.mem_map]
  rw [insertNew_eq]
  split
  · rename_i h
    obtain ⟨r, hr, hconf⟩ := h
    obtain ⟨y, hy, rfl⟩ := (hmem r).mp ⟨hr, hc r hr hconf⟩
    rw [insertByKey_taken hs ⟨y, hy, (hkey y hy).mp hconf⟩]
    exact hp
  · rename_i h
    have hfree : ∀ y ∈ sorted, keyOf y ≠ keyOf x := fun y hy he =>
      h ⟨toRow y, ((hmem _).mpr ⟨y, hy, rfl⟩).1, (hkey y hy).mpr he⟩
    rw [List.filter_append, List.filter_cons_of_pos hx]
    refine (List.perm_append_singleton _ _).trans ((hp.cons _).trans ?_)
    exact ((insertByKey_free hfree).map toRow).symm

end Tables

end SpoolIndex
