import SpoolIndex.Store.Memory

/-!
# Laws of the store in memory

What each write does to the three maps, and that rows stay sorted by key with the first row of a
key kept.
-/

namespace SpoolIndex

theorem withValue_same [DecidableEq κ] (map : κ → α) (key : κ) (value : α) :
    withValue map key value key = value := if_pos rfl

theorem withValue_other [DecidableEq κ] (map : κ → α) {key other : κ} (value : α)
    (h : other ≠ key) : withValue map key value other = map other := if_neg h

theorem Key.lt_irrefl (a : Key) : ¬a < a := Nat.lt_irrefl a.bits

theorem Key.lt_trans {a b c : Key} (hab : a < b) (hbc : b < c) : a < c :=
  Nat.lt_trans hab hbc

theorem Key.lt_of_not_lt_of_ne {a b : Key} (hlt : ¬a < b) (hne : a ≠ b) : b < a := by
  have h : a.bits ≠ b.bits := fun h => hne (Key.ext h)
  exact Nat.lt_of_le_of_ne (Nat.le_of_not_lt hlt) (Ne.symm h)

/-- Rows in strictly ascending order of their keys. -/
def SortedByKey (keyOf : α → Key) (rows : List α) : Prop :=
  rows.Pairwise fun a b => keyOf a < keyOf b

/-- A row is there after an insertion if it was there before, or if it is the new one and its key
was free. -/
theorem mem_insertByKey {keyOf : α → Key} {x y : α} {rows : List α} :
    SortedByKey keyOf rows →
      (y ∈ insertByKey keyOf x rows ↔
        y ∈ rows ∨ (y = x ∧ ∀ z ∈ rows, keyOf z ≠ keyOf x)) := by
  induction rows with
  | nil => simp [insertByKey]
  | cons r rows ih =>
    intro hs
    obtain ⟨hr, hs⟩ := List.pairwise_cons.mp hs
    unfold insertByKey
    split
    · rename_i hlt
      have free : ∀ z ∈ r :: rows, keyOf z ≠ keyOf x := by
        intro z hz he
        rcases List.mem_cons.mp hz with rfl | hz
        · exact Key.lt_irrefl _ (he ▸ hlt)
        · exact Key.lt_irrefl _ (he ▸ Key.lt_trans hlt (hr z hz))
      constructor
      · intro h
        rcases List.mem_cons.mp h with h | h
        · exact .inr ⟨h, free⟩
        · exact .inl h
      · rintro (h | ⟨h, _⟩)
        · exact List.mem_cons_of_mem _ h
        · exact h ▸ List.mem_cons_self
    · split
      · rename_i he
        constructor
        · exact .inl
        · rintro (h | ⟨_, h⟩)
          · exact h
          · exact absurd he.symm (h r List.mem_cons_self)
      · rename_i hne
        rw [List.mem_cons, ih hs, List.mem_cons]
        constructor
        · rintro (h | h | ⟨h, hf⟩)
          · exact .inl (.inl h)
          · exact .inl (.inr h)
          · refine .inr ⟨h, fun z hz => ?_⟩
            rcases List.mem_cons.mp hz with rfl | hz
            · exact Ne.symm hne
            · exact hf z hz
        · rintro ((h | h) | ⟨h, hf⟩)
          · exact .inl h
          · exact .inr (.inl h)
          · exact .inr (.inr ⟨h, fun z hz => hf z (List.mem_cons_of_mem _ hz)⟩)

theorem sortedByKey_insertByKey {keyOf : α → Key} {x : α} {rows : List α}
    (hs : SortedByKey keyOf rows) : SortedByKey keyOf (insertByKey keyOf x rows) := by
  induction rows with
  | nil => simp [insertByKey, SortedByKey]
  | cons r rows ih =>
    obtain ⟨hr, ht⟩ := List.pairwise_cons.mp hs
    unfold insertByKey
    split
    · rename_i hlt
      refine List.pairwise_cons.mpr ⟨fun z hz => ?_, hs⟩
      rcases List.mem_cons.mp hz with rfl | hz
      · exact hlt
      · exact Key.lt_trans hlt (hr z hz)
    · split
      · exact hs
      · rename_i hlt hne
        refine List.pairwise_cons.mpr ⟨fun z hz => ?_, ih ht⟩
        rcases (mem_insertByKey ht).mp hz with hz | ⟨rfl, _⟩
        · exact hr z hz
        · exact Key.lt_of_not_lt_of_ne hlt hne

namespace Store

variable (s : Store) (x : Item) (queue : QueueName) (key : Key) (slice : Slice)

@[simp]
theorem tombstones_append : (s.append x).tombstones = s.tombstones := rfl

@[simp]
theorem start_append : (s.append x).start = s.start := rfl

@[simp]
theorem items_bury : (s.bury queue key).items = s.items := rfl

@[simp]
theorem start_bury : (s.bury queue key).start = s.start := rfl

@[simp]
theorem items_setStart : (s.setStart queue slice).items = s.items := rfl

@[simp]
theorem tombstones_setStart : (s.setStart queue slice).tombstones = s.tombstones := rfl

/-- Appends leave all partitions but the item's own alone. -/
theorem items_append_other {p : Partition} (h : p ≠ x.partition) :
    (s.append x).items p = s.items p := withValue_other _ _ h

theorem items_append_same :
    (s.append x).items x.partition = insertByKey Item.key x (s.items x.partition) :=
  withValue_same _ _ _

/-- Tombstones leave all queues but their own alone. -/
theorem tombstones_bury_other {other : QueueName} (h : other ≠ queue) :
    (s.bury queue key).tombstones other = s.tombstones other := withValue_other _ _ h

theorem tombstones_bury_same :
    (s.bury queue key).tombstones queue = insertByKey id key (s.tombstones queue) :=
  withValue_same _ _ _

/-- A conditional write never lowers a browse start. -/
theorem le_start_of_swapApplies {condition : SwapCondition} {current : Slice}
    (hc : s.start queue = some current) (h : s.swapApplies queue condition slice) :
    current ≤ slice := by
  cases condition with
  | absent => simp [swapApplies, hc] at h
  | below =>
    have : current < slice := by simpa [swapApplies, hc] using h
    exact Int.le_of_lt this

end Store

end SpoolIndex
