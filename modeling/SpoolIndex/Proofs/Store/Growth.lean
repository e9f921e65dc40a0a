import SpoolIndex.Proofs.Slice
import SpoolIndex.Store.Laws

/-!
# Stores only grow

No call removes a row or a tombstone, replaces a row or lowers a browse start
(`Store.grows_perform`). A row is therefore found by everyone who looks after it
was stored, and a key that has a tombstone keeps it.

`Store.Spares` is what protects a row: its key has a tombstone, or the browse
start has not passed it. One call can break that, a conditional write that raises
the browse start past the row (`Store.spares_perform`).
-/

namespace SpoolIndex

-- ---------------------------------------------------------------------------
-- Rows sorted by key
-- ---------------------------------------------------------------------------

theorem mem_insertByKey_of_mem (h : y ∈ rows) : y ∈ insertByKey keyOf x rows := by
  induction rows with
  | nil => cases h
  | cons r rows ih =>
    unfold insertByKey
    split
    · exact List.mem_cons_of_mem _ h
    · split
      · exact h
      · rcases List.mem_cons.mp h with rfl | h
        · exact List.mem_cons_self
        · exact List.mem_cons_of_mem _ (ih h)

theorem exists_mem_insertByKey (keyOf : α → Key) (x : α) (rows : List α) :
    ∃ y ∈ insertByKey keyOf x rows, keyOf y = keyOf x := by
  induction rows with
  | nil => exact ⟨x, List.mem_cons_self, rfl⟩
  | cons r rows ih =>
    unfold insertByKey
    split
    · exact ⟨x, List.mem_cons_self, rfl⟩
    · split
      · rename_i he
        exact ⟨r, List.mem_cons_self, he.symm⟩
      · obtain ⟨y, hy, he⟩ := ih
        exact ⟨y, List.mem_cons_of_mem _ hy, he⟩

theorem mem_of_mem_insertByKey (h : y ∈ insertByKey keyOf x rows) : y = x ∨ y ∈ rows := by
  induction rows with
  | nil => exact .inl (List.mem_singleton.mp h)
  | cons r rows ih =>
    unfold insertByKey at h
    split at h
    · exact List.mem_cons.mp h
    · split at h
      · exact .inr h
      · rcases List.mem_cons.mp h with rfl | h
        · exact .inr List.mem_cons_self
        · exact (ih h).imp_right (List.mem_cons_of_mem _)

theorem mem_insertByKey_id {keys : List Key} :
    k ∈ insertByKey id key keys ↔ k = key ∨ k ∈ keys := by
  constructor
  · exact mem_of_mem_insertByKey
  · rintro (rfl | h)
    · obtain ⟨y, hy, rfl⟩ := exists_mem_insertByKey id k keys
      exact hy
    · exact mem_insertByKey_of_mem h

theorem SortedByKey.eq_of_key {keyOf : α → Key} (hs : SortedByKey keyOf rows) (hx : x ∈ rows)
    (hy : y ∈ rows) (he : keyOf x = keyOf y) : x = y := by
  induction rows with
  | nil => cases hx
  | cons r rows ih =>
    obtain ⟨hr, hs⟩ := List.pairwise_cons.mp hs
    rcases List.mem_cons.mp hx with hxr | hxt <;> rcases List.mem_cons.mp hy with hyr | hyt
    · rw [hxr, hyr]
    · exact absurd (he ▸ hxr ▸ hr y hyt) (Key.lt_irrefl _)
    · exact absurd (he ▸ hyr ▸ hr x hxt) (Key.lt_irrefl _)
    · exact ih hs hxt hyt

theorem insertByKey_taken {keyOf : α → Key} (hs : SortedByKey keyOf rows)
    (h : ∃ y ∈ rows, keyOf y = keyOf x) : insertByKey keyOf x rows = rows := by
  induction rows with
  | nil => exact nomatch h
  | cons r rows ih =>
    obtain ⟨hr, hs⟩ := List.pairwise_cons.mp hs
    obtain ⟨y, hy, he⟩ := h
    rcases List.mem_cons.mp hy with rfl | hy
    · simp [insertByKey, he, Key.lt_irrefl]
    · have hlt : keyOf r < keyOf x := he ▸ hr y hy
      have hnlt : ¬keyOf x < keyOf r := fun h => Key.lt_irrefl _ (Key.lt_trans hlt h)
      have hne : keyOf x ≠ keyOf r := fun h => Key.lt_irrefl _ (h ▸ hlt)
      simp [insertByKey, hnlt, hne, ih hs ⟨y, hy, he⟩]

theorem insertByKey_again (keyOf : α → Key) (x : α) (rows : List α) :
    insertByKey keyOf x (insertByKey keyOf x rows) = insertByKey keyOf x rows := by
  induction rows with
  | nil => simp [insertByKey, Key.lt_irrefl]
  | cons y rows ih =>
    by_cases hlt : keyOf x < keyOf y
    · simp [insertByKey, hlt, Key.lt_irrefl]
    · by_cases heq : keyOf x = keyOf y
      · simp [insertByKey, heq, Key.lt_irrefl]
      · simp [insertByKey, hlt, heq, ih]

theorem withValue_again [DecidableEq κ] (map : κ → α) (key : κ) (f : α → α)
    (hf : ∀ value, f (f value) = f value) :
    withValue (withValue map key (f (map key))) key (f (withValue map key (f (map key)) key)) =
      withValue map key (f (map key)) := by
  funext other
  by_cases h : other = key <;> simp [withValue, h, hf]

namespace Store

-- ---------------------------------------------------------------------------
-- Growth
-- ---------------------------------------------------------------------------

/-- Every row lies in the partition it names, and partitions are sorted by key. -/
structure Proper (s : Store) : Prop where
  sorted : ∀ p, SortedByKey Item.key (s.items p)
  placed : ∀ p, ∀ x ∈ s.items p, x.partition = p

structure Grows (s s' : Store) : Prop where
  items : ∀ p, ∀ x ∈ s.items p, x ∈ s'.items p
  tombstones : ∀ q, ∀ key ∈ s.tombstones q, key ∈ s'.tombstones q
  start : ∀ q old, s.start q = some old → ∃ new, s'.start q = some new ∧ old ≤ new
  proper : s.Proper → s'.Proper

theorem proper_empty : empty.Proper := ⟨fun _ => .nil, fun _ _ h => nomatch h⟩

theorem Grows.refl (s : Store) : s.Grows s :=
  ⟨fun _ _ h => h, fun _ _ h => h, fun _ old h => ⟨old, h, Slice.le_refl old⟩, id⟩

theorem Grows.trans {s₁ s₂ s₃ : Store} (h : s₁.Grows s₂) (h' : s₂.Grows s₃) : s₁.Grows s₃ where
  items p x hx := h'.items p x (h.items p x hx)
  tombstones q key hk := h'.tombstones q key (h.tombstones q key hk)
  start q old ho := by
    obtain ⟨mid, hm, hle⟩ := h.start q old ho
    obtain ⟨new, hn, hle'⟩ := h'.start q mid hm
    exact ⟨new, hn, Slice.le_trans hle hle'⟩
  proper hs := h'.proper (h.proper hs)

variable {s s' : Store}

theorem mem_append (h : y ∈ (s.append x).items p) : (y = x ∧ p = x.partition) ∨ y ∈ s.items p := by
  by_cases hp : p = x.partition
  · subst hp
    rw [items_append_same] at h
    exact (mem_of_mem_insertByKey h).imp_left fun h => ⟨h, rfl⟩
  · rw [items_append_other _ _ hp] at h
    exact .inr h

theorem proper_append (hs : s.Proper) (x : Item) : (s.append x).Proper where
  sorted p := by
    by_cases hp : p = x.partition
    · subst hp
      rw [items_append_same]
      exact sortedByKey_insertByKey (hs.sorted _)
    · rw [items_append_other _ _ hp]
      exact hs.sorted p
  placed p y hy := by
    rcases mem_append hy with ⟨rfl, rfl⟩ | hy
    · rfl
    · exact hs.placed p y hy

theorem grows_append (s : Store) (x : Item) : s.Grows (s.append x) where
  items p y hy := by
    by_cases hp : p = x.partition
    · subst hp
      rw [items_append_same]
      exact mem_insertByKey_of_mem hy
    · rw [items_append_other _ _ hp]
      exact hy
  tombstones _ _ h := h
  start _ old h := ⟨old, h, Slice.le_refl old⟩
  proper hs := proper_append hs x

theorem mem_tombstones_bury :
    k ∈ (s.bury q key).tombstones q' ↔ (q' = q ∧ k = key) ∨ k ∈ s.tombstones q' := by
  by_cases hq : q' = q
  · subst hq
    simp [bury, withValue_same, mem_insertByKey_id]
  · simp [bury, withValue_other _ _ hq, hq]

theorem sorted_bury (h : ∀ q, SortedByKey id (s.tombstones q)) (q : QueueName) (key : Key) :
    ∀ q', SortedByKey id ((s.bury q key).tombstones q') := by
  intro q'
  by_cases hq : q' = q
  · subst hq
    rw [tombstones_bury_same]
    exact sortedByKey_insertByKey (h q')
  · rw [tombstones_bury_other _ _ _ hq]
    exact h q'

theorem grows_bury (s : Store) (q : QueueName) (key : Key) : s.Grows (s.bury q key) where
  items _ _ h := h
  tombstones _ _ h := mem_tombstones_bury.mpr (.inr h)
  start _ old h := ⟨old, h, Slice.le_refl old⟩
  proper hs := ⟨hs.sorted, hs.placed⟩

theorem start_setStart_same (s : Store) (q : QueueName) (slice : Slice) :
    (s.setStart q slice).start q = some slice := withValue_same _ _ _

theorem start_setStart_other (s : Store) (slice : Slice) (h : q' ≠ q) :
    (s.setStart q slice).start q' = s.start q' := withValue_other _ _ h

theorem setStart_self (h : s.start q = some slice) : s.setStart q slice = s := by
  have hsame : withValue s.start q (some slice) = s.start := by
    funext other
    by_cases ho : other = q
    · rw [ho, withValue_same, h]
    · rw [withValue_other _ _ ho]
  rw [setStart, hsame]

theorem grows_setStart (h : s.swapApplies q condition slice) : s.Grows (s.setStart q slice) where
  items _ _ h := h
  tombstones _ _ h := h
  start q' old ho := by
    by_cases hq : q' = q
    · subst hq
      exact ⟨slice, start_setStart_same s q' slice, le_start_of_swapApplies s q' slice ho h⟩
    · exact ⟨old, by rw [start_setStart_other s slice hq, ho], Slice.le_refl old⟩
  proper hs := ⟨hs.sorted, hs.placed⟩

theorem grows_perform (s : Store) (c : StoreCall) : s.Grows (s.perform c).2 := by
  cases c with
  | appendItem x => exact grows_append s x
  | putTombstone q key => exact grows_bury s q key
  | swapStart q condition slice =>
    simp only [perform]
    split
    · rename_i h
      exact grows_setStart h
    · exact .refl s
  | _ => exact .refl s

-- ---------------------------------------------------------------------------
-- Rows that are there, and browse starts that have not passed them
-- ---------------------------------------------------------------------------

def Holds (s : Store) (p : Partition) (key : Key) : Prop := ∃ x ∈ s.items p, x.key = key

/-- The queue is open, and its browses begin at the slice or before it. -/
def Reaches (s : Store) (q : QueueName) (slice : Slice) : Prop :=
  ∃ start, s.start q = some start ∧ start ≤ slice

/-- The key has a tombstone, or browses still reach the partition. -/
def Spares (s : Store) (p : Partition) (key : Key) : Prop :=
  key ∈ s.tombstones p.queue ∨ s.Reaches p.queue p.slice

/-- Browses that begin at the slice do not miss the partition, if its key has no tombstone. -/
def Admits (s : Store) (p : Partition) (key : Key) (slice : Slice) : Prop :=
  key ∈ s.tombstones p.queue ∨ slice ≤ p.slice

theorem Admits.grows (h : s.Admits p key slice) (hg : s.Grows s') : s'.Admits p key slice :=
  h.imp_left (hg.tombstones _ _)

theorem Spares.admits {start : Slice} (h : s.Spares p key) (hs : s.start p.queue = some start) :
    s.Admits p key start := by
  rcases h with hk | ⟨old, hold, hle⟩
  · exact .inl hk
  · obtain rfl : old = start := Option.some.inj (hold.symm.trans hs)
    exact .inr hle

theorem Holds.grows (h : s.Holds p key) (hg : s.Grows s') : s'.Holds p key := by
  obtain ⟨x, hx, he⟩ := h
  exact ⟨x, hg.items p x hx, he⟩

theorem holds_append (s : Store) (x : Item) : (s.append x).Holds x.partition x.key := by
  rw [Holds, items_append_same]
  exact exists_mem_insertByKey Item.key x _

theorem Reaches.of_grows (h : s'.Reaches q slice) (hg : s.Grows s') (ho : s.start q ≠ none) :
    s.Reaches q slice := by
  obtain ⟨old, hold⟩ := Option.ne_none_iff_exists'.mp ho
  obtain ⟨new, hnew, hle⟩ := hg.start q old hold
  obtain ⟨start, hs, hl⟩ := h
  obtain rfl : new = start := Option.some.inj (hnew.symm.trans hs)
  exact ⟨old, hold, Slice.le_trans hle hl⟩

theorem open_grows (ho : s.start q ≠ none) (hg : s.Grows s') : s'.start q ≠ none := by
  obtain ⟨old, hold⟩ := Option.ne_none_iff_exists'.mp ho
  obtain ⟨new, hnew, -⟩ := hg.start q old hold
  simp [hnew]

theorem perform_swapStart (h : s.swapApplies q condition slice) :
    s.perform (.swapStart q condition slice) = (.ok true, s.setStart q slice) := by
  simp only [perform, h, ↓reduceIte]

theorem perform_swapStart_refused (h : ¬s.swapApplies q condition slice) :
    s.perform (.swapStart q condition slice) = (.ok false, s) := by
  simp only [perform, h]
  rfl

theorem start_of_swapped (h : (s.perform (.swapStart q condition slice)).1 = .ok true) :
    (s.perform (.swapStart q condition slice)).2.start q = some slice := by
  simp only [perform] at h ⊢
  split at h
  · rename_i happ
    simp only [happ, ↓reduceIte]
    exact start_setStart_same s q slice
  · cases h

theorem start_perform {slice : Slice} (h : (s.perform c).2.start q = some slice) :
    s.start q = some slice ∨ ∃ condition, c = .swapStart q condition slice := by
  cases c with
  | swapStart q' condition slice' =>
    simp only [perform] at h
    split at h
    · by_cases hq : q = q'
      · subst hq
        rw [start_setStart_same] at h
        cases h
        exact .inr ⟨condition, rfl⟩
      · rw [start_setStart_other s slice' hq] at h
        exact .inl h
    · exact .inl h
  | _ => exact .inl h

theorem tombstones_perform (h : ∀ q key, c ≠ .putTombstone q key) :
    (s.perform c).2.tombstones = s.tombstones := by
  cases c with
  | putTombstone q key => exact absurd rfl (h q key)
  | swapStart q condition slice =>
    simp only [perform]
    split <;> rfl
  | _ => rfl

theorem sorted_tombstones_perform (h : ∀ q, SortedByKey id (s.tombstones q)) (c : StoreCall) :
    ∀ q, SortedByKey id ((s.perform c).2.tombstones q) := by
  by_cases hc : ∃ q key, c = .putTombstone q key
  · obtain ⟨q, key, rfl⟩ := hc
    exact sorted_bury h q key
  · rw [tombstones_perform fun q key he => hc ⟨q, key, he⟩]
    exact h

theorem items_perform (h : ∀ x, c ≠ .appendItem x) : (s.perform c).2.items = s.items := by
  cases c with
  | appendItem x => exact absurd rfl (h x)
  | swapStart q condition slice =>
    simp only [perform]
    split <;> rfl
  | _ => rfl

theorem open_swapStart_absent (s : Store) (q : QueueName) (slice : Slice) :
    (s.perform (.swapStart q .absent slice)).2.start q ≠ none := by
  simp only [perform]
  split
  · simp [start_setStart_same]
  · rename_i happ
    intro (h : s.start q = none)
    simp [swapApplies, h] at happ

theorem spares_perform (h : s.Spares p key)
    (hc : ∀ slice, c = .swapStart p.queue .below slice → s.Admits p key slice) :
    (s.perform c).2.Spares p key := by
  have hg := grows_perform s c
  rcases h with hk | ⟨old, hold, hle⟩
  · exact .inl (hg.tombstones _ _ hk)
  obtain ⟨new, hnew, -⟩ := hg.start _ _ hold
  cases c with
  | swapStart q condition slice =>
    simp only [perform] at hnew ⊢
    split at hnew
    · rename_i happ
      simp only [happ, ↓reduceIte]
      by_cases hq : p.queue = q
      · subst hq
        cases condition with
        | absent => simp [swapApplies, hold] at happ
        | below =>
          rcases hc slice rfl with hk | hs
          · exact .inl hk
          · exact .inr ⟨slice, start_setStart_same s _ slice, hs⟩
      · exact .inr ⟨old, by rw [start_setStart_other s slice hq, hold], hle⟩
    · rename_i happ
      simp only [happ, Bool.false_eq_true, ↓reduceIte]
      exact .inr ⟨old, hold, hle⟩
  | _ => exact .inr ⟨old, hold, hle⟩

-- ---------------------------------------------------------------------------
-- Calls that are made again
-- ---------------------------------------------------------------------------

theorem swapApplies_setStart (s : Store) (q : QueueName) (condition : SwapCondition)
    (slice : Slice) : ¬(s.setStart q slice).swapApplies q condition slice := by
  cases condition <;> simp [swapApplies, start_setStart_same, Slice.lt_def]

/-- A call leaves nothing more to be done for a second one like it. -/
theorem perform_again (s : Store) (c : StoreCall) :
    ((s.perform c).2.perform c).2 = (s.perform c).2 := by
  cases c with
  | appendItem x =>
    simp only [perform, append]
    rw [withValue_again s.items x.partition _ (insertByKey_again Item.key x)]
  | putTombstone q key =>
    simp only [perform, bury]
    rw [withValue_again s.tombstones q _ (insertByKey_again id key)]
  | swapStart q condition slice =>
    by_cases h : s.swapApplies q condition slice
    · rw [perform_swapStart h, perform_swapStart_refused (s.swapApplies_setStart q condition slice)]
    · have hrefused := perform_swapStart_refused h
      rw [hrefused, hrefused]
  | _ => rfl

end Store

namespace StoreCall

def IsRead : StoreCall → Prop
  | appendItem _ | putTombstone .. | swapStart .. => False
  | _ => True

theorem IsRead.perform (h : IsRead c) (s : Store) : (s.perform c).2 = s := by
  cases c <;> first | rfl | cases h

end StoreCall

end SpoolIndex
