import SpoolIndex.Proofs.Database.Rows
import SpoolIndex.Proofs.Operation.Paths
import SpoolIndex.Proofs.Store.Page

/-!
# The two stores are interchangeable

The tables mirror the maps in memory (`Tables.Mirrors`): the rows of a partition
are its items in some order, the tombstones of a queue are its keys, and there is
one row for a browse start. Every call keeps it so and gets the same reply from
both (`Mirrors.perform`), so whatever calls are made one after another, the
replies are the same ones (`interchangeable`).
-/

namespace SpoolIndex

def StoreCall.dialogue (perform : σ → (c : StoreCall) → Except Error c.Reply × σ) :
    σ → List StoreCall → List Exchange
  | _, [] => []
  | s, c :: calls => ⟨.store c, (perform s c).1⟩ :: dialogue perform (perform s c).2 calls

namespace StoreCall

def limit : StoreCall → Nat
  | scanItems _ _ limit | scanTombstones _ _ limit => limit
  | _ => 0

def token? : StoreCall → Option Token
  | scanItems _ token _ | scanTombstones _ token _ => token
  | _ => none

def IsStorable : StoreCall → Prop
  | appendItem x => x.enqueuedAt.IsStorable
  | _ => True

instance : (c : StoreCall) → Decidable c.IsStorable
  | appendItem x => inferInstanceAs (Decidable x.enqueuedAt.IsStorable)
  | scanItems .. | hasItems _ | putTombstone .. | hasTombstone .. | scanTombstones .. | readStart _
  | swapStart .. => inferInstanceAs (Decidable True)

end StoreCall

-- ---------------------------------------------------------------------------
-- Tables that mirror a store in memory
-- ---------------------------------------------------------------------------

namespace Tables

structure Mirrors (t : Tables) (s : Store) : Prop where
  items : ∀ p, (t.items.filter (·.isOf p)).Perm ((s.items p).map .ofItem)
  tombstones : ∀ q, (t.tombstones.filter (·.queue == q)).Perm ((s.tombstones q).map (.mk q))
  starts : ∀ q, (t.starts.filter (·.queue == q)).map (·.slice) = (s.start q).toList
  proper : s.Proper
  buried : ∀ q, SortedByKey id (s.tombstones q)
  storable : ∀ p, ∀ x ∈ s.items p, x.enqueuedAt.IsStorable

theorem mirrors_empty : empty.Mirrors .empty where
  items _ := .refl _
  tombstones _ := .refl _
  starts _ := rfl
  proper := Store.proper_empty
  buried _ := .nil
  storable _ _ h := nomatch h

variable {t : Tables} {s : Store}

theorem Mirrors.append (h : t.Mirrors s) (hx : x.enqueuedAt.IsStorable) :
    (t.execute (.insertItem (.ofItem x))).2.Mirrors (s.append x) where
  items p := by
    show ((insertNew (·.sameKey (.ofItem x)) (.ofItem x) t.items).2.filter _).Perm _
    by_cases hp : x.partition = p
    · subst hp
      rw [Store.items_append_same]
      refine filter_insertNew_same ItemRow.ofItem (h.proper.sorted _) (h.items _) (by simp)
        (fun r _ hr => ?_) fun y hy => ?_
      · rw [ItemRow.sameKey_ofItem, Bool.and_eq_true] at hr
        exact hr.1
      · simp [ItemRow.sameKey_ofItem, h.proper.placed _ y hy]
    · rw [filter_insertNew_other (by simpa using hp), Store.items_append_other _ _ (Ne.symm hp)]
      exact h.items p
  tombstones := h.tombstones
  starts := h.starts
  proper := Store.proper_append h.proper x
  buried := h.buried
  storable p y hy := by
    rcases Store.mem_append hy with ⟨rfl, -⟩ | hy
    · exact hx
    · exact h.storable p y hy

theorem Mirrors.bury (h : t.Mirrors s) (q : QueueName) (key : Key) :
    (t.execute (.insertTombstone q key)).2.Mirrors (s.bury q key) where
  items := h.items
  tombstones q' := by
    show ((insertNew (· == ⟨q, key⟩) ⟨q, key⟩ t.tombstones).2.filter _).Perm _
    by_cases hq : q' = q
    · subst hq
      rw [Store.tombstones_bury_same]
      refine filter_insertNew_same (TombstoneRow.mk q') (h.buried _) (h.tombstones _) (by simp)
        (fun r _ hr => ?_) fun y _ => by simp
      obtain rfl := eq_of_beq hr
      simp
    · rw [filter_insertNew_other (by simpa using Ne.symm hq), Store.tombstones_bury_other _ _ _ hq]
      exact h.tombstones q'
  starts := h.starts
  proper := ⟨h.proper.sorted, h.proper.placed⟩
  buried := Store.sorted_bury h.buried q key
  storable := h.storable

theorem Mirrors.setStart {rows : List StartRow} (h : t.Mirrors s)
    (hq : (rows.filter (·.queue == q)).map (·.slice) = [slice])
    (hother : ∀ q', q' ≠ q → rows.filter (·.queue == q') = t.starts.filter (·.queue == q')) :
    Mirrors { t with starts := rows } (s.setStart q slice) where
  items := h.items
  tombstones := h.tombstones
  starts q' := by
    by_cases hq' : q' = q
    · subst hq'
      rw [Store.start_setStart_same]
      exact hq
    · rw [Store.start_setStart_other _ _ hq', hother q' hq']
      exact h.starts q'
  proper := ⟨h.proper.sorted, h.proper.placed⟩
  buried := h.buried
  storable := h.storable

theorem Mirrors.start_of_mem (h : t.Mirrors s) (hr : r ∈ t.starts.filter (·.queue == q)) :
    s.start q = some r.slice := by
  have hmem := List.mem_map_of_mem (f := StartRow.slice) hr
  rw [h.starts q] at hmem
  exact Option.mem_toList.mp hmem

theorem Mirrors.keepStarts {rows : List StartRow} (h : t.Mirrors s)
    (hall : ∀ q, rows.filter (·.queue == q) = t.starts.filter (·.queue == q)) :
    Mirrors { t with starts := rows } s :=
  { h with starts := fun q => by rw [hall q, h.starts q] }

theorem Mirrors.insertStart (h : t.Mirrors s) (q : QueueName) (slice : Slice) :
    ∃ n, (t.execute (.insertStart q slice)).1 = .ok n ∧
      (s.perform (.swapStart q .absent slice)).1 = .ok (n == 1) ∧
      (t.execute (.insertStart q slice)).2.Mirrors (s.perform (.swapStart q .absent slice)).2 := by
  have hrows := h.starts q
  simp only [execute, insertNew_eq]
  cases hs : s.start q with
  | none =>
    rw [hs] at hrows
    have hnone : t.starts.filter (·.queue == q) = [] := List.map_eq_nil_iff.mp hrows
    have hfree : ¬∃ r ∈ t.starts, (r.queue == q) = true := fun ⟨r, hr, hq⟩ =>
      List.filter_eq_nil_iff.mp hnone r hr hq
    simp only [hfree, ↓reduceIte, Store.perform, Store.swapApplies, hs]
    refine ⟨1, rfl, rfl, h.setStart ?_ fun q' hq' => ?_⟩
    · simp [hnone]
    · simp [Ne.symm hq']
  | some old =>
    rw [hs] at hrows
    have htaken : ∃ r ∈ t.starts, (r.queue == q) = true := by
      obtain ⟨r, hr, -⟩ := List.map_eq_singleton_iff.mp hrows
      exact ⟨r, List.mem_filter.mp (hr ▸ List.mem_singleton_self r)⟩
    simp only [htaken, ↓reduceIte, Store.perform, Store.swapApplies, hs, Bool.false_eq_true]
    exact ⟨0, rfl, rfl, h⟩

theorem filter_raiseStart (t : Tables) (q q' : QueueName) (slice : Slice) :
    (t.execute (.raiseStart q slice)).2.starts.filter (·.queue == q') =
      (t.starts.filter (·.queue == q')).map fun r =>
        if q' = q ∧ r.slice < slice then { r with slice } else r := by
  simp only [execute, List.filter_map, Function.comp_def]
  have hqueue : ∀ r : StartRow, (if (r.queue == q && decide (r.slice < slice)) = true then
      { r with slice } else r).queue = r.queue := by
    intro r
    split <;> rfl
  simp only [hqueue]
  refine List.map_congr_left fun r hr => ?_
  obtain rfl : r.queue = q' := by simpa using (List.mem_filter.mp hr).2
  simp

theorem Mirrors.raiseStart (h : t.Mirrors s) (q : QueueName) (slice : Slice) :
    ∃ n, (t.execute (.raiseStart q slice)).1 = .ok n ∧
      (s.perform (.swapStart q .below slice)).1 = .ok (n == 1) ∧
      (t.execute (.raiseStart q slice)).2.Mirrors (s.perform (.swapStart q .below slice)).2 := by
  have hcount : (t.starts.countP fun r => r.queue == q && decide (r.slice < slice)) =
      (s.start q).toList.countP (· < slice) := by
    rw [← h.starts q, List.countP_map, List.countP_filter]
    exact List.countP_congr fun r _ => by simp [and_comm]
  refine ⟨_, rfl, ?_⟩
  rw [hcount]
  have hother : ∀ q', q' ≠ q → (t.execute (.raiseStart q slice)).2.starts.filter (·.queue == q') =
      t.starts.filter (·.queue == q') := by
    intro q' hq'
    rw [filter_raiseStart]
    simp [hq']
  by_cases happ : s.swapApplies q .below slice
  · obtain ⟨old, hold, hlt⟩ : ∃ old, s.start q = some old ∧ old < slice := by
      cases hs : s.start q <;> simp_all [Store.swapApplies]
    obtain ⟨r, hr, rfl⟩ : ∃ r : StartRow, t.starts.filter (·.queue == q) = [r] ∧ r.slice = old :=
      List.map_eq_singleton_iff.mp ((h.starts q).trans (by rw [hold]; rfl))
    simp only [Store.perform, happ, ↓reduceIte]
    refine ⟨by simp [hold, hlt], h.setStart ?_ hother⟩
    refine (congrArg (List.map _) (filter_raiseStart t q q slice)).trans ?_
    simp [hr, hlt]
  · simp only [Store.perform, happ, Bool.false_eq_true, ↓reduceIte]
    have hnlt : ∀ old, s.start q = some old → ¬old < slice := by
      intro old hold hlt
      simp [Store.swapApplies, hold, hlt] at happ
    refine ⟨?_, h.keepStarts fun q' => ?_⟩
    · cases hs : s.start q with
      | none => rfl
      | some old => simp [hnlt old hs]
    · refine (filter_raiseStart t q q' slice).trans ?_
      refine (List.map_congr_left fun r hr => if_neg ?_).trans (List.map_id _)
      rintro ⟨rfl, hlt⟩
      exact hnlt r.slice (h.start_of_mem hr) hlt

theorem afterBound_eq (keyOf : α → Key) (bound : Option Key) (xs : List α) :
    afterBound keyOf bound xs = xs.filter fun x => isAfter bound (keyOf x) := by
  cases bound with
  | none => exact (List.filter_eq_self.mpr fun _ _ => rfl).symm
  | some key => rfl

theorem Mirrors.selectItems (h : t.Mirrors s) (p : Partition) (key : Option Key) (limit : Nat) :
    (t.execute (.selectItems p.queue p.slice p.bucket.id.toNat key limit)).1 =
      .ok (((afterBound Item.key key (s.items p)).take limit).map .ofItem) := by
  have hrows : (t.items.filter fun r => r.isOf p && isAfter key r.key).Perm
      ((afterBound Item.key key (s.items p)).map .ofItem) := by
    have hperm := (h.items p).filter fun r => isAfter key r.key
    rw [List.filter_filter, List.filter_map] at hperm
    simpa only [afterBound_eq, Bool.and_comm, Function.comp_def,
      ItemRow.key_ofItem] using hperm
  have hsorted : SortedByKey ItemRow.key ((afterBound Item.key key (s.items p)).map .ofItem) :=
    List.pairwise_map.mpr (sorted_afterBound (h.proper.sorted p))
  rw [List.map_take]
  exact congrArg Except.ok (firstByKey_of_perm hsorted hrows)

theorem Mirrors.selectTombstones (h : t.Mirrors s) (q : QueueName) (key : Option Key)
    (limit : Nat) : (t.execute (.selectTombstones q key limit)).1 =
      .ok ((afterBound id key (s.tombstones q)).take limit) := by
  have hrows : ((t.tombstones.filter fun r => r.queue == q && isAfter key r.key).map (·.key)).Perm
      (afterBound id key (s.tombstones q)) := by
    have hperm := ((h.tombstones q).filter fun r => isAfter key r.key).map (·.key)
    rw [List.filter_filter, List.filter_map, List.map_map] at hperm
    simpa [afterBound_eq, Bool.and_comm, Function.comp_def] using hperm
  exact congrArg Except.ok (firstByKey_of_perm (sorted_afterBound (h.buried q)) hrows)

theorem Mirrors.itemsExist (h : t.Mirrors s) (p : Partition) :
    (t.execute (.itemsExist p.queue p.slice p.bucket.id.toNat)).1 =
      .ok (!(s.items p).isEmpty) := by
  have hempty := (h.items p).isEmpty_eq
  rw [List.isEmpty_map] at hempty
  rw [← hempty]
  refine congrArg Except.ok (Bool.eq_iff_iff.mpr ?_)
  simp [List.filter_eq_nil_iff, ItemRow.isOf]

theorem Mirrors.tombstoneExists (h : t.Mirrors s) (q : QueueName) (key : Key) :
    (t.execute (.tombstoneExists q key)).1 = .ok ((s.tombstones q).contains key) := by
  have hmem := (h.tombstones q).mem_iff (a := ⟨q, key⟩)
  refine congrArg Except.ok (Bool.eq_iff_iff.mpr ?_)
  simpa using hmem

theorem Mirrors.selectStart (h : t.Mirrors s) (q : QueueName) :
    (t.execute (.selectStart q)).1 = .ok (s.start q).toList := congrArg Except.ok (h.starts q)

end Tables

-- ---------------------------------------------------------------------------
-- Calls
-- ---------------------------------------------------------------------------

namespace Database

variable {d : Database} {s s' : Store}

/-- A database that is ready and not told to fail. -/
structure Mirrors (d : Database) (s : Store) : Prop where
  migrated : d.migration ≠ .missing
  faultless : d.faults = []
  tables : d.tables.Mirrors s

theorem Mirrors.send {stmt : Statement} {reply : stmt.Reply} {f : stmt.Reply → Except Error α}
    (h : d.Mirrors s) (hreply : (d.tables.execute stmt).1 = .ok reply)
    (ht : (d.tables.execute stmt).2.Mirrors s') :
    (d.send stmt f).1 = f reply ∧ (d.send stmt f).2.Mirrors s' := by
  have hstrike : Fault.strike stmt.faultTarget d.faults = (none, []) := by
    rw [h.faultless]
    rfl
  have hexecute : d.execute stmt = (.ok reply, { d with
      tables := (d.tables.execute stmt).2, faults := [], log := .statement stmt :: d.log }) := by
    rw [execute]
    split
    · rename_i hm _
      exact absurd hm h.migrated
    · simp [hstrike, hreply]
  simp only [Database.send, hexecute]
  exact ⟨trivial, h.migrated, rfl, ht⟩

theorem Mirrors.sendAfter {stmt : Option Key → Statement} {token : Option Token}
    {f : (key : Option Key) → (stmt key).Reply → Except Error α} {g : Option Key → α}
    (h : d.Mirrors s)
    (hok : ∀ key, (d.send (stmt key) (f key)).1 = .ok (g key) ∧
      (d.send (stmt key) (f key)).2.Mirrors s) :
    (d.sendAfter token stmt f).1 = (Token.bound token).map g ∧
      (d.sendAfter token stmt f).2.Mirrors s := by
  simp only [Database.sendAfter]
  cases Token.bound token with
  | error e => exact ⟨rfl, h⟩
  | ok key => exact hok key

def maxRows : Nat := 9223372036854775807

theorem take_rowLimit {xs : List α} (h : limit ≤ maxRows ∨ xs.length ≤ maxRows) :
    xs.take (rowLimit limit) = xs.take limit := by
  have hcut : rowLimit limit = min limit maxRows := rfl
  rcases h with h | h
  · rw [hcut, Nat.min_eq_left h]
  · rw [hcut, ← List.take_take, List.take_of_length_le h]

theorem take_rowLimit_afterBound {xs : List α} (keyOf : α → Key) (bound : Option Key)
    (h : limit ≤ maxRows ∨ xs.length ≤ maxRows) :
    (afterBound keyOf bound xs).take (rowLimit limit) = (afterBound keyOf bound xs).take limit := by
  refine take_rowLimit (h.imp_right fun h => Nat.le_trans ?_ h)
  rw [Tables.afterBound_eq]
  exact List.length_filter_le _ _

/-- Whether a scan can be answered by a database: it counts to the limit or to the rows there
are. -/
def Counts (s : Store) : StoreCall → Prop
  | .scanItems p _ limit => limit ≤ maxRows ∨ (s.items p).length ≤ maxRows
  | .scanTombstones q _ limit => limit ≤ maxRows ∨ (s.tombstones q).length ≤ maxRows
  | _ => True

theorem Mirrors.perform (h : d.Mirrors s) (hc : c.IsStorable) (hn : Counts s c) :
    (d.perform c).1 = (s.perform c).1 ∧ (d.perform c).2.Mirrors (s.perform c).2 := by
  cases c with
  | appendItem x => exact h.send rfl (h.tables.append hc)
  | scanItems p token limit =>
    refine h.sendAfter fun key => ?_
    obtain ⟨hreply, hd⟩ := h.send (h.tables.selectItems p key (rowLimit limit)) h.tables
    refine ⟨hreply.trans ?_, hd⟩
    rw [take_rowLimit_afterBound _ _ hn, ItemRow.mapM_toItem fun x hx => ?_]
    · rfl
    · exact h.tables.storable p x (mem_afterBound.mp (List.mem_of_mem_take hx)).1
  | hasItems p => exact h.send (h.tables.itemsExist p) h.tables
  | putTombstone q key => exact h.send rfl (h.tables.bury q key)
  | hasTombstone q key => exact h.send (h.tables.tombstoneExists q key) h.tables
  | scanTombstones q token limit =>
    refine h.sendAfter fun key => ?_
    obtain ⟨hreply, hd⟩ := h.send (h.tables.selectTombstones q key (rowLimit limit)) h.tables
    refine ⟨hreply.trans ?_, hd⟩
    rw [take_rowLimit_afterBound _ _ hn]
    rfl
  | readStart q =>
    obtain ⟨hreply, hd⟩ := h.send (h.tables.selectStart q) h.tables
    exact ⟨hreply.trans (by rw [Option.head?_toList]; rfl), hd⟩
  | swapStart q condition slice =>
    cases condition with
    | absent =>
      obtain ⟨n, hn, hs, ht⟩ := h.tables.insertStart q slice
      rw [hs]
      exact h.send hn ht
    | below =>
      obtain ⟨n, hn, hs, ht⟩ := h.tables.raiseStart q slice
      rw [hs]
      exact h.send hn ht

end Database

-- ---------------------------------------------------------------------------
-- Sequences of calls
-- ---------------------------------------------------------------------------

namespace Store

variable {s : Store} {c : StoreCall} {e : Error}

def Within (s : Store) (n : Nat) : Prop :=
  (∀ p, (s.items p).length ≤ n) ∧ ∀ q, (s.tombstones q).length ≤ n

theorem length_items_perform_le (s : Store) (c : StoreCall) (p : Partition) :
    ((s.perform c).2.items p).length ≤ (s.items p).length + 1 := by
  cases c with
  | appendItem x =>
    by_cases hp : p = x.partition
    · subst hp
      simp only [perform, items_append_same]
      exact length_insertByKey_le
    · simp only [perform, items_append_other _ _ hp]
      exact Nat.le_succ _
  | swapStart q condition slice =>
    simp only [perform]
    split <;> exact Nat.le_succ _
  | _ => exact Nat.le_succ _

theorem length_tombstones_perform_le (s : Store) (c : StoreCall) (q : QueueName) :
    ((s.perform c).2.tombstones q).length ≤ (s.tombstones q).length + 1 := by
  cases c with
  | putTombstone q' key =>
    by_cases hq : q = q'
    · subst hq
      simp only [perform, tombstones_bury_same]
      exact length_insertByKey_le
    · simp only [perform, tombstones_bury_other _ _ _ hq]
      exact Nat.le_succ _
  | swapStart q' condition slice =>
    simp only [perform]
    split <;> exact Nat.le_succ _
  | _ => exact Nat.le_succ _

theorem Within.perform (h : s.Within n) (c : StoreCall) : (s.perform c).2.Within (n + 1) :=
  ⟨fun p => Nat.le_trans (length_items_perform_le s c p) (Nat.succ_le_succ (h.1 p)),
    fun q => Nat.le_trans (length_tombstones_perform_le s c q) (Nat.succ_le_succ (h.2 q))⟩

theorem invalidToken_of_perform (h : (s.perform c).1 = .error e) :
    ∃ token, c.token? = some token ∧ e = .invalidToken token.text := by
  have hbound : ∀ {α : Type} {token : Option Token} {g : Option Key → α},
      (Token.bound token).map g = .error e → ∃ t, token = some t ∧ e = .invalidToken t.text := by
    intro α token g h
    cases token with
    | none => cases h
    | some t =>
      simp only [Token.bound, Token.lastKey] at h
      split at h <;> cases h
      exact ⟨t, rfl, rfl⟩
  cases c with
  | scanItems p token limit => exact hbound h
  | scanTombstones q token limit => exact hbound h
  | swapStart q condition slice =>
    simp only [perform] at h
    split at h <;> cases h
  | _ => cases h

end Store

namespace Database

open StoreCall (dialogue)

variable {calls : List StoreCall} {d : Database} {s : Store}

theorem Mirrors.dialogue_eq (h : d.Mirrors s) (hs : s.Within n) (hc : ∀ c ∈ calls, c.IsStorable)
    (hn : ∀ c ∈ calls, c.limit ≤ maxRows ∨ n + calls.length ≤ maxRows) :
    dialogue Database.perform d calls = dialogue Store.perform s calls := by
  induction calls generalizing d s n with
  | nil => rfl
  | cons c calls ih =>
    obtain ⟨hcc, hc⟩ := List.forall_mem_cons.mp hc
    obtain ⟨hnc, hn⟩ := List.forall_mem_cons.mp hn
    rw [List.length_cons, Nat.add_comm calls.length, ← Nat.add_assoc] at hnc hn
    have hcounts : Counts s c := by
      have hle : n + 1 + calls.length ≤ maxRows → n ≤ maxRows := by omega
      cases c with
      | scanItems p token limit => exact hnc.imp_right fun h => Nat.le_trans (hs.1 p) (hle h)
      | scanTombstones q token limit => exact hnc.imp_right fun h => Nat.le_trans (hs.2 q) (hle h)
      | _ => trivial
    obtain ⟨hreply, hd⟩ := h.perform hcc hcounts
    simp only [dialogue]
    rw [hreply, ih hd (hs.perform c) hc hn]

theorem exists_of_mem_dialogue {act : σ → (c : StoreCall) → Except Error c.Reply × σ} {now : σ}
    {c : StoreCall} {reply : Except Error c.Reply}
    (h : ⟨.store c, reply⟩ ∈ dialogue act now calls) : ∃ now, (act now c).1 = reply := by
  induction calls generalizing now with
  | nil => cases h
  | cons c' calls ih =>
    cases h with
    | head => exact ⟨now, rfl⟩
    | tail _ h => exact ih h

def migrated : Database := ((new []).migrate).2

theorem mirrors_migrated : migrated.Mirrors .empty := ⟨by decide, rfl, Tables.mirrors_empty⟩

/-- All calls get the same replies from a database and from a store in memory, and the only errors
are about tokens that are none. Moments are stored to the microsecond, so items come back as they
were if theirs are whole microseconds. A limit beyond what a database can count to makes no
difference, as long as there are not that many rows, which no memory could hold. -/
theorem interchangeable (calls : List StoreCall) (hc : ∀ c ∈ calls, c.IsStorable)
    (hn : ∀ c ∈ calls, c.limit ≤ maxRows ∨ calls.length ≤ maxRows) :
    dialogue Database.perform migrated calls = dialogue Store.perform .empty calls ∧
      ∀ (c : StoreCall) (e : Error),
        ⟨.store c, .error e⟩ ∈ dialogue Database.perform migrated calls →
        ∃ token, c.token? = some token ∧ e = .invalidToken token.text := by
  have hnothing : Store.empty.Within 0 := ⟨fun _ => Nat.le_refl 0, fun _ => Nat.le_refl 0⟩
  have heq := mirrors_migrated.dialogue_eq hnothing hc (by simpa using hn)
  refine ⟨heq, fun c e he => ?_⟩
  rw [heq] at he
  obtain ⟨s, hs⟩ := exists_of_mem_dialogue he
  exact Store.invalidToken_of_perform hs

end Database

namespace Sample

def letter (name : String) : Item :=
  (NewItem.new name ⟨"header"⟩ ⟨"body"⟩).placed ⟨"spool"⟩ (.ofNat 7) (.clamp 2, ⟨0⟩) Instant.epoch

/-- Two mails of one key, a full page, a page with a token that is none and one with a limit that
no database can count to; then a browse start that is raised too early, set and raised. -/
def correspondence : List StoreCall :=
  let box : Partition := (letter "").partition
  [.appendItem (letter "first"), .appendItem (letter "second"), .scanItems box none 1,
    .scanItems box (some ⟨"no key"⟩) 1, .scanItems box none (2 ^ 64),
    .swapStart box.queue .below (.clamp 5), .swapStart box.queue .absent (.clamp 4),
    .swapStart box.queue .below (.clamp 5), .readStart box.queue]

theorem correspondence_interchanged :
    (StoreCall.dialogue Database.perform .migrated correspondence).drop 2 =
      let box : Partition := (letter "").partition
      [⟨.store (.scanItems box none 1), .ok ⟨[letter "first"], some (.after (.ofNat 7))⟩⟩,
        ⟨.store (.scanItems box (some ⟨"no key"⟩) 1), .error (.invalidToken "no key")⟩,
        ⟨.store (.scanItems box none (2 ^ 64)), .ok ⟨[letter "first"], none⟩⟩,
        ⟨.store (.swapStart box.queue .below (.clamp 5)), .ok false⟩,
        ⟨.store (.swapStart box.queue .absent (.clamp 4)), .ok true⟩,
        ⟨.store (.swapStart box.queue .below (.clamp 5)), .ok true⟩,
        ⟨.store (.readStart box.queue), .ok (some (.clamp 5))⟩] := by
  have heq := (Database.interchangeable correspondence (by decide) (by decide)).1
  rw [heq]
  rfl

end Sample

end SpoolIndex
