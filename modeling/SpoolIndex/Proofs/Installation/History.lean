import SpoolIndex.Proofs.Installation.Records

/-!
# The history of an installation

What an installation stores is settled by the requests that were carried out: a
row is what was recorded first under its key, and as long as it is not deleted,
browses reach it just if some record of its key was acknowledged. `Consistent`
says so; each request keeps it (`Installation.request_consistent`), and so does
all that happens (`Installation.through_consistent`).
-/

namespace SpoolIndex

structure Entry where
  view : View
  now : Instant
  request : Request
  result : Except Error Response

def Entry.item? (e : Entry) : Option Item := e.request.item? e.view e.now e.result

def firstRecorded (past : List Entry) (p : Partition) (key : Key) : Option Item :=
  (past.filterMap Entry.item?).find? fun x => x.partition = p ∧ x.key = key

def Acknowledged (past : List Entry) (p : Partition) (key : Key) : Prop :=
  ∃ e ∈ past, ∃ x, e.item? = some x ∧ x.partition = p ∧ x.key = key ∧ Request.acknowledged e.result

namespace Installation

def entries (w : Installation) : Happening → List Entry
  | .request v seat r => [⟨v, w.now seat.clock, r, (w.run seat (r.perform v).run).1⟩]
  | _ => []

def history (w : Installation) : List Happening → List Entry
  | [] => []
  | h :: happenings => w.entries h ++ (w.happen h).history happenings

end Installation

-- ---------------------------------------------------------------------------
-- One more request
-- ---------------------------------------------------------------------------

section
variable {past : List Entry} {e : Entry} {p : Partition} {key : Key}

theorem firstRecorded_none (he : e.item? = none) :
    firstRecorded (past ++ [e]) p key = firstRecorded past p key := by
  simp [firstRecorded, he]

theorem firstRecorded_some (he : e.item? = some y) : firstRecorded (past ++ [e]) p key =
    (firstRecorded past p key).or (if y.partition = p ∧ y.key = key then some y else none) := by
  simp only [firstRecorded, List.filterMap_append, List.find?_append, List.filterMap_cons, he,
    List.filterMap_nil, List.find?_singleton, decide_eq_true_eq]

theorem firstRecorded_eq_some (h : firstRecorded past p key = some x) :
    x.partition = p ∧ x.key = key := by
  simpa using List.find?_some h

theorem Acknowledged.later (h : Acknowledged past p key) : Acknowledged (past ++ [e]) p key := by
  obtain ⟨e', he', h⟩ := h
  exact ⟨e', List.mem_append_left _ he', h⟩

theorem acknowledged_append (h : Acknowledged (past ++ [e]) p key) : Acknowledged past p key ∨
    ∃ x, e.item? = some x ∧ x.partition = p ∧ x.key = key ∧ Request.acknowledged e.result := by
  obtain ⟨e', he', h⟩ := h
  rcases List.mem_append.mp he' with he' | he'
  · exact .inl ⟨e', he', h⟩
  · rw [List.mem_singleton.mp he'] at h
    exact .inr h

theorem Acknowledged.recorded (h : Acknowledged past p key) :
    ∃ x, firstRecorded past p key = some x := by
  obtain ⟨e, he, x, hx, hp, hk, -⟩ := h
  refine Option.isSome_iff_exists.mp (List.find?_isSome.mpr ⟨x, ?_, by simp [hp, hk]⟩)
  exact List.mem_filterMap.mpr ⟨e, he, hx⟩

end

/-- What a store has to do with the requests before, made by views with this many buckets. -/
structure Consistent (count : UInt32) (past : List Entry) (s : Store) : Prop where
  proper : s.Proper
  rows : ∀ p x, x ∈ s.items p ↔ firstRecorded past p x.key = some x
  bucket : ∀ p, ∀ x ∈ s.items p, p.bucket.id < count
  opened : ∀ p, ∀ x ∈ s.items p, s.start p.queue ≠ none
  spared : ∀ p key, Acknowledged past p key → s.Spares p key
  reached : ∀ p, ∀ x ∈ s.items p, s.Reaches p.queue p.slice → Acknowledged past p x.key

theorem consistent_empty (count : UInt32) : Consistent count [] .empty where
  proper := Store.proper_empty
  rows p x := ⟨fun h => (nomatch h), fun h => (nomatch h)⟩
  bucket _ _ h := nomatch h
  opened _ _ h := nomatch h
  spared _ _ h := by
    obtain ⟨e, he, -⟩ := h
    cases he
  reached _ _ h := nomatch h

namespace Consistent

variable {count : UInt32} {past : List Entry} {e : Entry} {s s' : Store} {y : Item}

theorem free_iff (h : Consistent count past s) :
    firstRecorded past p key = none ↔ ∀ z ∈ s.items p, z.key ≠ key := by
  constructor
  · rintro hnone z hz rfl
    rw [(h.rows p z).mp hz] at hnone
    cases hnone
  · intro hfree
    cases hfirst : firstRecorded past p key with
    | none => rfl
    | some z =>
      obtain ⟨-, rfl⟩ := firstRecorded_eq_some hfirst
      exact absurd rfl (hfree z ((h.rows p z).mpr hfirst))

theorem rows_append (h : Consistent count past s) (he : e.item? = some y) (p : Partition)
    (x : Item) : x ∈ (s.append y).items p ↔ firstRecorded (past ++ [e]) p x.key = some x := by
  rw [firstRecorded_some he, Option.or_eq_some_iff, ← h.rows]
  by_cases hp : p = y.partition
  · subst hp
    rw [Store.items_append_same, mem_insertByKey (h.proper.sorted _)]
    refine or_congr_right ?_
    constructor
    · rintro ⟨rfl, hfree⟩
      exact ⟨h.free_iff.mpr hfree, if_pos ⟨rfl, rfl⟩⟩
    · rintro ⟨hnone, hy⟩
      split at hy
      · rename_i hkey
        cases hy
        exact ⟨rfl, h.free_iff.mp hnone⟩
      · cases hy
  · rw [Store.items_append_other s y hp]
    have hne : ¬(y.partition = p ∧ y.key = x.key) := fun hy => hp hy.1.symm
    simp [hne]

theorem upkeep (h : Consistent count past s) (he : e.item? = none) (hg : s.Grows s')
    (hitems : s'.items = s.items)
    (hspared : ∀ p key, Acknowledged past p key → s'.Spares p key) :
    Consistent count (past ++ [e]) s' where
  proper := hg.proper h.proper
  rows p x := by rw [hitems, h.rows, firstRecorded_none he]
  bucket := hitems ▸ h.bucket
  opened p x hx := Store.open_grows (h.opened p x (hitems ▸ hx)) hg
  spared p key ha := by
    rcases acknowledged_append ha with ha | ⟨x, hx, -⟩
    · exact hspared p key ha
    · rw [he] at hx
      cases hx
  reached p x hx hr := by
    rw [hitems] at hx
    exact (h.reached p x hx (hr.of_grows hg (h.opened p x hx))).later

theorem record (h : Consistent count past s) (he : e.item? = some y) (hg : s.Grows s')
    (hy : Recorded y s (Request.acknowledged e.result) s') (hb : y.bucket.id < count)
    (hspared : ∀ p key, Acknowledged past p key → s'.Spares p key) :
    Consistent count (past ++ [e]) s' where
  proper := hg.proper h.proper
  rows p x := by rw [hy.items, h.rows_append he]
  bucket p x hx := by
    rcases Store.mem_append (hy.items ▸ hx) with ⟨rfl, rfl⟩ | hx
    · exact hb
    · exact h.bucket p x hx
  opened p x hx := by
    rcases Store.mem_append (hy.items ▸ hx) with ⟨rfl, rfl⟩ | hx
    · exact hy.opened
    · exact Store.open_grows (h.opened p x hx) hg
  spared p key ha := by
    rcases acknowledged_append ha with ha | ⟨x, hx, rfl, rfl, hok⟩
    · exact hspared p key ha
    · obtain rfl : y = x := Option.some.inj (he.symm.trans hx)
      exact .inr (hy.reaches.mp hok)
  reached p x hx hr := by
    rcases Store.mem_append (hy.items ▸ hx) with ⟨rfl, rfl⟩ | hx
    · exact ⟨e, by simp, x, he, rfl, rfl, hy.reaches.mpr hr⟩
    · exact (h.reached p x hx (hr.of_grows hg (h.opened p x hx))).later

end Consistent

-- ---------------------------------------------------------------------------
-- Rows that browses go on to reach
-- ---------------------------------------------------------------------------

/-- There is a row of this key, and no browse start has passed it while it was live. -/
def Store.Guards (p : Partition) (key : Key) (s : Store) : Prop :=
  s.Proper ∧ s.Holds p key ∧ s.Spares p key

theorem Contract.alone_spares :
    (Contract.alone (Store.Guards p key) t).Spares p key (·.Holds p key) where
  toOrderly := alone_orderly fun _ h => h.1
  own {c s} hc h :=
    have hg := s.grows_perform c
    ⟨hg.proper h.1, h.2.1.grows hg, hc h.2.2⟩
  opening hf _ := ⟨hf.2.2, hf.2.1⟩
  stable hj hg := hj.grows hg
  looking hj _ := hj

def View.Shares (v : View) (bucketCount : UInt32) (window : UInt64) : Prop :=
  ∃ c : Config, View.create c = .ok v ∧ c.bucketCount = bucketCount ∧ c.sliceWindowSeconds = window

section
variable {v : View} {bucketCount : UInt32} {window : UInt64}

theorem View.Shares.of_config (h : v.Shares bucketCount window) :
    ∃ c : Config, v = .ofConfig c ∧ c.validate = .ok () ∧ c.bucketCount = bucketCount := by
  obtain ⟨c, hc, hb, -⟩ := h
  unfold View.create at hc
  cases hv : c.validate with
  | error e =>
    rw [hv] at hc
    cases hc
  | ok _ =>
    rw [hv] at hc
    cases hc
    exact ⟨c, rfl, hv, hb⟩

theorem View.Shares.pageSize_pos (h : v.Shares bucketCount window) : 0 < v.pageSize := by
  obtain ⟨c, rfl, -⟩ := h.of_config
  exact View.ofConfig_pageSize_pos c

theorem View.Shares.fanOut_pos (h : v.Shares bucketCount window) : 0 < v.fanOut := by
  obtain ⟨c, rfl, -⟩ := h.of_config
  exact View.ofConfig_fanOut_pos c

theorem View.Shares.bucketCount_eq (h : v.Shares bucketCount window) :
    v.allocator.bucketCount = bucketCount := by
  obtain ⟨c, rfl, hv, rfl⟩ := h.of_config
  by_cases hb : c.bucketCount = 0
  · simp [Config.validate, Config.required, hb] at hv
  · simp [View.ofConfig, Allocator.new, hb]

end

-- ---------------------------------------------------------------------------
-- All that happens
-- ---------------------------------------------------------------------------

def Happening.Allowed (bucketCount : UInt32) (window : UInt64) : Happening → Prop
  | request v _ r => v.Shares bucketCount window ∧ r.Keyed
  | _ => True

namespace Installation

variable {v : View} {r : Request} {bucketCount : UInt32} {window : UInt64} {past : List Entry}
  {w : Installation} {s s' : Store} {calls calls' : List StoreCall}

/-- A request takes no row out of reach that was acknowledged. -/
theorem run_spares (hw : w.Stores s calls) (h : Consistent v.allocator.bucketCount past s)
    (hl : 0 < v.pageSize) (ha : Acknowledged past p key)
    (hw' : (w.run seat (r.perform v).run).2.Stores s' calls') : s'.Spares p key := by
  obtain ⟨x, hx⟩ := ha.recorded
  obtain ⟨-, rfl⟩ := firstRecorded_eq_some hx
  have hx := (h.rows p x).mpr hx
  have hguards : s.Guards p x.key := ⟨h.proper, ⟨x, hx, rfl⟩, h.spared p x.key ha⟩
  have hk : (Contract.alone (Store.Guards p x.key) (w.now seat.clock)).Spares p x.key _ :=
    Contract.alone_spares
  have hmaintain (s : Store) := View.maintain_keeps (v := v) (s := s) hk hl (h.bucket p x hx)
  obtain ⟨new, hs, -, ⟨-, -, hspares⟩, -⟩ :=
    run_keeps seat hw hguards (Request.keeps (r := r) hk.toProtects hmaintain)
  obtain ⟨rfl, -⟩ := hs.eq hw'
  exact hspares

theorem request_consistent (hw : w.Stores s calls) (h : Consistent v.allocator.bucketCount past s)
    (hl : 0 < v.pageSize) (hr : r.Keyed)
    (hw' : (w.run seat (r.perform v).run).2.Stores s' calls') (hg : s.Grows s') :
    Consistent v.allocator.bucketCount
      (past ++ [⟨v, w.now seat.clock, r, (w.run seat (r.perform v).run).1⟩]) s' := by
  have hspared (p : Partition) (key : Key) (ha : Acknowledged past p key) : s'.Spares p key :=
    run_spares hw h hl ha hw'
  have hleaves := run_request hw h.proper hr hw'
  cases he : r.item? v (w.now seat.clock) (w.run seat (r.perform v).run).1 with
  | none =>
    rw [he] at hleaves
    exact h.upkeep he hg hleaves hspared
  | some y =>
    rw [he] at hleaves
    exact h.record he hg hleaves.2 hleaves.1.bucket_lt hspared

theorem happen_consistent (hw : w.Stores s calls) (h : Consistent bucketCount past s)
    (ha : Happening.Allowed bucketCount window a) (hw' : (w.happen a).Stores s' calls')
    (hg : s.Grows s') : Consistent bucketCount (past ++ w.entries a) s' := by
  cases a with
  | request v seat r =>
    obtain ⟨hv, hr⟩ := ha
    obtain rfl := hv.bucketCount_eq
    exact request_consistent hw h hv.pageSize_pos hr hw' hg
  | clock | transport =>
    obtain ⟨rfl, -⟩ := Stores.eq hw hw'
    simpa only [entries, List.append_nil] using h

theorem through_consistent (hw : w.Stores s calls) (h : Consistent bucketCount past s)
    (hall : ∀ a ∈ happenings, Happening.Allowed bucketCount window a) :
    ∃ new, (w.through happenings).Stores (s.after new) (new ++ calls) ∧
      Consistent bucketCount (past ++ w.history happenings) (s.after new) := by
  induction happenings generalizing w s calls past with
  | nil =>
    rw [history, List.append_nil]
    exact ⟨[], hw, h⟩
  | cons a happenings ih =>
    obtain ⟨first, hw₁⟩ := happen_stores hw a
    have h₁ := happen_consistent hw h (hall a List.mem_cons_self) hw₁ (s.grows_after first)
    obtain ⟨new, hw', h'⟩ := ih hw₁ h₁ fun b hb => hall b (List.mem_cons_of_mem _ hb)
    rw [← Store.after_append, ← List.append_assoc] at hw'
    rw [← Store.after_append, List.append_assoc] at h'
    exact ⟨new ++ first, hw', h'⟩

end Installation

end SpoolIndex
