import SpoolIndex.Proofs.Browse.Listing
import SpoolIndex.Proofs.Installation.History

/-!
# A browse shows what was recorded

After any run of requests, a browse that is pulled to its end yields just the
items that some record was acknowledged for, that were never deleted and whose
time has come, each as it was first recorded, in order; and this is what the size
counts (`Installation.browse_exact`).
-/

namespace SpoolIndex

theorem Store.mem_tombstones_after {s : Store} :
    key ∈ (s.after calls).tombstones q ↔ .putTombstone q key ∈ calls ∨ key ∈ s.tombstones q := by
  induction calls with
  | nil => simp [after]
  | cons c calls ih =>
    change key ∈ ((s.after calls).perform c).2.tombstones q ↔ _
    rw [List.mem_cons, or_assoc, ← ih]
    by_cases hc : ∃ q' key', c = .putTombstone q' key'
    · obtain ⟨q', key', rfl⟩ := hc
      simp only [perform, mem_tombstones_bury, StoreCall.putTombstone.injEq]
    · have hne (q' : QueueName) (key' : Key) : c ≠ .putTombstone q' key' :=
        fun h => hc ⟨q', key', h⟩
      rw [tombstones_perform hne]
      simp [(hne q key).symm]

-- ---------------------------------------------------------------------------
-- A browse and a count by themselves
-- ---------------------------------------------------------------------------

/-- An item that a browse yields which is alone with the store. -/
structure Browsable (v : View) (q : QueueName) (s : Store) (limit : Slice) (x : Item) : Prop where
  stored : x ∈ s.items x.partition
  queue : x.queue = q
  bucket : x.bucket.id < v.allocator.bucketCount
  live : x.key ∉ s.tombstones q
  reached : s.Reaches q x.slice
  timely : x.slice ≤ limit

section
variable {v : View} {q : QueueName} {s : Store} {t : Instant}

def Listed (v : View) (q : QueueName) (s : Store) (t : Instant) (items : List Item) : Prop :=
  Listing v q (· ≤ v.allocator.sliceOf t) s s (Browse.floor v (s.start q))
    (Browse.opened q (s.start q)) (Browse.Sought (.alone (Eq s) t) v q s s) items

theorem Listed.mem_iff (h : Listed v q s t items) :
    x ∈ items ↔ Browsable v q s (v.allocator.sliceOf t) x := by
  constructor
  · intro hx
    have hvisited := h.visited x hx
    obtain ⟨start, hstart, hle⟩ := Browse.start_le_of_floor hvisited (h.low_le x hx)
    exact ⟨h.stored x hx, hvisited.queue, hvisited.bucket, h.live x hx, ⟨start, hstart, hle⟩,
      hvisited.timely⟩
  · intro hx
    obtain ⟨start, hstart, hle⟩ := hx.reached
    have hsought : Browse.Sought (.alone (Eq s) t) v q s s x := by
      refine ⟨hx.stored, hx.queue, hx.bucket, ?_, hx.live⟩
      rintro _ rfl
      exact hx.timely
    refine h.complete x hsought ?_
    rw [hstart]
    exact Browse.ahead_opened v q hle

theorem Listed.length_eq (h : Listed v q s t items) (h' : Listed v q s t items') :
    items.length = items'.length := by
  have hmem (x : Item) : x ∈ items ↔ x ∈ items' := h.mem_iff.trans h'.mem_iff.symm
  exact ((List.perm_ext_iff_of_nodup h.nodup h'.nodup).mpr hmem).length_eq

theorem Request.browse_listed (hl : 0 < v.pageSize) (hfan : 0 < v.fanOut) (hs : s.Proper) :
    ((browse q Browse.patience).perform v).run.Keeps (.alone (Eq s) t)
      (fun result _ => ∃ items, result = .ok (.browsed (items.map .ok) []) ∧ Listed v q s t items)
      s := by
  have hk : (Contract.alone (Eq s) t).AllowsReads := Contract.alone_same hs
  refine Attempt.keeps_bind.mpr ((Operation.Keeps.alone rfl (Browse.ofQueue_keeps hk)).mono ?_)
  rintro _ _ ⟨⟨rfl, -⟩, rfl⟩
  have hpull : ((Browse.opened q (s.start q)).pullMany v Browse.patience []).Keeps _ _ s :=
    Browse.pullMany_keeps hk hl hfan View.timely_alone hs (Browse.from_opened v q _ s _)
      (Browse.lt_patience v _)
  refine Attempt.keeps_bind.mpr (Attempt.keeps_lift.mpr ((hpull.alone rfl).mono ?_))
  rintro ⟨r, b⟩ _ ⟨⟨items, rfl, hf, hlist⟩, rfl⟩
  have hf : b.failures = [] := hf
  refine ⟨items, ?_, hlist⟩
  rw [hf]
  rfl

theorem View.size_listed (hl : 0 < v.pageSize) (hfan : 0 < v.fanOut) (hs : s.Proper) :
    (v.size q).run.Keeps (.alone (Eq s) t) (fun result _ =>
      ∃ items : List Item, result = .ok items.length ∧ Listed v q s t items) s := by
  have hk : (Contract.alone (Eq s) t).AllowsReads := Contract.alone_same hs
  refine Attempt.keeps_bind.mpr ((Operation.Keeps.alone rfl (Browse.ofQueue_keeps hk)).mono ?_)
  rintro _ _ ⟨⟨rfl, -⟩, rfl⟩
  have hcount : (v.countItems Browse.patience 0 (Browse.opened q (s.start q))).run.Keeps _ _ s :=
    View.countItems_keeps hk hl hfan View.timely_alone hs (Browse.from_opened v q _ s _)
      (Browse.lt_patience v _)
  refine (hcount.alone rfl).mono ?_
  rintro _ _ ⟨⟨items, rfl, hlist⟩, rfl⟩
  exact ⟨items, by rw [Nat.zero_add], hlist⟩

theorem Request.size_listed (hl : 0 < v.pageSize) (hfan : 0 < v.fanOut) (hs : s.Proper) :
    ((size q).perform v).run.Keeps (.alone (Eq s) t)
      (fun result _ => ∃ items : List Item, result = .ok (.counted items.length) ∧
        Listed v q s t items) s := by
  refine Attempt.keeps_bind.mpr ((View.size_listed hl hfan hs).mono ?_)
  rintro _ _ ⟨items, rfl, hlist⟩
  exact ⟨items, rfl, hlist⟩

end

-- ---------------------------------------------------------------------------
-- The whole history
-- ---------------------------------------------------------------------------

/-- An item that is to be shown: a record under its key was acknowledged, and it is what the first
of these records was about; no tombstone was ever written for it, and its time has come. -/
structure Due (past : List Entry) (calls : List StoreCall) (q : QueueName) (limit : Slice)
    (x : Item) : Prop where
  queue : x.queue = q
  acknowledged : Acknowledged past x.partition x.key
  first : firstRecorded past x.partition x.key = some x
  kept : .putTombstone q x.key ∉ calls
  timely : x.slice ≤ limit

theorem Consistent.browsable_iff {v : View} {calls : List StoreCall}
    (h : Consistent v.allocator.bucketCount past (Store.empty.after calls)) :
    Browsable v q (Store.empty.after calls) limit x ↔ Due past calls q limit x := by
  have hburied : x.key ∈ (Store.empty.after calls).tombstones q ↔
      .putTombstone q x.key ∈ calls := by
    rw [Store.mem_tombstones_after]
    exact or_iff_left fun hmem => nomatch hmem
  constructor
  · rintro ⟨hx, rfl, -, hlive, hr, ht⟩
    exact ⟨rfl, h.reached _ x hx hr, (h.rows _ x).mp hx, mt hburied.mpr hlive, ht⟩
  · rintro ⟨rfl, ha, hfirst, hkept, ht⟩
    have hx := (h.rows x.partition x).mpr hfirst
    have hlive := mt hburied.mp hkept
    exact ⟨hx, rfl, h.bucket _ x hx, hlive, (h.spared _ _ ha).resolve_left hlive, ht⟩

namespace Installation

def blank (clocks : List Instant) : Installation := .new (.memory (.new [])) clocks

/-- After any run of requests, by views that share a layout and with keys of the callers, and with
clocks that are set at will, a browse to the end shows what is due, in order and without a failure,
and the size counts it. -/
theorem browse_exact {v : View} (clocks : List Instant) (happenings : List Happening)
    (hall : ∀ a ∈ happenings, Happening.Allowed bucketCount window a)
    (hv : v.Shares bucketCount window) (seat : Seat) (q : QueueName) :
    let w := (blank clocks).through happenings
    ∃ (s : Store) (calls : List StoreCall) (items : List Item), w.Stores s calls ∧
      (w.run seat ((Request.browse q Browse.patience).perform v).run).1 =
        .ok (.browsed (items.map .ok) []) ∧
      (w.run seat ((Request.size q).perform v).run).1 = .ok (.counted items.length) ∧
      items.Pairwise Item.Precedes ∧
      ∀ x, x ∈ items ↔ Due ((blank clocks).history happenings) calls q
        (v.allocator.sliceOf (w.now seat.clock)) x := by
  intro w
  have hblank : (blank clocks).Stores .empty [] := rfl
  obtain ⟨calls, hw, h⟩ := through_consistent hblank (consistent_empty bucketCount) hall
  rw [List.append_nil] at hw
  rw [List.nil_append, ← hv.bucketCount_eq] at h
  have hl := hv.pageSize_pos
  have hfan := hv.fanOut_pos
  obtain ⟨-, -, -, -, items, hbrowse, hlisted⟩ :=
    run_keeps seat hw rfl (Request.browse_listed (q := q) hl hfan h.proper)
  obtain ⟨-, -, -, -, counted, hsize, hlisted'⟩ :=
    run_keeps seat hw rfl (Request.size_listed (q := q) hl hfan h.proper)
  rw [hlisted'.length_eq hlisted] at hsize
  exact ⟨_, calls, items, hw, hbrowse, hsize, hlisted.precedes,
    fun x => hlisted.mem_iff.trans h.browsable_iff⟩

end Installation

namespace Sample

/-- A mail is recorded and another one is enqueued; one of long ago comes too late. The second mail
is deleted, and the first recorded again with other content. Then a clock goes back, maintenance
runs, and the clock goes on. -/
def happenings : List Happening :=
  [.request view seat (.record spool mail),
    .request view seat (.enqueue spool (mail.withKey (.ofNat 1))),
    .request view seat (.recordAt spool (mail.withKey (.ofNat 2)) .epoch),
    .request view seat (.delete spool (.ofNat 1) (.clamp 2)),
    .request view seat (.record spool { mail with name := "again" }),
    .clock 0 .epoch,
    .request view seat (.advance spool),
    .clock 0 twoHours]

def namesShown : Except Error Response → List String
  | .ok (.browsed results _) => results.filterMap fun result => result.toOption.map (·.name)
  | _ => []

theorem happenings_shown : (∀ a ∈ happenings, Happening.Allowed 1 3600 a) ∧ view.Shares 1 3600 ∧
    let w := (Installation.blank [twoHours]).through happenings
    ∃ (s : Store) (calls : List StoreCall) (items : List Item), w.Stores s calls ∧
      (w.run seat ((Request.browse spool Browse.patience).perform view).run).1 =
        .ok (.browsed (items.map .ok) []) ∧
      (w.run seat ((Request.size spool).perform view).run).1 = .ok (.counted items.length) ∧
      items.Pairwise Item.Precedes ∧
      (∀ x, x ∈ items ↔ Due ((Installation.blank [twoHours]).history happenings) calls spool
        (view.allocator.sliceOf (w.now seat.clock)) x) ∧
      items.map Item.name = ["mail"] := by
  have hv : view.Shares 1 3600 := ⟨.default, rfl, rfl, rfl⟩
  have hall : ∀ a ∈ happenings, Happening.Allowed 1 3600 a := by
    simp [happenings, Happening.Allowed, hv, Request.Keyed, mail, NewItem.withKey]
  have hshown : namesShown ((((Installation.blank [twoHours]).through happenings).run seat
      ((Request.browse spool Browse.patience).perform view).run).1) = ["mail"] := by
    decide +kernel
  obtain ⟨s, calls, items, hw, hbrowse, hsize, hsorted, hdue⟩ :=
    Installation.browse_exact [twoHours] happenings hall hv seat spool
  refine ⟨hall, hv, s, calls, items, hw, hbrowse, hsize, hsorted, hdue, ?_⟩
  rw [hbrowse, namesShown, List.filterMap_map] at hshown
  exact (congrFun List.filterMap_eq_map items).symm.trans hshown

end Sample

end SpoolIndex
