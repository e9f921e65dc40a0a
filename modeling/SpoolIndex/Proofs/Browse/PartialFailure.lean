import SpoolIndex.Proofs.Browse.Drain
import SpoolIndex.Proofs.View.Request

/-!
# Browses that fail in part

What a browse to the end yields and reports while some lookups fail is settled
partition by partition: the live items before the first call that fails, and this
failure. The policy says what a failure does to the partitions after it
(`Outage.partial_failure`).
-/

namespace SpoolIndex

-- ---------------------------------------------------------------------------
-- The partitions in range
-- ---------------------------------------------------------------------------

def Partition.Precedes (p p' : Partition) : Prop :=
  p.slice < p'.slice ∨ p.slice = p'.slice ∧ p.bucket.id < p'.bucket.id

theorem Slice.mem_upTo {slice start last : Slice} :
    slice ∈ start.upTo last ↔ start ≤ slice ∧ slice ≤ last := by
  have hlow := start.lowest_le
  have hhigh := last.le_highest
  simp only [upTo, List.mem_map, List.mem_range, le_def]
  constructor
  · rintro ⟨n, hn, rfl⟩
    rw [index_clamp]
    omega
  · rintro ⟨hle, hle'⟩
    refine ⟨(slice.index - start.index).toNat, by omega, ext_index ?_⟩
    rw [index_clamp]
    omega

theorem Slice.upTo_pairwise (start last : Slice) : (start.upTo last).Pairwise (· < ·) := by
  have hlow := start.lowest_le
  have hhigh := last.le_highest
  refine List.pairwise_map.mpr (List.pairwise_lt_range.imp_of_mem fun {m n} hm hn hlt => ?_)
  rw [List.mem_range] at hm hn
  rw [lt_def, index_clamp, index_clamp]
  omega

namespace View

variable {v : View} {q : QueueName}

theorem mem_buckets : p ∈ v.buckets q slice ↔
    p.queue = q ∧ p.slice = slice ∧ p.bucket.id < v.allocator.bucketCount := by
  have hcount := v.allocator.bucketCount.toNat_lt
  simp only [buckets, List.mem_map, List.mem_range, UInt32.lt_iff_toNat_lt]
  constructor
  · rintro ⟨n, hn, rfl⟩
    refine ⟨rfl, rfl, ?_⟩
    rw [UInt32.toNat_ofNat_of_lt' (Nat.lt_trans hn hcount)]
    exact hn
  · obtain ⟨q', slice', ⟨bucket⟩⟩ := p
    rintro ⟨rfl, rfl, hlt⟩
    exact ⟨bucket.toNat, hlt, by rw [UInt32.ofNat_toNat]⟩

theorem buckets_pairwise (v : View) (q : QueueName) (slice : Slice) :
    (v.buckets q slice).Pairwise fun p p' => p.bucket.id < p'.bucket.id := by
  have hcount := v.allocator.bucketCount.toNat_lt
  refine List.pairwise_map.mpr (List.pairwise_lt_range.imp_of_mem fun {m n} hm hn hlt => ?_)
  rw [List.mem_range] at hm hn
  rw [UInt32.lt_iff_toNat_lt, UInt32.toNat_ofNat_of_lt' (Nat.lt_trans hm hcount),
    UInt32.toNat_ofNat_of_lt' (Nat.lt_trans hn hcount)]
  exact hlt

theorem mem_range : p ∈ v.range q start last ↔ p.queue = q ∧
    p.bucket.id < v.allocator.bucketCount ∧ start ≤ p.slice ∧ p.slice ≤ last := by
  simp only [range, List.mem_flatMap, mem_buckets, Slice.mem_upTo]
  constructor
  · rintro ⟨_, hslice, hq, rfl, hb⟩
    exact ⟨hq, hb, hslice⟩
  · rintro ⟨hq, hb, hslice⟩
    exact ⟨p.slice, hslice, hq, rfl, hb⟩

theorem range_pairwise (v : View) (q : QueueName) (start last : Slice) :
    (v.range q start last).Pairwise Partition.Precedes := by
  refine List.pairwise_flatMap.mpr ⟨fun slice _ => ?_, ?_⟩
  · refine (v.buckets_pairwise q slice).imp_of_mem fun {p p'} hp hp' hlt => ?_
    exact .inr ⟨(mem_buckets.mp hp).2.1.trans (mem_buckets.mp hp').2.1.symm, hlt⟩
  · refine (Slice.upTo_pairwise start last).imp fun {slice slice'} hlt p hp p' hp' => .inl ?_
    rw [(mem_buckets.mp hp).2.1, (mem_buckets.mp hp').2.1]
    exact hlt

end View

namespace Outage

-- ---------------------------------------------------------------------------
-- What the policies make of the partitions
-- ---------------------------------------------------------------------------

section
variable (w : Outage) (v : View)

def live (rows : List Item) : List Item :=
  rows.filter fun x => !(w.store.tombstones x.queue).contains x.key

def partitions (q : QueueName) : List Partition :=
  match w.store.start q with
  | none => []
  | some start => v.range q start (v.allocator.sliceOf w.clock)

def failures (ps : List Partition) : List PartitionFailure :=
  ps.filterMap fun p => (w.error? v p).map fun e => ⟨p, e⟩

/-- The items of the partitions up to the first one that fails, and its failure. -/
def untilFailure : List Partition → List (Except Error Item)
  | [] => []
  | p :: ps => (w.items v p).map .ok ++
    match w.error? v p with
    | some e => [.error (.partition p e)]
    | none => untilFailure ps

theorem untilFailure_fanOut (fanOut : Nat) (ps : List Partition) :
    w.untilFailure { v with fanOut } ps = w.untilFailure v ps := by
  induction ps with
  | nil => rfl
  | cons p ps ih => rw [untilFailure, untilFailure, ih]; rfl

theorem entries_eq (p : Partition) : w.entries v p =
    (w.items v p).map .ok ++ (w.error? v p).toList.map fun e => .error ⟨p, e⟩ := by
  rw [entries, entriesOf, outcome_rowsOf]
  rfl

theorem itemsOf_append (items : List Item) (entries : List (Except PartitionFailure Item)) :
    itemsOf (items.map .ok ++ entries) = items ++ itemsOf entries := by
  induction items with
  | nil => rfl
  | cons x items ih => exact congrArg (x :: ·) ih

theorem failuresOf_append (items : List Item) (entries : List (Except PartitionFailure Item)) :
    failuresOf (items.map .ok ++ entries) = failuresOf entries := by
  induction items with
  | nil => rfl
  | cons x items ih => exact ih

theorem itemsOf_entries (ps : List Partition) :
    itemsOf (ps.flatMap (w.entries v)) = ps.flatMap (w.items v) := by
  induction ps with
  | nil => rfl
  | cons p ps ih =>
    rw [List.flatMap_cons, List.flatMap_cons, ← ih, entries_eq, List.append_assoc, itemsOf_append]
    cases w.error? v p <;> rfl

theorem failuresOf_entries (ps : List Partition) :
    failuresOf (ps.flatMap (w.entries v)) = w.failures v ps := by
  induction ps with
  | nil => rfl
  | cons p ps ih =>
    rw [List.flatMap_cons, failures, List.filterMap_cons, ← failures, ← ih, entries_eq,
      List.append_assoc, failuresOf_append]
    cases w.error? v p <;> rfl

theorem upToFailure_append (items : List Item) (entries : List (Except PartitionFailure Item)) :
    upToFailure (items.map .ok ++ entries) = items.map .ok ++ upToFailure entries := by
  induction items with
  | nil => rfl
  | cons x items ih => exact congrArg (.ok x :: ·) ih

theorem upToFailure_entries (ps : List Partition) :
    upToFailure (ps.flatMap (w.entries v)) = w.untilFailure v ps := by
  induction ps with
  | nil => rfl
  | cons p ps ih =>
    rw [List.flatMap_cons, entries_eq, List.append_assoc, upToFailure_append, untilFailure]
    cases w.error? v p with
    | some e => rfl
    | none => rw [← ih]; rfl

end

section
variable {w : Outage} {v : View} {q : QueueName} {p : Partition}

theorem mem_partitions : p ∈ w.partitions v q ↔ p.queue = q ∧
    p.bucket.id < v.allocator.bucketCount ∧ w.store.Reaches q p.slice ∧
    p.slice ≤ v.allocator.sliceOf w.clock := by
  unfold partitions Store.Reaches
  cases w.store.start q with
  | none => simp
  | some start => simp [View.mem_range]

theorem partitions_pairwise (w : Outage) (v : View) (q : QueueName) :
    (w.partitions v q).Pairwise Partition.Precedes := by
  unfold partitions
  split
  · exact .nil
  · exact v.range_pairwise q _ _

theorem filterMap_pageVisits (limit : Nat) (rows : List Item) (room : Nat) :
    (pageVisits limit room rows).filterMap w.live? = w.live rows := by
  induction rows generalizing room with
  | nil => rfl
  | cons x rows ih =>
    have hrest : (if room ≤ 1 then .fetch (some (.after x.key)) :: pageVisits limit limit rows
        else pageVisits limit (room - 1) rows).filterMap w.live? = w.live rows := by
      split
      · exact ih limit
      · exact ih (room - 1)
    have hcons : w.live (x :: rows) =
        if !(w.store.tombstones x.queue).contains x.key then x :: w.live rows else w.live rows :=
      List.filter_cons
    rw [pageVisits, List.filterMap_cons, hrest, hcons, live?]
    cases (w.store.tombstones x.queue).contains x.key <;> rfl

theorem filterMap_visits (w : Outage) (v : View) (p : Partition) :
    (w.visits v p).filterMap w.live? = w.live (w.store.items p) :=
  filterMap_pageVisits v.pageSize (w.store.items p) v.pageSize

theorem items_prefix (w : Outage) (v : View) (p : Partition) :
    w.items v p <+: w.live (w.store.items p) := by
  rw [← w.filterMap_visits v p]
  exact (List.takeWhile_prefix _).filterMap w.live?

theorem items_eq (he : w.error? v p = none) : w.items v p = w.live (w.store.items p) := by
  have hnone : ∀ visit ∈ w.visits v p, w.failure? v p visit = none :=
    List.findSome?_eq_none_iff.mp he
  have hall : (w.visits v p).takeWhile (fun visit => (w.failure? v p visit).isNone) =
      w.visits v p := by
    have hnil := @List.takeWhile_append_of_pos _ (fun visit => (w.failure? v p visit).isNone)
      (w.visits v p) [] fun visit hv => by rw [hnone visit hv]; rfl
    simpa using hnil
  rw [items, hall, filterMap_visits]

/-- Every live item in range is yielded or lies in a partition that is reported. -/
theorem yielded_or_reported (hs : w.store.Proper) {ps : List Partition} (hp : p ∈ ps)
    (hx : x ∈ w.store.items p) (hlive : x.key ∉ w.store.tombstones p.queue) :
    x ∈ ps.flatMap (w.items v) ∨ p ∈ (w.failures v ps).map (·.partition) := by
  cases he : w.error? v p with
  | some e =>
    refine .inr (List.mem_map.mpr ⟨⟨p, e⟩, List.mem_filterMap.mpr ⟨p, hp, ?_⟩, rfl⟩)
    rw [he]
    rfl
  | none =>
    have hq : x.queue = p.queue := congrArg Partition.queue (hs.placed p x hx)
    refine .inl (List.mem_flatMap.mpr ⟨p, hp, ?_⟩)
    rw [items_eq he, live, List.mem_filter]
    exact ⟨hx, by simpa [hq] using hlive⟩

-- ---------------------------------------------------------------------------
-- Whole browses
-- ---------------------------------------------------------------------------

theorem length_upTo_le (start last : Slice) : (start.upTo last).length ≤ 18446744073709551616 := by
  have hlow := start.lowest_le
  have hhigh := last.le_highest
  simp only [Slice.upTo, List.length_map, List.length_range]
  simp only [Slice.lowest, Slice.highest] at hlow hhigh
  omega

theorem length_partitions_le (w : Outage) (v : View) (q : QueueName) :
    (w.partitions v q).length ≤ 18446744073709551616 * 4294967295 := by
  have hcount := v.allocator.bucketCount.toNat_lt
  unfold partitions
  split
  · exact Nat.zero_le _
  · rename_i start _
    have hlength (slices : List Slice) : (slices.flatMap (v.buckets q)).length =
        slices.length * v.allocator.bucketCount.toNat := by
      induction slices with
      | nil => simp
      | cons slice slices ih => simp [View.buckets, ih, Nat.add_mul, Nat.add_comm]
    rw [View.range, hlength]
    exact Nat.mul_le_mul (length_upTo_le _ _) (Nat.le_of_lt_succ hcount)

theorem partitions_lt_patience (w : Outage) (v : View) (q : QueueName) :
    (w.partitions v q).length * (Key.count + 3) + 1 ≤ Browse.patience := by
  have hmul := Nat.mul_le_mul_right (Key.count + 3) (w.length_partitions_le v q)
  refine Nat.le_trans (Nat.succ_le_succ hmul) ?_
  decide

theorem opened_streams (w : Outage) (v : View) (q : QueueName) :
    w.Streams v q (Browse.opened q (w.store.start q)) ((w.partitions v q).flatMap (w.entries v))
      ((w.partitions v q).length * (Key.count + 3) + 1) := by
  unfold partitions
  cases w.store.start q with
  | none => exact ⟨rfl, [], [], .finished, rfl, rfl, Nat.lt_succ_self _⟩
  | some start =>
    exact ⟨rfl, _, [], Browse.comes_range start _, rfl, rfl, Nat.lt_succ_self _⟩

theorem ofQueue_eval (w : Outage) (q : QueueName) :
    (Browse.ofQueue q).run.eval w.reply = .ok (Browse.opened q (w.store.start q)) := by
  have hreport : (liftM (Operation.report (.span "view.browse" [("view.queue", .text q.text)])) :
      Attempt Unit).run.eval w.reply = .ok () := rfl
  have hcurrent : (BrowseStart.current q).run.eval w.reply = .ok (w.store.start q) := rfl
  rw [Browse.ofQueue, Operation.eval_attempt hreport, Operation.eval_attempt hcurrent]
  cases w.store.start q <;> rfl

theorem answer_read (w : Outage) {action : Action} (h : action.Allowed StoreCall.IsRead) :
    (w.answer action s).2 = s := by
  cases action with
  | store c =>
    simp only [answer]
    split
    · rfl
    · exact h.perform s
  | _ => rfl

theorem drained_run (w : Outage) (v : View) (q : QueueName) :
    (Browse.drained v q).run.run w.answer w.store =
      ((Browse.drained v q).run.eval w.reply, w.store) := by
  have hreads : (Browse.drained v q).run.Calls StoreCall.IsRead := by
    refine Attempt.calls_bind (Browse.ofQueue_calls.mono ?_) fun b => ?_
    · rintro c rfl
      trivial
    · have hpulls : (b.pullMany v Browse.patience []).Calls StoreCall.IsRead :=
        Browse.pullMany_calls.mono fun _ hc => hc.isRead
      exact Attempt.calls_bind (Attempt.calls_lift hpulls) fun _ => trivial
  exact Operation.run_eq_eval (Operation.Takes.mono hreads fun _ h => w.answer_read h)

theorem drained_eval
    (h : ((Browse.opened q (w.store.start q)).pullMany v Browse.patience []).eval w.reply =
      ((found, true), b)) :
    (Browse.drained v q).run.run w.answer w.store = (.ok ((found, true), b.failures), w.store) := by
  rw [drained_run, Browse.drained, Browse.list, Operation.eval_attempt (w.ofQueue_eval q),
    Operation.eval_attempt (Operation.eval_lift h)]
  rfl

theorem opened_running (q : QueueName) (start : Option Slice) :
    (Browse.opened q start).stopped = false ∧ (Browse.opened q start).failures = [] := by
  cases start <;> exact ⟨rfl, rfl⟩

theorem drained_skipping (hs : w.store.Proper) (hl : 0 < v.pageSize) (hfan : 0 < v.fanOut)
    (hp : v.failurePolicy = .skipAndContinue) (q : QueueName) :
    (Browse.drained v q).run.run w.answer w.store =
      (.ok ((((w.partitions v q).flatMap (w.items v)).map .ok, true),
        w.failures v (w.partitions v q)), w.store) := by
  obtain ⟨hrunning, hnone⟩ := opened_running q (w.store.start q)
  have hpatience := w.partitions_lt_patience v q
  obtain ⟨b, heval, hfailures⟩ :=
    pullMany_skipping hs hl hfan hp hrunning (w.opened_streams v q) hpatience hpatience []
  rw [hnone, List.nil_append, failuresOf_entries] at hfailures
  rw [drained_eval heval, hfailures, List.reverse_nil, List.nil_append, itemsOf_entries]

theorem drained_failFast (hs : w.store.Proper) (hl : 0 < v.pageSize) (hfan : 0 < v.fanOut)
    (hp : v.failurePolicy = .failFast) (q : QueueName) :
    (Browse.drained v q).run.run w.answer w.store =
      (.ok ((w.untilFailure v (w.partitions v q), true), []), w.store) := by
  obtain ⟨hrunning, hnone⟩ := opened_running q (w.store.start q)
  have hpatience := w.partitions_lt_patience v q
  obtain ⟨b, heval, hfailures⟩ :=
    pullMany_failFast hs hl hfan hp hrunning (w.opened_streams v q) hpatience hpatience []
  rw [drained_eval heval, hfailures, hnone, List.reverse_nil, List.nil_append, upToFailure_entries]

end

/-- A browse to its end, of any proper store, with any lookups failing. The partitions in range are
visited in order, and what a partition gives are its first live items in the order of keys, or all
of them if it does not fail. A browse that goes on yields the items of all partitions and reports
all failures, so no live item is passed over in silence; a browse that fails fast yields the items
and the failure of the first partition that fails, and nothing after. How many partitions are drawn
ahead makes no difference. -/
theorem partial_failure (w : Outage) (hs : w.store.Proper) (config : Config) (q : QueueName) :
    let v := View.ofConfig config
    let ps := w.partitions v q
    let result := (Browse.drained v q).run.run w.answer w.store
    (∀ p, p ∈ ps ↔ p.queue = q ∧ p.bucket.id < v.allocator.bucketCount ∧
      w.store.Reaches q p.slice ∧ p.slice ≤ v.allocator.sliceOf w.clock) ∧
    ps.Pairwise Partition.Precedes ∧
    (∀ p, SortedByKey Item.key (w.live (w.store.items p)) ∧
      w.items v p <+: w.live (w.store.items p) ∧
      (w.error? v p = none → w.items v p = w.live (w.store.items p))) ∧
    (config.failurePolicy = .skipAndContinue →
      result = (.ok (((ps.flatMap (w.items v)).map .ok, true), w.failures v ps), w.store) ∧
      ∀ p ∈ ps, ∀ x ∈ w.store.items p, x.key ∉ w.store.tombstones p.queue →
        x ∈ ps.flatMap (w.items v) ∨ p ∈ (w.failures v ps).map (·.partition)) ∧
    (config.failurePolicy = .failFast →
      result = (.ok ((w.untilFailure v ps, true), []), w.store)) ∧
    ∀ fanOut, (Browse.drained (.ofConfig { config with fanOut }) q).run.run w.answer w.store =
      result := by
  have hskip (config : Config) (hp : config.failurePolicy = .skipAndContinue) :=
    drained_skipping hs (View.ofConfig_pageSize_pos config) (View.ofConfig_fanOut_pos config) hp q
  have hfast (config : Config) (hp : config.failurePolicy = .failFast) :=
    drained_failFast hs (View.ofConfig_pageSize_pos config) (View.ofConfig_fanOut_pos config) hp q
  refine ⟨fun p => mem_partitions, w.partitions_pairwise _ q,
    fun p => ⟨(hs.sorted p).filter _, w.items_prefix _ p, items_eq⟩,
    fun hp => ⟨hskip config hp, ?_⟩, hfast config, fun fanOut => ?_⟩
  · exact fun p hp x hx hlive => yielded_or_reported hs hp hx hlive
  · have hpolicy : config.failurePolicy = .skipAndContinue ∨ config.failurePolicy = .failFast := by
      cases config.failurePolicy <;> simp
    rcases hpolicy with hp | hp
    · exact (hskip { config with fanOut } hp).trans (hskip config hp).symm
    · -- what is yielded is a recursion over the view: here the two views are not one by definition
      have hsame := w.untilFailure_fanOut (.ofConfig config)
        (View.ofConfig { config with fanOut }).fanOut (w.partitions (.ofConfig config) q)
      rw [hfast config hp, ← hsame]
      exact hfast { config with fanOut } hp

end Outage

namespace Sample

def lostItem : Item := { view.itemOf spool mail default .epoch with bucket := ⟨0⟩ }

def laterItem : Item := { view.itemOf spool mail ⟨2, by decide⟩ twoHours with bucket := ⟨0⟩ }

def outage : Outage where
  store := (opened.append lostItem).append laterItem
  clock := twoHours
  scanFault _ _ _ := none
  lookupFault _ key := if key = lostItem.key then some (.unavailable "down") else none

theorem outage_drained : outage.store.Proper ∧
    (Browse.drained (.ofConfig { Config.default with failurePolicy := .skipAndContinue })
      spool).run.run outage.answer outage.store =
        (.ok (([.ok laterItem], true), [⟨lostItem.partition, .unavailable "down"⟩]),
          outage.store) ∧
    (Browse.drained view spool).run.run outage.answer outage.store =
      (.ok (([.error (.partition lostItem.partition (.unavailable "down"))], true), []),
        outage.store) := by
  have hs : outage.store.Proper :=
    Store.proper_append (Store.proper_append opened_proper lostItem) laterItem
  obtain ⟨-, -, -, hskip, -, -⟩ := Outage.partial_failure outage hs
    { Config.default with failurePolicy := .skipAndContinue } spool
  obtain ⟨-, -, -, -, hfast, -⟩ := Outage.partial_failure outage hs .default spool
  exact ⟨hs, (hskip rfl).1, hfast rfl⟩

end Sample

end SpoolIndex
