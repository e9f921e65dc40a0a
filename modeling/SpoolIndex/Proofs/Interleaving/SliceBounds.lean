import SpoolIndex.Proofs.Browse.Enumeration
import SpoolIndex.Proofs.Interleaving.Faults
import SpoolIndex.Proofs.View.SliceCalls

/-!
# Slices keep within their range

Slices stop at the ends of a range of 64-bit numbers, but no run comes near them. The
items in a store that views of one window share lie in slices of dates, and its browse
starts at most the widest settle window before one (`Store.Dated`). Views therefore
compute what they would compute with numbers without bounds (`View.Unsaturated`), and a
browse comes to the end of its partitions (`View.Enumerates`). All of this is put
together in `Scene.slices_never_saturate`.
-/

namespace SpoolIndex

-- ---------------------------------------------------------------------------
-- Stores
-- ---------------------------------------------------------------------------

theorem Instant.quotient_le {t u : Instant} (h : t.millis ≤ u.millis) {width : Nat}
    (hw : 0 < width) : t.millis / width ≤ u.millis / width :=
  Int.ediv_le_ediv (Int.natCast_pos.mpr hw) h

/-- If slices are this many milliseconds wide, items lie in slices of dates, and browse starts at
most the widest settle window before one. -/
structure Store.Dated (s : Store) (width : Nat) : Prop where
  items : ∀ p, ∀ x ∈ s.items p, Instant.earliest.millis / width ≤ x.slice.index ∧
    x.slice.index ≤ Instant.latestLeap.millis / width
  starts : ∀ q start, s.start q = some start →
    Instant.earliest.millis / width - 4294967296 + 1 ≤ start.index ∧
      start.index ≤ Instant.latestLeap.millis / width

theorem Store.dated_empty (width : Nat) : Store.empty.Dated width :=
  ⟨fun _ _ h => (nomatch h), fun _ _ h => nomatch h⟩

section
variable {s s' : Store} {v : View}

theorem Store.start_of_below {slice start : Slice}
    (h : (s.perform (.swapStart q .below slice)).2.start q = some start) :
    ∃ old, s.start q = some old ∧ old ≤ start := by
  cases hs : s.start q with
  | none =>
    simp [Store.perform, Store.swapApplies, hs] at h
  | some old =>
    obtain ⟨new, hnew, hle⟩ := (s.grows_perform _).start q old hs
    cases h.symm.trans hnew
    exact ⟨old, rfl, hle⟩

theorem Store.Dated.perform (hs : s.Dated v.allocator.window) (hc : c.Exact v) :
    (s.perform c).2.Dated v.allocator.window := by
  have hlow (t : Instant) := Instant.quotient_le t.millis_earliest_le v.allocator.window_pos
  have hhigh (t : Instant) := Instant.quotient_le t.millis_le_latestLeap v.allocator.window_pos
  constructor
  · intro p y hy
    by_cases hc' : ∃ x, c = .appendItem x
    · obtain ⟨x, rfl⟩ := hc'
      rcases Store.mem_append hy with ⟨rfl, -⟩ | hy
      · rw [show y.slice.index = _ from hc]
        exact ⟨hlow _, hhigh _⟩
      · exact hs.items p y hy
    · rw [Store.items_perform fun x hx => hc' ⟨x, hx⟩] at hy
      exact hs.items p y hy
  · intro q start hstart
    obtain hold | ⟨condition, rfl⟩ := Store.start_perform hstart
    · exact hs.starts q start hold
    have hn := v.settleSlices.toNat_lt
    cases condition with
    | absent =>
      obtain ⟨t, ht⟩ := hc
      have hlow := hlow t
      have hhigh := hhigh t
      omega
    | below =>
      obtain ⟨t, ht⟩ := hc
      obtain ⟨old, hold, hle⟩ := Store.start_of_below hstart
      have hfirst := (hs.starts q old hold).1
      have hle := Slice.le_def.mp hle
      have hhigh := hhigh t
      omega

theorem Store.Dated.tries {action : Action} {reply : action.Reply}
    (hs : s.Dated v.allocator.window) (ha : action.Allowed (StoreCall.Exact v))
    (h : s.Tries action reply s') : s'.Dated v.allocator.window := by
  cases h with
  | answers h =>
    cases h with
    | store c => exact hs.perform ha
    | other => exact hs
  | fails => exact hs

end

-- ---------------------------------------------------------------------------
-- Numbers without bounds
-- ---------------------------------------------------------------------------

open Browse (Enumerated)

/-- The view computes with slices and buckets as with numbers without bounds, and never divides by
zero. -/
structure View.Unsaturated (v : View) : Prop where
  sliceOf (t : Instant) : (v.allocator.sliceOf t).index = t.millis / v.allocator.window
  settleLimit (t : Instant) :
    (v.settleLimit t).index = (v.allocator.sliceOf t).index - v.settleSlices.toNat
  /-- Maintenance, from a browse start to the settle limit. -/
  search (q : QueueName) (start : Slice) (t : Instant) :
    let left := ((v.settleLimit t).index - start.index).toNat
    (do return (← v.firstLiveSlice q left start).index) = v.firstLiveExactly q left start.index
  /-- The cursor of a browse, wherever it is. -/
  draw (q : QueueName) (room : Nat) (cursor : Option (Slice × UInt32)) (found : List Partition) :
    (Browse.draw v q room cursor found >>= fun drawn =>
      pure (drawn.1.map Partition.place, drawn.2.map Browse.place)) =
      Browse.drawExactly v room (cursor.map Browse.place) (found.map Partition.place)
  bucket {q : QueueName} {room : Nat} {start slice : Slice} {bucket : UInt32} {path : List Exchange}
    {ps : List Partition}
    (h : (Browse.draw v q room (some (start, 0)) []).Ends path (ps, some (slice, bucket))) :
    bucket.toNat + 1 < 4294967296
  window_ne_zero : v.allocator.window ≠ 0
  bucketCount_ne_zero : v.allocator.bucketCount ≠ 0
  every_ne_zero (n : UInt32) : v.advancePolicy = .everyNth n → max 1 n.toNat ≠ 0

/-- However a browse is pulled, it draws its partitions by one enumeration. With a clock that stands
still this gives one partition for every bucket of every slice from the start to now, in order, and
is then over. -/
structure View.Enumerates (v : View) : Prop where
  opened (q : QueueName) (start : Slice) (clock : Instant → Prop) :
    Enumerated v start clock (.startingAt q start)
  pulled {b b' : Browse} {start : Slice} {clock : Instant → Prop} {path : List Exchange}
    {result : Option (Except Error Item)} (h : Enumerated v start clock b)
    (he : (b.pull v).Ends path (result, b')) (hpath : ∀ t, ⟨.now, t⟩ ∈ path → clock t) :
    Enumerated v start clock b'
  ascending (q : QueueName) (start last : Slice) :
    (v.range q start last).Pairwise Partition.Precedes
  length (q : QueueName) (start last : Slice) : (v.range q start last).length =
    (last.index - start.index + 1).toNat * v.allocator.bucketCount.toNat
  /-- The first `room` partitions are drawn, and the end is found by asking for one more than there
  are. -/
  draws (q : QueueName) (start : Slice) (room : Nat) (reply : (action : Action) → action.Reply) :
    ∃ cursor : Option (Slice × UInt32),
      let ps := v.range q start (v.allocator.sliceOf (reply .now))
      (Browse.draw v q room (some (start, 0)) []).eval reply = (ps.take room, cursor) ∧
        (cursor = none ↔ ps.length < room)
  standing {b : Browse} {start : Slice} {t : Instant} (h : Enumerated v start (· = t) b) :
    ∃ visited, visited ++ b.drawn <+: v.range b.queue start (v.allocator.sliceOf t) ∧
      (b.cursor = none → visited ++ b.drawn = v.range b.queue start (v.allocator.sliceOf t))

theorem View.unsaturated (v : View) : v.Unsaturated where
  sliceOf := v.allocator.index_sliceOf
  settleLimit t := v.allocator.index_back_sliceOf t v.settleSlices
  search q start t := by
    refine View.firstLiveSlice_exact ?_
    have hstart := start.le_highest
    have hlimit := (v.settleLimit t).le_highest
    omega
  draw := Browse.draw_exact v
  bucket h := by
    obtain ⟨hcursor, -⟩ := Browse.draw_within (Browse.cursorWithin_first v _) (by simp) h
    have hlt := UInt32.lt_iff_toNat_lt.mp (hcursor _ _ rfl)
    have hcount := v.allocator.bucketCount.toNat_lt
    omega
  window_ne_zero := Nat.ne_of_gt v.allocator.window_pos
  bucketCount_ne_zero := UInt32.pos_iff_ne_zero.mp v.allocator.bucketCount_pos
  every_ne_zero n _ := by omega

theorem View.enumerates (v : View) : v.Enumerates where
  opened q start clock := Browse.enumerated_startingAt v q start clock
  pulled h he hpath := h.advance he hpath
  ascending := v.range_pairwise
  length := Browse.length_range v
  draws := Browse.draw_standing v
  standing h := h.standing

-- ---------------------------------------------------------------------------
-- Runs
-- ---------------------------------------------------------------------------

namespace Scene

variable [DecidableEq ι] {views : ι → View} {c c' : Scene ι} {e : Event ι}
  {trace : List (Event ι)}

/-- What the tasks have left to do writes exact slices, as do their steps. -/
theorem FaultyStep.exact (h : c.FaultyStep e c')
    (hrest : ∀ i, (c.rest i).Calls (StoreCall.Exact (views i))) :
    e.action.Allowed (StoreCall.Exact (views e.task)) ∧
      ∀ i, (c'.rest i).Calls (StoreCall.Exact (views i)) := by
  obtain ⟨next, hact, hnext⟩ := h.rest_own
  have hown := hrest e.task
  rw [hact] at hown
  refine ⟨hown.1, fun i => ?_⟩
  by_cases hi : i = e.task
  · rw [hi, hnext]
    exact hown.2 e.reply
  · rw [h.rest_other hi]
    exact hrest i

theorem FaultySteps.exact (h : FaultySteps c trace c') {width : Nat}
    (hw : ∀ i, (views i).allocator.window = width)
    (hrest : ∀ i, (c.rest i).Calls (StoreCall.Exact (views i))) (hs : c.store.Dated width) :
    c'.store.Dated width ∧
      ∀ e ∈ trace, e.action.Allowed (StoreCall.Exact (views e.task)) := by
  induction h with
  | refl c => exact ⟨hs, fun _ h => nomatch h⟩
  | @step c c₁ c₂ e trace h _ ih =>
    obtain ⟨haction, hnext⟩ := h.exact hrest
    have hwindow := hw e.task
    have hdated : c₁.store.Dated width := by
      rw [← hwindow] at hs ⊢
      exact hs.tries haction h.tries
    obtain ⟨hstore, htrace⟩ := ih hnext hdated
    exact ⟨hstore, List.forall_mem_cons.mpr ⟨haction, htrace⟩⟩

/-- In every run of views that share a window, on a store that is empty at first and may fail, no
slice or bucket comes to an end of its range. The last instant there is lies in a leap second. -/
theorem slices_never_saturate {configs : ι → Config} {requests : ι → Request}
    (hw : ∀ i, (configs i).sliceWindowSeconds = window)
    (h : FaultySteps (opening .empty (fun i => .ofConfig (configs i)) requests) trace c) (i : ι) :
    let v := View.ofConfig (configs i)
    let first := (v.allocator.sliceOf .earliest).index
    let last := (v.allocator.sliceOf .latestLeap).index
    (∀ p, ∀ x ∈ c.store.items p, first ≤ x.slice.index ∧ x.slice.index ≤ last) ∧
    (∀ q start, c.store.start q = some start →
      first - 4294967296 + 1 ≤ start.index ∧ start.index ≤ last) ∧
    (∀ call reply, ⟨i, .store call, reply⟩ ∈ trace → call.Exact v) ∧
    v.Unsaturated ∧ v.Enumerates := by
  intro v first last
  have hwindow (j : ι) : (View.ofConfig (configs j)).allocator.window = v.allocator.window := by
    simp [v, View.ofConfig, Allocator.new, Config.windowMillis, hw]
  obtain ⟨hdated, hcalls⟩ := h.exact hwindow
    (fun j => (requests j).perform_slices _) (Store.dated_empty _)
  simp only [first, last, Allocator.index_sliceOf]
  refine ⟨hdated.items, hdated.starts, fun call reply he => ?_, v.unsaturated, v.enumerates⟩
  exact hcalls _ he

def widest : Config := { Config.default with sliceWindowSeconds := 1, settleSlices := 4294967295 }

def extremes : Bool → Request
  | false => .recordAt Sample.spool Sample.mail .earliest
  | true => .recordAt Sample.spool Sample.mail .latestLeap

/-- The first record opens the queue, and fails when it looks at the browse start again. -/
def extremeRun : List (Event Bool) × Scene Bool :=
  playFaulty .epoch
    (.replicate 5 (false, none) ++ [(false, some (.unavailable ""))] ++ .replicate 9 (true, none))
    (opening .empty (fun _ => .ofConfig widest) extremes)

/-- The bounds of items and the lower bound of browse starts are reached. -/
theorem extremeRun_bounds :
    (∀ p, ∀ x ∈ extremeRun.2.store.items p,
      -8334601228800 ≤ x.slice.index ∧ x.slice.index ≤ 8210266876800) ∧
    extremeRun.2.store.items ⟨Sample.spool, .clamp (-8334601228800), ⟨0⟩⟩ ≠ [] ∧
    extremeRun.2.store.items ⟨Sample.spool, .clamp 8210266876800, ⟨0⟩⟩ ≠ [] ∧
    (∀ q start, extremeRun.2.store.start q = some start → -8338896196095 ≤ start.index) ∧
    extremeRun.2.store.start Sample.spool = some (.clamp (-8338896196095)) := by
  have h : FaultySteps (opening .empty _ extremes) extremeRun.1 extremeRun.2 :=
    playFaulty_steps _ _ _
  obtain ⟨hitems, hstarts, -⟩ := slices_never_saturate (fun _ => rfl) h false
  refine ⟨hitems, by decide +kernel, by decide +kernel, ?_, rfl⟩
  exact fun q start hs => (hstarts q start hs).1

end Scene

end SpoolIndex
