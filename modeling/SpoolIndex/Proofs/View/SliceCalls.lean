import SpoolIndex.Proofs.Allocation
import SpoolIndex.Proofs.Operation.Paths
import SpoolIndex.Proofs.View.Request
import SpoolIndex.Proofs.View.Upkeep
import SpoolIndex.Proofs.View.Writing

/-!
# The slices that are written

Whatever it is answered, a request writes no other slices than those of dates, and
of browse starts that are at most as far before a date as the settle window is wide
(`Request.perform_slices`). These are exact numbers: no slice is cut to the range of
slices on the way.
-/

namespace SpoolIndex

/-- The slices that the call writes are exactly those of the view's window and settle window. -/
def StoreCall.Exact (v : View) : StoreCall → Prop
  | appendItem x => x.slice.index = x.enqueuedAt.millis / v.allocator.window
  | swapStart _ .absent slice =>
    ∃ t : Instant, slice.index = t.millis / v.allocator.window - v.settleSlices.toNat
  | swapStart _ .below slice =>
    ∃ t : Instant, slice.index ≤ t.millis / v.allocator.window - v.settleSlices.toNat
  | _ => True

theorem StoreCall.IsRead.exact {v : View} (h : IsRead c) : c.Exact v := by
  cases c <;> trivial

namespace View

variable {v : View} {q : QueueName}

-- ---------------------------------------------------------------------------
-- The search of maintenance
-- ---------------------------------------------------------------------------

def firstLiveExactly (v : View) (q : QueueName) : (left : Nat) → Int → Attempt Int
  | 0, slice => return slice
  | left + 1, slice => do
    if ← v.sliceIsLive q (.clamp slice) v.allocator.bucketCount.toNat 0 then return slice
    else firstLiveExactly v q left (slice + 1)

theorem firstLiveSlice_exact {slice : Slice} {left : Nat}
    (h : slice.index + left ≤ Slice.highest) :
    (do return (← v.firstLiveSlice q left slice).index) =
      v.firstLiveExactly q left slice.index := by
  induction left generalizing slice with
  | zero => simp [firstLiveSlice, firstLiveExactly]
  | succ left ih =>
    have hlow := slice.lowest_le
    have hhigh := slice.le_highest
    have hclamp : Slice.clamp slice.index = slice := by
      refine Slice.ext_index ?_
      rw [Slice.index_clamp]
      omega
    have hmax : slice < Slice.max := by
      rw [Slice.lt_def, Slice.index_max]
      omega
    have hnext := Slice.index_next hmax
    rw [firstLiveSlice, firstLiveExactly, hclamp, bind_assoc]
    congr 1
    funext live
    cases live
    · rw [← hnext]
      exact ih (by omega)
    · simp

-- ---------------------------------------------------------------------------
-- Calls
-- ---------------------------------------------------------------------------

theorem index_settleLimit (v : View) (t : Instant) :
    (v.settleLimit t).index = t.millis / v.allocator.window - v.settleSlices.toNat := by
  rw [settleLimit, Allocator.index_back_sliceOf, Allocator.index_sliceOf]

theorem establish_slices (t : Instant) :
    (BrowseStart.establish q (v.settleLimit t)).run.Calls (StoreCall.Exact v) := by
  refine BrowseStart.establish_calls.mono ?_
  rintro c (rfl | rfl)
  · exact ⟨t, v.index_settleLimit t⟩
  · trivial

theorem openQueue_slices : (v.openQueue q).run.Calls (StoreCall.Exact v) := by
  refine Attempt.calls_bind (Attempt.calls_lift Operation.calls_now) fun t => ?_
  refine Attempt.calls_bind (establish_slices t) fun start => ?_
  exact Attempt.calls_bind (Attempt.calls_lift Operation.calls_event) fun _ => trivial

theorem recordAt_slices : (v.recordAt q new moment).run.Calls (StoreCall.Exact v) := by
  have hkeyed {new : NewItem} {key : Key} (h : new.key = some key) :
      (v.recordAt q new moment).run.Calls (StoreCall.Exact v) := by
    refine (recordAt_takes h).mono fun action ha => ?_
    cases action with
    | store c =>
      obtain rfl | rfl | rfl := ha
      · exact ⟨moment, v.index_settleLimit moment⟩
      · trivial
      · exact v.allocator.index_sliceOf moment
    | _ => trivial
  cases h : new.key with
  | some key => exact hkeyed h
  | none =>
    rw [recordAt_minted h]
    exact (Operation.takes_perform trivial).bind fun key => hkeyed rfl

theorem record_slices : (v.record q new).run.Calls (StoreCall.Exact v) :=
  Attempt.calls_bind (Attempt.calls_lift Operation.calls_now) fun _ => recordAt_slices

theorem enqueue_slices : (v.enqueue q new).run.Calls (StoreCall.Exact v) := by
  have hsend (moment : Instant) (key : Key) :
      (v.enqueueAs q new moment key).run.Calls (StoreCall.Exact v) := by
    refine Attempt.calls_bind (Operation.takes_perform trivial) fun receipt => ?_
    refine Attempt.calls_bind (Operation.Takes.bind recordAt_slices fun _ => trivial) ?_
    rintro (e | key)
    · exact Attempt.calls_bind (Attempt.calls_lift Operation.calls_event) fun _ => trivial
    · trivial
  cases h : new.key with
  | some key =>
    rw [enqueue_keyed h]
    exact Operation.calls_now.bind fun t => hsend t key
  | none =>
    rw [enqueue_minted h]
    refine Operation.calls_now.bind fun t => ?_
    exact Operation.Takes.bind (Operation.takes_perform trivial) fun key => hsend t key

theorem maintain_slices : (v.maintain q).run.Calls (StoreCall.Exact v) := by
  refine maintain_calls.mono ?_
  rintro c (hread | ⟨t, target, rfl, hle⟩)
  · exact hread.exact
  · exact ⟨t, by rw [← index_settleLimit]; exact Slice.le_def.mp hle⟩

theorem advanceBrowseStart_slices : (v.advanceBrowseStart q).run.Calls (StoreCall.Exact v) := by
  refine Operation.calls_report.bind fun _ => ?_
  refine Operation.Takes.bind (Attempt.calls_inSpan maintain_slices) fun result => ?_
  refine Operation.Takes.bind reportMaintenance_reports.calls fun outcome => ?_
  exact Operation.calls_count.bind fun _ => trivial

theorem delete_slices : (v.delete q key slice).run.Calls (StoreCall.Exact v) := by
  refine Attempt.calls_bind (bury_calls.mono ?_) fun _ => followUp_calls advanceBrowseStart_slices
  rintro c rfl
  trivial

theorem deleteAccepted_slices {b : Browse} :
    (v.deleteAccepted filter limit n b).run.Calls (StoreCall.Exact v) := by
  induction limit generalizing n b with
  | zero => trivial
  | succ limit ih =>
    refine Attempt.calls_bind (Attempt.calls_lift (Browse.pull_calls.mono ?_)) ?_
    · exact fun _ hc => hc.isRead.exact
    rintro ⟨_ | e | x, b⟩
    · trivial
    · trivial
    · dsimp only
      split
      · exact Attempt.calls_bind delete_slices fun _ => ih
      · exact ih

theorem ofQueue_slices : (Browse.ofQueue q).run.Calls (StoreCall.Exact v) :=
  Browse.ofQueue_takes trivial fun _ => trivial

theorem deleteMatching_slices : (v.deleteMatching q filter).run.Calls (StoreCall.Exact v) := by
  refine Attempt.calls_bind ofQueue_slices fun b => ?_
  refine Attempt.calls_bind deleteAccepted_slices fun n => ?_
  exact Attempt.calls_bind (Attempt.calls_lift Operation.calls_event) fun _ => trivial

end View

theorem Request.perform_slices (r : Request) (v : View) :
    (r.perform v).run.Calls (StoreCall.Exact v) := by
  cases r with
  | openQueue q => exact Attempt.calls_bind View.openQueue_slices fun _ => trivial
  | record q new => exact Attempt.calls_bind View.record_slices fun _ => trivial
  | recordAt q new moment => exact Attempt.calls_bind View.recordAt_slices fun _ => trivial
  | enqueue q new => exact Attempt.calls_bind View.enqueue_slices fun _ => trivial
  | delete q key slice => exact Attempt.calls_bind View.delete_slices fun _ => trivial
  | deleteItem x => exact Attempt.calls_bind View.delete_slices fun _ => trivial
  | deleteMatching q filter => exact Attempt.calls_bind View.deleteMatching_slices fun _ => trivial
  | advance q => exact Attempt.calls_bind View.advanceBrowseStart_slices fun _ => trivial
  | browse q limit =>
    refine Attempt.calls_bind View.ofQueue_slices fun b => ?_
    refine Attempt.calls_bind (Attempt.calls_lift (Browse.pullMany_calls.mono ?_)) fun _ => trivial
    exact fun _ hc => hc.isRead.exact
  | size q =>
    refine Attempt.calls_bind (View.size_calls.mono fun _ hc => hc.exact) fun _ => trivial

end SpoolIndex
