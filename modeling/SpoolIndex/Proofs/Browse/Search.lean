import SpoolIndex.Proofs.Allocation
import SpoolIndex.Proofs.Browse.PartialFailure
import SpoolIndex.Proofs.View.Maintenance

/-!
# What maintenance finds

While no call fails, the search of maintenance finds the first slice with a live
item (`Outage.firstLiveSlice_eval`), so it raises the browse start to exactly where
it belongs: to the first live slice, but not past the settle window
(`Outage.maintain_run`).
-/

namespace SpoolIndex

-- ---------------------------------------------------------------------------
-- Where a browse start belongs
-- ---------------------------------------------------------------------------

namespace View

def hasLive (s : Store) (p : Partition) : Bool :=
  (s.items p).any fun x => !(s.tombstones p.queue).contains x.key

def isLive (v : View) (s : Store) (q : QueueName) (slice : Slice) : Bool :=
  (v.buckets q slice).any (hasLive s)

def firstLive? (v : View) (s : Store) (q : QueueName) (start : Slice) : Option Slice :=
  (start.upTo .max).find? (v.isLive s q)

/-- Where the browse start belongs: at the first live slice, but not past the settle window, and
never below where it is. -/
def watermark (v : View) (s : Store) (q : QueueName) (t : Instant) (start : Slice) : Int :=
  let limit := (v.allocator.sliceOf t).index - v.settleSlices.toNat
  max start.index (match v.firstLive? s q start with
    | some first => min limit first.index
    | none => limit)

section
variable {v : View} {s : Store} {q : QueueName} {start slice target : Slice}

theorem le_watermark {t : Instant} (h : target.index = v.watermark s q t start) :
    start ≤ target := by
  rw [Slice.le_def, h, watermark]
  exact Int.le_max_left _ _

theorem firstLive?_eq_some (h : v.firstLive? s q start = some slice) :
    start ≤ slice ∧ v.isLive s q slice = true ∧
      ∀ earlier, start ≤ earlier → earlier < slice → v.isLive s q earlier = false := by
  obtain ⟨hlive, before, after, hsplit, hbefore⟩ := List.find?_eq_some_iff_append.mp h
  have hmem : slice ∈ start.upTo .max := by rw [hsplit]; simp
  have hsorted := Slice.upTo_pairwise start .max
  refine ⟨(Slice.mem_upTo.mp hmem).1, hlive, fun earlier hle hlt => ?_⟩
  have hearlier : earlier ∈ start.upTo .max := Slice.mem_upTo.mpr ⟨hle, earlier.le_max⟩
  rw [hsplit] at hsorted hearlier
  -- what is not before the slice found is no earlier than it
  have hafter := (List.pairwise_append.mp hsorted).2.1
  rcases List.mem_append.mp hearlier with he | he
  · simpa using hbefore earlier he
  rcases List.mem_cons.mp he with rfl | he
  · exact absurd hlt (Int.lt_irrefl _)
  · exact absurd ((List.pairwise_cons.mp hafter).1 earlier he) (Slice.not_lt.mpr (Int.le_of_lt hlt))

theorem firstLive?_le (hle : start ≤ slice) (hlive : v.isLive s q slice = true) :
    ∃ first, v.firstLive? s q start = some first ∧ first ≤ slice := by
  cases hfirst : v.firstLive? s q start with
  | none =>
    have hnone := List.find?_eq_none.mp hfirst slice (Slice.mem_upTo.mpr ⟨hle, slice.le_max⟩)
    exact absurd hlive hnone
  | some first =>
    refine ⟨first, rfl, Slice.not_lt.mp fun hlt => ?_⟩
    rw [(firstLive?_eq_some hfirst).2.2 slice hle hlt] at hlive
    cases hlive

theorem dead_below_watermark {t : Instant} (h : target.index = v.watermark s q t start)
    (hle : start ≤ slice) (hlt : slice < target) : v.isLive s q slice = false := by
  refine Bool.eq_false_iff.mpr fun hlive => ?_
  obtain ⟨first, hfirst, hbelow⟩ := firstLive?_le hle hlive
  rw [watermark, hfirst] at h
  rw [Slice.le_def] at hle hbelow
  rw [Slice.lt_def] at hlt
  dsimp only at h
  omega

theorem watermark_again {t : Instant} (h : target.index = v.watermark s q t start)
    (hlt : start < target) : v.watermark s q t target = target.index := by
  rw [Slice.lt_def] at hlt
  unfold watermark at h ⊢
  cases hfirst : v.firstLive? s q start with
  | none =>
    rw [hfirst] at h
    cases v.firstLive? s q target <;> dsimp only at h ⊢ <;> omega
  | some first =>
    rw [hfirst] at h
    by_cases he : first = target
    · subst he
      obtain ⟨first', hfirst', hle⟩ :=
        firstLive?_le first.le_refl (firstLive?_eq_some hfirst).2.1
      rw [Slice.le_def] at hle
      rw [hfirst']
      dsimp only
      omega
    · have hne : first.index ≠ target.index := fun h => he (Slice.ext_index h)
      cases v.firstLive? s q target <;> dsimp only at h ⊢ <;> omega

structure Found (v : View) (s : Store) (q : QueueName) (start : Slice) (left : Nat)
    (target : Slice) : Prop where
  le : start ≤ target
  index_le : target.index ≤ start.index + left
  dead : ∀ slice, start ≤ slice → slice < target → v.isLive s q slice = false
  live : target.index < start.index + left → v.isLive s q target = true

theorem Found.index_eq {t : Instant} {left : Nat} (h : v.Found s q start left target)
    (hleft : start.index + left = (v.allocator.sliceOf t).index - v.settleSlices.toNat) :
    target.index = v.watermark s q t start := by
  obtain ⟨hle, hindex, hdead, hlive⟩ := h
  rw [Slice.le_def] at hle
  unfold watermark
  rw [← hleft]
  cases hfirst : v.firstLive? s q start with
  | none =>
    have hend : ¬target.index < start.index + left := fun hlt => by
      obtain ⟨first, hsome, -⟩ := firstLive?_le hle (hlive hlt)
      rw [hfirst] at hsome
      cases hsome
    dsimp only
    omega
  | some first =>
    obtain ⟨hstart, hlivefirst, -⟩ := firstLive?_eq_some hfirst
    have hge : target.index ≤ first.index := by
      refine Int.not_lt.mp fun hlt => ?_
      rw [hdead first hstart hlt] at hlivefirst
      cases hlivefirst
    have hend : target.index < start.index + left → first.index ≤ target.index := fun hlt => by
      obtain ⟨first', hsome, hle'⟩ := firstLive?_le hle (hlive hlt)
      rw [hfirst] at hsome
      cases hsome
      exact hle'
    dsimp only
    omega

end

end View

namespace Outage

-- ---------------------------------------------------------------------------
-- Looking for live items while nothing fails
-- ---------------------------------------------------------------------------

def calm (s : Store) (t : Instant) : Outage := ⟨s, t, fun _ _ _ => none, fun _ _ => none⟩

variable {s : Store} {t : Instant} {v : View} {q : QueueName} {p : Partition}

theorem calm_answer (s : Store) (t : Instant) :
    (calm s t).answer = fun action s => s.answer t action := by
  funext action s
  cases action with
  | store c => cases c <;> rfl
  | _ => rfl

theorem calm_reply (c : StoreCall) : (calm s t).reply (.store c) = (s.perform c).1 := by
  simp only [reply, calm_answer]
  rfl

theorem rowsOf_pageVisits_calm (limit room : Nat) (items : List Item) :
    (calm s t).rowsOf v p (pageVisits limit room items) = items.map .ok := by
  induction items generalizing room with
  | nil => rfl
  | cons x items ih =>
    rw [pageVisits, rowsOf, List.map_cons]
    split
    · exact congrArg _ (ih limit)
    · exact congrArg _ (ih (room - 1))

theorem start_gives : (calm s t).Gives v p (.start none) ((s.items p).map .ok) := by
  refine ⟨_, .fetch Token.bound_none, ?_⟩
  exact rowsOf_pageVisits_calm v.pageSize v.pageSize (s.items p)

theorem anyLive_eval {rows : Rows Item} {items : List Item} (hs : s.Proper) (hl : 0 < v.pageSize)
    (hitems : ∀ x ∈ items, x.queue = p.queue) (h : (calm s t).Gives v p rows (items.map .ok))
    (hfuel : items.length < fuel) :
    (anyLive (itemPages p v.pageSize) fuel rows).run.eval (calm s t).reply =
      .ok (items.any fun x => !(s.tombstones p.queue).contains x.key) := by
  induction fuel generalizing rows items with
  | zero => exact absurd hfuel (Nat.not_lt_zero _)
  | succ fuel ih =>
    obtain ⟨rows', hpull, hrest⟩ := pull_gives hs hl h
    rw [anyLive, Operation.eval_attempt (Operation.eval_lift hpull)]
    cases items with
    | nil => rfl
    | cons x items =>
      obtain ⟨hx, hitems⟩ := List.forall_mem_cons.mp hitems
      have hlook : (Attempt.call (.hasTombstone x.queue x.key)).run.eval (calm s t).reply =
          .ok ((s.tombstones p.queue).contains x.key) := by
        rw [← hx]
        exact calm_reply (.hasTombstone x.queue x.key)
      rw [List.any_cons]
      refine (Operation.eval_attempt hlook).trans ?_
      cases hb : (s.tombstones p.queue).contains x.key with
      | true => simpa using ih hitems hrest (Nat.lt_of_succ_lt_succ hfuel)
      | false => rfl

theorem partitionIsLive_eval (hs : s.Proper) (hl : 0 < v.pageSize) :
    (v.partitionIsLive p).run.eval (calm s t).reply = .ok (View.hasLive s p) := by
  have hany : (Attempt.call (.hasItems p)).run.eval (calm s t).reply =
      .ok (!(s.items p).isEmpty) := calm_reply (.hasItems p)
  have hitems : ∀ x ∈ s.items p, x.queue = p.queue := fun x hx =>
    congrArg Partition.queue (hs.placed p x hx)
  have hlength := length_le_of_sorted (hs.sorted p) (fun _ _ => Nat.zero_le _) (Nat.zero_le _)
  rw [View.partitionIsLive, Operation.eval_attempt hany]
  cases hempty : (s.items p).isEmpty with
  | true =>
    rw [List.isEmpty_iff] at hempty
    rw [View.hasLive, hempty]
    rfl
  | false => exact anyLive_eval hs hl hitems start_gives (by omega)

theorem sliceIsLive_eval {slice : Slice} (hs : s.Proper) (hl : 0 < v.pageSize) (left bucket : Nat) :
    (v.sliceIsLive q slice left bucket).run.eval (calm s t).reply =
      .ok ((List.range' bucket left).any fun n => View.hasLive s ⟨q, slice, ⟨UInt32.ofNat n⟩⟩) := by
  induction left generalizing bucket with
  | zero => rfl
  | succ left ih =>
    rw [View.sliceIsLive, Operation.eval_attempt (partitionIsLive_eval hs hl), List.range'_succ,
      List.any_cons]
    cases View.hasLive s ⟨q, slice, ⟨UInt32.ofNat bucket⟩⟩ with
    | true => rfl
    | false => exact ih (bucket + 1)

theorem isLive_eval (hs : s.Proper) (hl : 0 < v.pageSize) (slice : Slice) :
    (v.sliceIsLive q slice v.allocator.bucketCount.toNat 0).run.eval (calm s t).reply =
      .ok (v.isLive s q slice) := by
  rw [sliceIsLive_eval hs hl, View.isLive, View.buckets, List.any_map, List.range_eq_range']
  rfl

theorem firstLiveSlice_eval (hs : s.Proper) (hl : 0 < v.pageSize) (left : Nat) (slice : Slice)
    (hroom : slice.index + left ≤ Slice.highest) :
    ∃ target, (v.firstLiveSlice q left slice).run.eval (calm s t).reply = .ok target ∧
      v.Found s q slice left target := by
  induction left generalizing slice with
  | zero =>
    refine ⟨slice, rfl, slice.le_refl, by omega, fun other hle hlt => ?_, fun hlt => ?_⟩
    · exact absurd hle (Slice.not_le.mpr hlt)
    · omega
  | succ left ih =>
    rw [View.firstLiveSlice, Operation.eval_attempt (isLive_eval hs hl slice)]
    cases hlive : v.isLive s q slice with
    | true =>
      refine ⟨slice, rfl, slice.le_refl, by omega, fun other hle hlt => ?_, fun _ => hlive⟩
      exact absurd hle (Slice.not_le.mpr hlt)
    | false =>
      have hnext : slice.next.index = slice.index + 1 := by
        refine Slice.index_next ?_
        rw [Slice.lt_def, Slice.index_max]
        omega
      obtain ⟨target, heval, hle, hindex, hdead, hfound⟩ := ih slice.next (by omega)
      rw [Slice.le_def] at hle
      refine ⟨target, heval, ?_, by omega, fun other hother hlt => ?_, fun hlt => ?_⟩
      · rw [Slice.le_def]
        omega
      · by_cases he : slice = other
        · exact he ▸ hlive
        · exact hdead other (Slice.next_le (Slice.lt_of_le_of_ne hother he)) hlt
      · exact hfound (by omega)

-- ---------------------------------------------------------------------------
-- Maintenance while nothing fails
-- ---------------------------------------------------------------------------

theorem run_calm {x : Attempt α} (h : x.run.Calls StoreCall.IsRead) :
    x.run.run (calm s t).answer s = (x.run.eval (calm s t).reply, s) :=
  Operation.run_eq_eval (Operation.Takes.mono h fun _ ha => answer_read _ ha)

theorem current_run :
    (BrowseStart.current q).run.run (calm s t).answer s = (.ok (s.start q), s) := rfl

theorem advanceTo_run (h : s.start q = some start) (hlt : start < target) :
    (BrowseStart.advanceTo q target).run.run (calm s t).answer s =
      (.ok .advanced, s.setStart q target) := by
  have happlies : s.swapApplies q .below target = true := by
    simpa [Store.swapApplies, h] using hlt
  have hcall : (Attempt.call (.swapStart q .below target)).run.run (calm s t).answer s =
      (.ok true, s.setStart q target) := Store.perform_swapStart happlies
  rw [BrowseStart.advanceTo, Operation.run_attempt hcall]
  rfl

theorem maintain_unopened (h : s.start q = none) :
    (v.maintain q).run.run (calm s t).answer s = (.ok (.unchanged .min), s) := by
  rw [View.maintain, Operation.run_attempt current_run, h]
  rfl

/-- Maintenance of an open queue moves the browse start to where it belongs, and that is all. -/
theorem maintain_run (hs : s.Proper) (hl : 0 < v.pageSize) (h : s.start q = some start) :
    ∃ m target, (v.maintain q).run.run (calm s t).answer s = (.ok m, s.setStart q target) ∧
      (m.result = .advanced ↔ start < target) ∧ target.index = v.watermark s q t start := by
  have hlimit : (v.settleLimit t).index =
      (v.allocator.sliceOf t).index - v.settleSlices.toNat := v.allocator.index_back_sliceOf t _
  have hnow : (liftM Operation.now : Attempt Instant).run.run (calm s t).answer s = (.ok t, s) :=
    rfl
  have hself : s.setStart q start = s := Store.setStart_self h
  have hstay : (Maintenance.unchanged start).result = .advanced ↔ start < start :=
    ⟨fun h => (nomatch h), fun h => absurd h (Int.lt_irrefl _)⟩
  rw [View.maintain, Operation.run_attempt current_run, h]
  dsimp only
  rw [Operation.run_attempt hnow]
  split
  · rename_i hle
    refine ⟨.unchanged start, start, by rw [hself]; rfl, hstay, ?_⟩
    rw [Slice.le_def] at hle
    unfold View.watermark
    cases v.firstLive? s q start <;> dsimp only <;> omega
  · rename_i hlt
    rw [Slice.le_def] at hlt
    have hhigh := (v.settleLimit t).le_highest
    obtain ⟨target, heval, hfound⟩ := firstLiveSlice_eval (t := t) (q := q) hs hl
      ((v.settleLimit t).index - start.index).toNat start (by omega)
    have hsearch := (run_calm (t := t) (s := s) View.firstLiveSlice_calls).trans
      (congrArg (·, s) heval)
    have hindex := hfound.index_eq (t := t) (by omega)
    rw [Operation.run_attempt hsearch]
    split
    · rename_i hle
      obtain rfl : start = target := Slice.ext_index (Int.le_antisymm hfound.le hle)
      exact ⟨.unchanged start, start, by rw [hself]; rfl, hstay, hindex⟩
    · rename_i hle
      have hlt : start < target := Slice.not_le.mp hle
      refine ⟨⟨.advanced, start, target⟩, target, ?_, ⟨fun _ => hlt, fun _ => rfl⟩, hindex⟩
      exact Operation.run_attempt (advanceTo_run h hlt)

theorem advanceBrowseStart_run {w : Outage} (h : (v.maintain q).run.run w.answer s = (result, s')) :
    (v.advanceBrowseStart q).run.run w.answer s = (result.map (·.result), s') := by
  have hspan : (Attempt.inSpan "view.maintenance" (v.maintain q)).run.run w.answer s =
      (result, s') := by
    refine (Operation.run_bind w.answer ((v.maintain q).run) _ s).trans ?_
    rw [h]
    rfl
  refine (Operation.run_bind w.answer (Attempt.inSpan "view.maintenance" (v.maintain q)).run
    _ s).trans ?_
  rw [hspan]
  rcases result with e | ⟨_ | _, source, target⟩ <;> rfl

end Outage

end SpoolIndex
