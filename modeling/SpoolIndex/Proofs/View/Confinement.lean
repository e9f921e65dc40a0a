import SpoolIndex.Proofs.Operation.Confinement
import SpoolIndex.Proofs.View.Writing

/-!
# What a view does about one queue

Every operation of a view is confined to its queue. For most that is plain; a
browse, a delete of what it yields and a look for live items go on with the
queues of the rows they were given, and those are rows of the queue.
-/

namespace SpoolIndex

variable {q : QueueName} {v : View}

-- ---------------------------------------------------------------------------
-- Rows
-- ---------------------------------------------------------------------------

def RowOf (q : QueueName) : Except Error Item → Prop
  | .ok x => x.queue = q
  | .error _ => True

def NextOf (q : QueueName) : Option (Except Error Item) → Prop
  | some row => RowOf q row
  | none => True

def Progress.OfQueue (q : QueueName) : Progress (Except Error Item) → Prop
  | .yield row => RowOf q row
  | .working | .ended => True

theorem itemPages_confined {p : Partition} (hp : p.queue = q) :
    (itemPages p limit after).Confined q fun page => ∀ x ∈ page.rows, x.queue = q :=
  Attempt.confined_call hp fun _ hr => by rw [← hp]; exact hr

namespace Rows

def OfQueue (q : QueueName) (rows : Rows Item) : Prop := ∀ x ∈ rows.ready, x.queue = q

theorem pull_confined {p : Partition} {rows : Rows Item} (hp : p.queue = q) (h : OfQueue q rows) :
    (rows.pull (itemPages p limit)).Confined q
      fun result => NextOf q result.1 ∧ OfQueue q result.2 := by
  have hfinished : OfQueue q finished := fun _ hx => nomatch hx
  obtain ⟨ready, token⟩ := rows
  cases ready with
  | cons x ready => exact List.forall_mem_cons.mp h
  | nil =>
    cases token with
    | none => exact ⟨trivial, hfinished⟩
    | some after =>
      refine Operation.Confined.bind (itemPages_confined hp) ?_
      rintro (e | ⟨found, token⟩) hpage
      · exact ⟨trivial, hfinished⟩
      · cases found with
        | nil => exact ⟨trivial, hfinished⟩
        | cons x ready => exact List.forall_mem_cons.mp (hpage _ rfl)

end Rows

-- ---------------------------------------------------------------------------
-- Browses
-- ---------------------------------------------------------------------------

namespace PartitionScan

structure OfQueue (q : QueueName) (s : PartitionScan) : Prop where
  partition : s.partition.queue = q
  rows : s.rows.OfQueue q
  waiting : ∀ row ∈ s.waiting, RowOf q row

theorem start_confined {p : Partition} (hp : p.queue = q) :
    (start v p).Confined q (OfQueue q) := by
  refine Operation.Confined.bind (itemPages_confined hp) ?_
  rintro (e | page) hpage
  · refine ⟨hp, fun _ hx => (nomatch hx), fun row hr => ?_⟩
    rw [List.mem_singleton.mp hr]
    trivial
  · exact ⟨hp, hpage page rfl, fun _ hr => nomatch hr⟩

theorem refill_confined (h : OfQueue q s) : (refill v room s).Confined q (OfQueue q) := by
  induction room generalizing s with
  | zero => exact h
  | succ room ih =>
    refine (Rows.pull_confined h.partition h.rows).bind ?_
    rintro ⟨_ | row, rows⟩ ⟨hrow, hrows⟩
    · exact ⟨h.partition, hrows, h.waiting⟩
    · refine ih ⟨h.partition, hrows, fun row' hr => ?_⟩
      rcases List.mem_append.mp hr with hr | hr
      · exact h.waiting row' hr
      · rw [List.mem_singleton.mp hr]
        exact hrow

theorem deliver_ofQueue {s : PartitionScan} (h : OfQueue q s) (hr : RowOf q row) :
    (s.deliver row).1.OfQueue q ∧ OfQueue q (s.deliver row).2 := by
  unfold deliver
  split
  · exact ⟨trivial, h⟩
  · exact ⟨hr, h.partition, h.rows, h.waiting⟩

theorem step_confined {s : PartitionScan} (h : OfQueue q s) :
    (s.step v).Confined q fun result => result.1.OfQueue q ∧ OfQueue q result.2 := by
  refine (refill_confined h).bind fun s h => ?_
  obtain ⟨p, rows, waiting, failed⟩ := s
  cases waiting with
  | nil => exact ⟨trivial, h⟩
  | cons row waiting =>
    obtain ⟨hrow, hwaiting⟩ := List.forall_mem_cons.mp h.waiting
    have hrest : OfQueue q ⟨p, rows, waiting, failed⟩ := ⟨h.partition, h.rows, hwaiting⟩
    cases row with
    | error e => exact deliver_ofQueue hrest trivial
    | ok x =>
      refine ⟨hrow, ?_⟩
      rintro (e | _ | _) -
      · exact deliver_ofQueue hrest trivial
      · exact deliver_ofQueue hrest hrow
      · exact ⟨trivial, hrest⟩

end PartitionScan

namespace Browse

structure OfQueue (q : QueueName) (b : Browse) : Prop where
  queue : b.queue = q
  drawn : ∀ p ∈ b.drawn, p.queue = q
  reading : ∀ s, b.reading = some s → s.OfQueue q

theorem draw_confined {found : List Partition} (h : ∀ p ∈ found, p.queue = q) :
    (draw v q room place found).Confined q fun result => ∀ p ∈ result.1, p.queue = q := by
  have hdone {found : List Partition} (h : ∀ p ∈ found, p.queue = q) :
      ∀ p ∈ found.reverse, p.queue = q := fun p hp => h p (List.mem_reverse.mp hp)
  induction room generalizing place found with
  | zero => exact hdone h
  | succ room ih =>
    cases place with
    | none => exact hdone h
    | some place =>
      refine Operation.confined_bind.mpr (Operation.confined_now.mpr fun t => ?_)
      split
      · exact hdone h
      · exact ih (List.forall_mem_cons.mpr ⟨rfl, h⟩)

theorem deliver_confined {b : Browse} (h : b.OfQueue q) (hr : RowOf q row) :
    (deliver v b row).Confined q fun result => result.1.OfQueue q ∧ result.2.OfQueue q := by
  unfold deliver
  split
  · exact ⟨trivial, h⟩
  · split
    · exact ⟨hr, h⟩
    · exact ⟨trivial, h.queue, h.drawn, h.reading⟩
    · exact ⟨trivial, h.queue, h.drawn, h.reading⟩
    · exact ⟨trivial, h⟩

theorem step_confined {b : Browse} (h : b.OfQueue q) :
    (b.step v).Confined q fun result => result.1.OfQueue q ∧ result.2.OfQueue q := by
  obtain ⟨q', cursor, drawn, reading, stopped, failures⟩ := b
  obtain ⟨rfl, hdrawn, hreading⟩ := h
  cases reading with
  | some s =>
    refine (PartitionScan.step_confined (hreading s rfl)).bind ?_
    rintro ⟨result, s'⟩ ⟨hresult, hs⟩
    have hgoing : OfQueue q' ⟨q', cursor, drawn, some s', stopped, failures⟩ :=
      ⟨rfl, hdrawn, fun _ he => by cases he; exact hs⟩
    cases result with
    | yield row => exact deliver_confined hgoing hresult
    | working => exact ⟨trivial, hgoing⟩
    | ended => exact ⟨trivial, rfl, hdrawn, fun _ he => nomatch he⟩
  | none =>
    refine (draw_confined (List.forall_mem_nil _)).bind ?_
    rintro ⟨fresh, cursor'⟩ hfresh
    have hall : ∀ p ∈ drawn ++ fresh, p.queue = q' := fun p hp =>
      (List.mem_append.mp hp).elim (hdrawn p) (hfresh p)
    dsimp only
    split
    · exact ⟨trivial, rfl, hdrawn, fun _ he => nomatch he⟩
    · rename_i p rest heq
      rw [heq] at hall
      obtain ⟨hp, hrest⟩ := List.forall_mem_cons.mp hall
      refine (PartitionScan.start_confined hp).bind fun s hs => ⟨trivial, rfl, hrest, ?_⟩
      rintro _ ⟨⟩
      exact hs

theorem advance_confined {b : Browse} (h : b.OfQueue q) : (b.advance v steps).Confined q
    fun result => NextOf q result.1 ∧ result.2.OfQueue q := by
  induction steps generalizing b with
  | zero => exact ⟨trivial, h⟩
  | succ steps ih =>
    refine (step_confined h).bind ?_
    rintro ⟨result | _ | _, b'⟩ ⟨hresult, hb⟩
    · exact ⟨hresult, hb⟩
    · exact ih hb
    · exact ⟨trivial, hb⟩

theorem pull_confined {b : Browse} (h : b.OfQueue q) : (b.pull v).Confined q
    fun result => NextOf q result.1 ∧ result.2.OfQueue q := advance_confined h

theorem pullMany_confined {b : Browse} (h : b.OfQueue q) :
    (b.pullMany v limit found).Confined q fun _ => True := by
  induction limit generalizing b found with
  | zero => trivial
  | succ limit ih =>
    refine (pull_confined h).bind ?_
    rintro ⟨_ | row, b'⟩ ⟨-, hb⟩
    · trivial
    · exact ih hb

theorem ofQueue_confined : (ofQueue q).Confined q (OfQueue q) := by
  have hnew {cursor : Option (Slice × UInt32)} :
      OfQueue q ⟨q, cursor, [], none, false, []⟩ :=
    ⟨rfl, fun _ hp => (nomatch hp), fun _ he => nomatch he⟩
  refine Attempt.confined_report.bind fun _ _ => ?_
  refine (Attempt.confined_read _ rfl).bind fun start _ => ?_
  cases start with
  | none =>
    refine Attempt.confined_report.inSpan.bind fun _ _ => ?_
    exact Attempt.confined_pure hnew
  | some start =>
    refine Attempt.confined_report.bind fun _ _ => ?_
    exact Attempt.confined_pure hnew

end Browse

namespace View

theorem countItems_confined {b : Browse} (h : b.OfQueue q) :
    (v.countItems limit n b).Confined q fun _ => True := by
  induction limit generalizing n b with
  | zero => exact Attempt.confined_pure trivial
  | succ limit ih =>
    refine (Attempt.confined_lift (Browse.pull_confined h)).bind ?_
    rintro ⟨_ | e | x, b'⟩ ⟨-, hb⟩
    · exact Attempt.confined_pure trivial
    · exact Attempt.confined_throw
    · exact ih hb

theorem size_confined : (v.size q).Confined q fun _ => True :=
  Browse.ofQueue_confined.bind fun _ hb => countItems_confined hb

-- ---------------------------------------------------------------------------
-- Maintenance
-- ---------------------------------------------------------------------------

theorem anyLive_confined {p : Partition} {rows : Rows Item} (hp : p.queue = q)
    (h : rows.OfQueue q) :
    (anyLive (itemPages p v.pageSize) limit rows).Confined q fun _ => True := by
  induction limit generalizing rows with
  | zero => exact Attempt.confined_pure trivial
  | succ limit ih =>
    refine (Attempt.confined_lift (Rows.pull_confined hp h)).bind ?_
    rintro ⟨_ | e | x, rows'⟩ ⟨hx, hrows⟩
    · exact Attempt.confined_pure trivial
    · exact Attempt.confined_throw
    · refine (Attempt.confined_read (.hasTombstone x.queue x.key) hx).bind fun buried _ => ?_
      cases buried with
      | true => exact ih hrows
      | false => exact Attempt.confined_report.bind fun _ _ => Attempt.confined_pure trivial

theorem partitionIsLive_confined {p : Partition} (hp : p.queue = q) :
    (v.partitionIsLive p).Confined q fun _ => True := by
  refine (Attempt.confined_read (.hasItems p) hp).bind fun any _ => ?_
  cases any with
  | true => exact anyLive_confined hp (List.forall_mem_nil _)
  | false => exact Attempt.confined_pure trivial

theorem sliceIsLive_confined : (v.sliceIsLive q slice left bucket).Confined q fun _ => True := by
  induction left generalizing bucket with
  | zero => exact Attempt.confined_pure trivial
  | succ left ih =>
    refine (partitionIsLive_confined rfl).bind fun live _ => ?_
    cases live with
    | true => exact Attempt.confined_pure trivial
    | false => exact ih

theorem firstLiveSlice_confined : (v.firstLiveSlice q left slice).Confined q fun _ => True := by
  induction left generalizing slice with
  | zero => exact Attempt.confined_pure trivial
  | succ left ih =>
    refine sliceIsLive_confined.bind fun live _ => ?_
    cases live with
    | true => exact Attempt.confined_pure trivial
    | false => exact ih

theorem maintain_confined : (v.maintain q).Confined q fun _ => True := by
  have hlooked {start : Slice} {t : Instant} {search : List Exchange} {found : Except Error Slice}
      (h : v.Searches q start t search found) (hf : ∀ x ∈ looked q start t search, x.Fits) :
      ∀ x ∈ looked q start t search, x.action.Concerns q := by
    refine looked_takes rfl trivial (Operation.Confined.ends firstLiveSlice_confined h.2 ?_).2
    exact fun x hx => hf x (List.mem_cons_of_mem _ (List.mem_cons_of_mem _ hx))
  refine (Operation.confined_of_ends fun path result he hfits => ?_).mono fun _ _ _ _ => trivial
  cases maintains_of_ends he with
  | unread | unopened => exact List.forall_mem_singleton.mpr rfl
  | settled => exact looked_takes rfl trivial (List.forall_mem_singleton.mpr trivial)
  | unfound hsearch | standing hsearch => exact hlooked hsearch hfits
  | raising hsearch =>
    obtain ⟨hfits, -⟩ := List.forall_mem_append.mp hfits
    exact List.forall_mem_append.mpr ⟨hlooked hsearch hfits, List.forall_mem_singleton.mpr rfl⟩

theorem advanceBrowseStart_confined : (v.advanceBrowseStart q).Confined q fun _ => True := by
  refine Operation.Confined.bind (P := fun _ => True) trivial fun _ _ => ?_
  refine Operation.Confined.bind maintain_confined.inSpan fun result _ => ?_
  refine reportMaintenance_reports.confined.bind fun outcome _ => ?_
  exact fun _ _ => trivial

-- ---------------------------------------------------------------------------
-- Deletes
-- ---------------------------------------------------------------------------

/-- Maintenance does not depend on the deletes of others. -/
def Steady (v : View) : Prop := ∀ n, v.advancePolicy ≠ .everyNth n

theorem maintenanceIsDue_confined (hv : v.Steady) :
    v.maintenanceIsDue.Confined q fun _ => True := by
  unfold maintenanceIsDue
  split
  · trivial
  · trivial
  · rename_i n hn
    exact absurd hn (hv n)

theorem followUp_confined (hv : v.Steady) : (v.followUp q).Confined q fun _ => True := by
  refine (Attempt.confined_lift (maintenanceIsDue_confined hv)).bind fun due _ => ?_
  cases due with
  | false => exact Attempt.confined_pure trivial
  | true =>
    refine advanceBrowseStart_confined.inSpan.outcome.bind fun result _ => ?_
    cases result with
    | ok _ => exact Attempt.confined_pure trivial
    | error e => exact Attempt.confined_report.inSpan

theorem delete_confined (hv : v.Steady) : (v.delete q key slice).Confined q fun _ => True := by
  have hbury : (bury q key slice).Confined q fun _ => True := by
    refine (Operation.Takes.confined ?_).mono fun _ _ _ _ => trivial
    refine Operation.takes_of_ends fun path result he => ?_
    rw [bury_ends he]
    cases result <;> simp [buried, counted, Action.Concerns, StoreCall.queue]
  exact hbury.bind fun _ _ => followUp_confined hv

theorem deleteAccepted_confined {b : Browse} (hv : v.Steady) (h : b.OfQueue q) :
    (v.deleteAccepted filter limit n b).Confined q fun _ => True := by
  induction limit generalizing n b with
  | zero => exact Attempt.confined_pure trivial
  | succ limit ih =>
    refine (Attempt.confined_lift (Browse.pull_confined h)).bind ?_
    rintro ⟨_ | e | x, b'⟩ ⟨hx, hb⟩
    · exact Attempt.confined_pure trivial
    · exact Attempt.confined_throw
    · obtain rfl : x.queue = q := hx
      dsimp only
      split
      · exact (delete_confined hv).bind fun _ _ => ih hb
      · exact ih hb

theorem deleteMatching_confined (hv : v.Steady) :
    (v.deleteMatching q filter).Confined q fun _ => True := by
  refine Browse.ofQueue_confined.bind fun _ hb => ?_
  refine (deleteAccepted_confined hv hb).bind fun _ _ => ?_
  exact Attempt.confined_report.bind fun _ _ => Attempt.confined_pure trivial

-- ---------------------------------------------------------------------------
-- Records
-- ---------------------------------------------------------------------------

theorem openQueue_confined : (v.openQueue q).Confined q fun _ => True := by
  have hestablish {slice : Slice} : (BrowseStart.establish q slice).Confined q fun _ => True := by
    refine (Operation.confined_of_ends fun path result he _ => ?_).mono fun _ _ _ _ => trivial
    cases BrowseStart.establishes_of_ends he <;> simp [Action.Concerns, StoreCall.queue]
  refine Attempt.confined_now.bind fun t _ => hestablish.bind fun _ _ => ?_
  exact Attempt.confined_report.bind fun _ _ => Attempt.confined_pure trivial

theorem recordAt_confined (hkey : new.key.isSome) :
    (v.recordAt q new moment).Confined q fun _ => True := by
  obtain ⟨key, hkey⟩ := Option.isSome_iff_exists.mp hkey
  refine (Operation.Takes.confined ((recordAt_takes hkey).mono ?_)).mono fun _ _ _ _ => trivial
  intro action ha
  cases action with
  | store c => obtain rfl | rfl | rfl := ha <;> rfl
  | report => trivial
  | _ => exact ha.elim

theorem record_confined (hkey : new.key.isSome) : (v.record q new).Confined q fun _ => True :=
  Attempt.confined_now.bind fun _ _ => recordAt_confined hkey

end View

end SpoolIndex
