import SpoolIndex.Proofs.View.Deletion

/-!
# Requests to a view

A request is one whole operation of a view. Requests that record append an
item, all others leave the rows alone, and each keeps to a contract that
maintenance keeps to (`Request.keeps`).
-/

namespace SpoolIndex

inductive Request where
  | openQueue (queue : QueueName)
  | record (queue : QueueName) (new : NewItem)
  | recordAt (queue : QueueName) (new : NewItem) (moment : Instant)
  | enqueue (queue : QueueName) (new : NewItem)
  | delete (queue : QueueName) (key : Key) (slice : Slice)
  | deleteItem (item : Item)
  | deleteMatching (queue : QueueName) (filter : ItemFilter)
  | advance (queue : QueueName)
  /-- Pulls up to `limit` results from a new browse. -/
  | browse (queue : QueueName) (limit : Nat)
  | size (queue : QueueName)

inductive Response where
  | opened (start : Slice)
  | recorded (key : Key)
  | enqueued (result : Enqueued)
  | deleted
  | deletedMatching (number : Nat)
  | maintained (result : Advance)
  | browsed (results : List (Except Error Item)) (failures : List PartitionFailure)
  | counted (number : Nat)

namespace Request

def perform (v : View) : Request → Attempt Response
  | openQueue q => return .opened (← v.openQueue q)
  | record q new => return .recorded (← v.record q new)
  | recordAt q new moment => return .recorded (← v.recordAt q new moment)
  | enqueue q new => return .enqueued (← v.enqueue q new)
  | delete q key slice => do
    v.delete q key slice
    return .deleted
  | deleteItem x => do
    v.deleteItem x
    return .deleted
  | deleteMatching q filter => return .deletedMatching (← v.deleteMatching q filter)
  | advance q => return .maintained (← v.advanceBrowseStart q)
  | browse q limit => do
    let ((results, _), b) ← (← Browse.ofQueue q).pullMany v limit []
    return .browsed results b.failures
  | size q => return .counted (← v.size q)

def IsRecord : Request → Prop
  | record .. | recordAt .. | enqueue .. => True
  | _ => False

/-- Whether the result tells that an item was recorded. -/
def acknowledged : Except Error Response → Bool
  | .ok (.recorded _) => true
  | .ok (.enqueued e) => e.isIndexed
  | _ => false

variable {k : Contract} {v : View} {r : Request} {s : Store}

theorem keeps_then {x : Attempt α} {f : α → Response} (h : x.run.Keeps k (fun _ _ => True) s) :
    (do return f (← x) : Attempt Response).run.Keeps k (fun _ _ => True) s := by
  refine Attempt.keeps_bind.mpr (h.mono ?_)
  rintro (e | value) s' - <;> trivial

theorem browse_keeps (hk : k.AllowsReads) :
    ((browse q limit).perform v).run.Keeps k (fun _ _ => True) s := by
  refine Attempt.keeps_bind.mpr ((hk.keeps_reads (Browse.ofQueue_calls.mono ?_)).mono ?_)
  · rintro c rfl
    trivial
  rintro (e | b) s' -
  · trivial
  refine Attempt.keeps_bind.mpr (Attempt.keeps_lift.mpr ?_)
  refine (hk.keeps_reads (Browse.pullMany_calls.mono fun _ hc => hc.isRead)).mono ?_
  exact fun _ _ _ => trivial

theorem size_keeps (hk : k.AllowsReads) : (v.size q).run.Keeps k (fun _ _ => True) s := by
  refine Attempt.keeps_bind.mpr ((hk.keeps_reads (Browse.ofQueue_calls.mono ?_)).mono ?_)
  · rintro c rfl
    trivial
  rintro (e | b) s' -
  · trivial
  · refine (hk.keeps_reads (View.countItems_calls.mono ?_)).mono fun _ _ _ => trivial
    exact fun _ hc => hc.isRead

theorem keeps_upkeep (hk : ∀ q, k.AllowsUpkeep v q) (hr : ¬r.IsRecord) :
    (r.perform v).run.Keeps k (fun _ _ => True) s := by
  cases r with
  | openQueue q => exact keeps_then (View.openQueue_keeps (hk q))
  | record | recordAt | enqueue => exact absurd trivial hr
  | delete q key slice => exact keeps_then (f := fun _ => .deleted) (View.delete_keeps (hk q))
  | deleteItem x => exact keeps_then (f := fun _ => .deleted) (View.delete_keeps (hk x.queue))
  | deleteMatching q filter => exact keeps_then (View.deleteMatching_keeps hk)
  | advance q => exact keeps_then (View.advanceBrowseStart_keeps (hk q).maintain)
  | browse q limit => exact browse_keeps (hk q).toAllowsReads
  | size q => exact keeps_then (size_keeps (hk q).toAllowsReads)

theorem keeps_record (hk : k.AllowsRecords v) (hr : r.IsRecord) :
    (r.perform v).run.Keeps k (fun _ _ => True) s := by
  cases r with
  | record q new => exact keeps_then (View.record_keeps hk)
  | recordAt q new moment => exact keeps_then (View.recordAt_keeps hk)
  | enqueue q new => exact keeps_then (View.enqueue_keeps hk)
  | _ => exact hr.elim

theorem keeps (hk : k.Protects p key)
    (hm : ∀ s, (v.maintain p.queue).run.Keeps k (fun _ _ => True) s) :
    (r.perform v).run.Keeps k (fun _ _ => True) s := by
  by_cases hr : r.IsRecord
  · exact keeps_record hk.allowsRecords hr
  · exact keeps_upkeep (fun _ => hk.allowsUpkeep hm) hr

theorem afterAppend_then {x : Attempt α} {f : α → Response}
    {post : Item → Except Error α → Store → Prop}
    {post' : Item → Except Error Response → Store → Prop} (h : x.run.AfterAppend k post)
    (hpost : ∀ y result s, post y result s → post' y (result.map f) s) :
    (do return f (← x) : Attempt Response).run.AfterAppend k post' := by
  rw [ExceptT.run_bind]
  refine h.bind ?_ ?_
  · rintro (e | value) <;> trivial
  · rintro y (e | value) s hp <;> exact hpost y _ s hp

/-- A request that appended an item reports it as recorded just if browses still reach it when it
looks at the browse start again. -/
theorem afterAppend (hk : k.AllowsRecords v) (hr : r.IsRecord) :
    (r.perform v).run.AfterAppend k
      fun x result s => Reported k x (acknowledged result) s := by
  cases r with
  | record q new =>
    refine afterAppend_then (View.record_afterAppend hk) ?_
    rintro x (e | key) s h <;> exact h
  | recordAt q new moment =>
    refine afterAppend_then (View.recordAt_afterAppend hk) ?_
    rintro x (e | key) s h <;> exact h
  | enqueue q new =>
    refine afterAppend_then (View.enqueue_afterAppend hk) ?_
    rintro x _ s ⟨e, rfl, h⟩
    exact h
  | _ => exact hr.elim

end Request

-- ---------------------------------------------------------------------------
-- What small runs are about
-- ---------------------------------------------------------------------------

namespace Sample

def view : View := .ofConfig .default

def spool : QueueName := ⟨"spool"⟩

def mail : NewItem := (NewItem.new "mail" ⟨"header"⟩ ⟨"body"⟩).withKey default

def twoHours : Instant := .startOf 7200 (by decide) (by decide)

def opened : Store := Store.empty.setStart spool (.clamp 0)

theorem opened_proper : opened.Proper := ⟨fun _ => .nil, fun _ _ h => nomatch h⟩

end Sample

end SpoolIndex
