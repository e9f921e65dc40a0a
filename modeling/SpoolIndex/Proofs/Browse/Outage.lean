import SpoolIndex.Proofs.Browse.Calls
import SpoolIndex.Proofs.Interleaving.Steps

/-!
# Browsing while some lookups fail

An `Outage` is a store and a clock at rest, and page fetches and tombstone lookups
that fail, each by its arguments alone. Whoever reads the live items of a
partition in the order of their keys meets the calls of `Outage.visits` in this
order. Up to the first of them that fails there are the `Outage.items` of the
partition, and the failure is its `Outage.error?`. The rows that a scan pulls are those
of the visits up to the first page that fails (`Outage.start_scans`), and its steps look
them up one by one (`Outage.step_scans`).
-/

namespace SpoolIndex

-- ---------------------------------------------------------------------------
-- Replies that never change
-- ---------------------------------------------------------------------------

namespace Operation

def eval (reply : (action : Action) → action.Reply) : Operation α → α
  | done value => value
  | act action next => (next (reply action)).eval reply

variable {reply : (action : Action) → action.Reply}

@[simp]
theorem eval_pure (value : α) : (pure value : Operation α).eval reply = value := rfl

@[simp]
theorem eval_bind (op : Operation α) (f : α → Operation β) :
    (op >>= f).eval reply = (f (op.eval reply)).eval reply := by
  induction op with
  | done value => rfl
  | act action next ih => exact ih (reply action)

theorem eval_attempt {x : Attempt α} {f : α → Attempt β} (h : x.run.eval reply = .ok value) :
    (x >>= f).run.eval reply = (f value).run.eval reply := by
  rw [ExceptT.run_bind, eval_bind, h]

theorem eval_lift {op : Operation α} (h : op.eval reply = value) :
    (liftM op : Attempt α).run.eval reply = .ok value := by
  rw [ExceptT.run_liftM, ← bind_pure_comp, eval_bind, h]
  rfl

theorem run_attempt {answer : (action : Action) → σ → action.Reply × σ} {x : Attempt α}
    {f : α → Attempt β} {w w' : σ} (h : x.run.run answer w = (.ok value, w')) :
    (x >>= f).run.run answer w = (f value).run.run answer w' := by
  rw [ExceptT.run_bind]
  refine (run_bind answer _ _ w).trans ?_
  rw [h]

theorem run_eq_eval {answer : (action : Action) → σ → action.Reply × σ} {op : Operation α}
    (h : op.Takes fun action => (answer action s).2 = s) :
    op.run answer s = (op.eval fun action => (answer action s).1, s) := by
  induction op with
  | done value => rfl
  | act action next ih => rw [run_act, h.1, ih _ (h.2 _), eval]

end Operation

-- ---------------------------------------------------------------------------
-- Outages
-- ---------------------------------------------------------------------------

structure Outage where
  store : Store
  clock : Instant
  /-- How the fetch of a page fails, if it does. -/
  scanFault : Partition → Option Token → Nat → Option Error
  /-- How the lookup of a tombstone fails, if it does. -/
  lookupFault : QueueName → Key → Option Error

/-- A call that is due when a partition is read. -/
inductive Visit where
  | fetch (after : Option Token)
  | look (item : Item)

/-- The visits to rows of which `room` fit on the page at hand: each row is looked up, and after the
last row on a page the next one is fetched. -/
def pageVisits (limit : Nat) : (room : Nat) → List Item → List Visit
  | _, [] => []
  | room, x :: rows =>
    .look x :: if room ≤ 1 then .fetch (some (.after x.key)) :: pageVisits limit limit rows
      else pageVisits limit (room - 1) rows

def Visit.call (p : Partition) (limit : Nat) : Visit → StoreCall
  | .fetch after => .scanItems p after limit
  | .look x => .hasTombstone x.queue x.key

namespace Outage

def fault (w : Outage) : StoreCall → Option Error
  | .scanItems p after limit => w.scanFault p after limit
  | .hasTombstone q key => w.lookupFault q key
  | _ => none

def answer (w : Outage) : (action : Action) → Store → action.Reply × Store
  | .store c, s =>
    match w.fault c with
    | some e => (.error e, s)
    | none => s.perform c
  | action, s => s.answer w.clock action

def reply (w : Outage) (action : Action) : action.Reply := (w.answer action w.store).1

theorem reply_of_fault {w : Outage} (h : w.fault c = some e) : w.reply (.store c) = .error e := by
  simp only [reply, answer, h]

theorem reply_of_no_fault {w : Outage} (h : w.fault c = none) :
    w.reply (.store c) = (w.store.perform c).1 := by
  simp only [reply, answer, h]

section
variable (w : Outage) (v : View) (p : Partition)

def visits : List Visit := .fetch none :: pageVisits v.pageSize v.pageSize (w.store.items p)

def failure? (visit : Visit) : Option Error := w.fault (visit.call p v.pageSize)

def live? : Visit → Option Item
  | .fetch _ => none
  | .look x => if (w.store.tombstones x.queue).contains x.key then none else some x

/-- The live items of the partition before the first call that fails. -/
def items : List Item :=
  ((w.visits v p).takeWhile fun visit => (w.failure? v p visit).isNone).filterMap w.live?

def error? : Option Error := (w.visits v p).findSome? (w.failure? v p)

-- ---------------------------------------------------------------------------
-- Rows
-- ---------------------------------------------------------------------------

/-- The rows that visits give, up to the first page that is not to be had. -/
def rowsOf : List Visit → List (Except Error Item)
  | [] => []
  | .look x :: visits => .ok x :: rowsOf visits
  | .fetch after :: visits =>
    match w.scanFault p after v.pageSize with
    | some e => [.error e]
    | none => rowsOf visits

def outcome : List (Except Error Item) → List Item × Option Error
  | [] => ([], none)
  | .error e :: _ => ([], some e)
  | .ok x :: rows =>
    match w.lookupFault x.queue x.key with
    | some e => ([], some e)
    | none => (((w.live? (.look x)).toList ++ (outcome rows).1), (outcome rows).2)

theorem outcome_rowsOf (visits : List Visit) : w.outcome (w.rowsOf v p visits) =
    ((visits.takeWhile fun visit => (w.failure? v p visit).isNone).filterMap w.live?,
      visits.findSome? (w.failure? v p)) := by
  induction visits with
  | nil => rfl
  | cons visit visits ih =>
    cases visit with
    | look x =>
      rw [rowsOf, outcome, List.takeWhile_cons, List.findSome?_cons, failure?, Visit.call, fault]
      cases hl : w.lookupFault x.queue x.key with
      | some e => rfl
      | none =>
        simp only [ih, Option.isNone_none, ↓reduceIte, List.filterMap_cons]
        cases w.live? (.look x) <;> rfl
    | fetch after =>
      rw [rowsOf, List.takeWhile_cons, List.findSome?_cons, failure?, Visit.call, fault]
      cases hs : w.scanFault p after v.pageSize with
      | some e => rfl
      | none => simpa only [Option.isNone_none, ↓reduceIte, List.filterMap_cons, live?] using ih

inductive Left : Rows Item → List Visit → Prop
  | finished : Left .finished []
  | fetch {after : Option Token} {bound : Option Key} (h : Token.bound after = .ok bound) :
    Left ⟨[], some after⟩ (.fetch after ::
      pageVisits v.pageSize v.pageSize (afterBound Item.key bound (w.store.items p)))
  | ready {x : Item} {ready : List Item} {next : Option (Option Token)} {visits : List Visit}
    (h : Left ⟨ready, next⟩ visits) : Left ⟨x :: ready, next⟩ (.look x :: visits)

end

section
variable {w : Outage} {v : View} {p : Partition}

theorem left_page (hs : SortedByKey Item.key (w.store.items p)) {rest : List Item} {room : Nat}
    (hroom : 0 < room) (hrest : ∃ front, w.store.items p = front ++ rest) :
    w.Left v p (.ofPage (.ofRows (rest.take room) room Item.key))
      (pageVisits v.pageSize room rest) := by
  induction rest generalizing room with
  | nil =>
    have hfull : ¬room ≤ 0 := by omega
    simp only [List.take_nil, Page.ofRows, List.length_nil, hfull, ↓reduceIte, pageVisits]
    exact .finished
  | cons x rest ih =>
    obtain ⟨front, hrest⟩ := hrest
    obtain ⟨room, rfl⟩ : ∃ n, room = n + 1 := ⟨room - 1, by omega⟩
    rw [List.take_succ_cons, pageVisits]
    by_cases hlast : room + 1 ≤ 1
    · obtain rfl : room = 0 := by omega
      simp only [List.take_zero, Nat.zero_add, Nat.le_refl, ↓reduceIte]
      have hbound := afterBound_append (hrest ▸ hs)
      rw [← hrest] at hbound
      refine .ready ?_
      have hfetch := Left.fetch (w := w) (v := v) (p := p) (Token.bound_after x.key)
      rw [hbound] at hfetch
      exact hfetch
    · rw [if_neg hlast, Nat.add_sub_cancel]
      have hroom : 0 < room := by omega
      rw [Page.ofRows_cons hroom]
      exact .ready (ih hroom ⟨front ++ [x], by simpa using hrest⟩)

theorem left_pageAfter (hs : SortedByKey Item.key (w.store.items p)) (hl : 0 < v.pageSize)
    (bound : Option Key) :
    w.Left v p (.ofPage (pageAfter Item.key bound v.pageSize (w.store.items p)))
      (pageVisits v.pageSize v.pageSize (afterBound Item.key bound (w.store.items p))) :=
  left_page hs hl (exists_append_afterBound hs bound)

def Gives (w : Outage) (v : View) (p : Partition) (rows : Rows Item)
    (results : List (Except Error Item)) : Prop :=
  ∃ visits, w.Left v p rows visits ∧ w.rowsOf v p visits = results

theorem gives_finished : w.Gives v p .finished [] := ⟨[], .finished, rfl⟩

theorem pull_gives (hs : w.store.Proper) (hl : 0 < v.pageSize) (h : w.Gives v p rows results) :
    ∃ rows', (rows.pull (itemPages p v.pageSize)).eval w.reply = (results.head?, rows') ∧
      w.Gives v p rows' results.tail := by
  obtain ⟨visits, hleft, rfl⟩ := h
  cases hleft with
  | finished => exact ⟨.finished, rfl, gives_finished⟩
  | ready hleft => exact ⟨_, rfl, _, hleft, rfl⟩
  | @fetch after bound hbound =>
    have hfetch : (itemPages p v.pageSize after).run.eval w.reply =
      w.reply (.store (.scanItems p after v.pageSize)) := rfl
    rw [Rows.pull, Operation.eval_bind, hfetch, rowsOf]
    cases hscan : w.scanFault p after v.pageSize with
    | some e =>
      have hfault : w.fault (.scanItems p after v.pageSize) = some e := hscan
      rw [reply_of_fault hfault]
      exact ⟨.finished, rfl, gives_finished⟩
    | none =>
      have hfault : w.fault (.scanItems p after v.pageSize) = none := hscan
      rw [reply_of_no_fault hfault, Store.perform, hbound]
      have hpage := left_pageAfter (hs.sorted p) hl bound
      have hnil : (pageAfter Item.key bound v.pageSize (w.store.items p)).rows = [] →
          (pageAfter Item.key bound v.pageSize (w.store.items p)).next = none :=
        pageAfter_next_nil hl
      simp only [Except.map]
      generalize pageAfter Item.key bound v.pageSize (w.store.items p) = page at hpage hnil ⊢
      generalize pageVisits v.pageSize v.pageSize _ = visits at hpage ⊢
      obtain ⟨found, next⟩ := page
      cases found with
      | nil =>
        obtain rfl : next = none := hnil rfl
        cases hpage
        exact ⟨.finished, rfl, gives_finished⟩
      | cons x found =>
        cases hpage with
        | ready hleft => exact ⟨_, rfl, _, hleft, rfl⟩

-- ---------------------------------------------------------------------------
-- Scans
-- ---------------------------------------------------------------------------

structure Scans (w : Outage) (v : View) (p : Partition) (scan : PartitionScan)
    (results : List (Except Error Item)) : Prop where
  partition : scan.partition = p
  rows : ∃ later, scan.waiting ++ later = results ∧ w.Gives v p scan.rows later

theorem start_scans (hs : w.store.Proper) (hl : 0 < v.pageSize) :
    w.Scans v p ((PartitionScan.start v p).eval w.reply) (w.rowsOf v p (w.visits v p)) ∧
      ((PartitionScan.start v p).eval w.reply).failed = false := by
  have hfetch : (itemPages p v.pageSize none).run.eval w.reply =
    w.reply (.store (.scanItems p none v.pageSize)) := rfl
  rw [PartitionScan.start, Operation.eval_bind, hfetch, visits, rowsOf]
  cases hscan : w.scanFault p none v.pageSize with
  | some e =>
    have hfault : w.fault (.scanItems p none v.pageSize) = some e := hscan
    rw [reply_of_fault hfault]
    exact ⟨⟨rfl, [], rfl, gives_finished⟩, rfl⟩
  | none =>
    have hfault : w.fault (.scanItems p none v.pageSize) = none := hscan
    rw [reply_of_no_fault hfault]
    exact ⟨⟨rfl, _, rfl, _, left_pageAfter (hs.sorted p) hl none, rfl⟩, rfl⟩

structure Refilled (w : Outage) (v : View) (p : Partition) (scan scan' : PartitionScan)
    (results : List (Except Error Item)) : Prop where
  scans : w.Scans v p scan' results
  failed : scan'.failed = scan.failed
  waiting : scan.waiting ≠ [] → scan'.waiting ≠ []

theorem refill_scans {scan : PartitionScan} (hs : w.store.Proper) (hl : 0 < v.pageSize)
    (h : w.Scans v p scan results) (room : Nat) :
    w.Refilled v p scan ((scan.refill v room).eval w.reply) results ∧
      (0 < room → ((scan.refill v room).eval w.reply).waiting = [] → results = []) := by
  induction room generalizing scan with
  | zero => exact ⟨⟨h, rfl, id⟩, fun h => absurd h (Nat.lt_irrefl 0)⟩
  | succ room ih =>
    obtain ⟨p', rows, waiting, failed⟩ := scan
    obtain ⟨rfl, later, rfl, hgives⟩ := h
    obtain ⟨rows', hpull, hrest⟩ := pull_gives hs hl hgives
    dsimp only at hpull
    rw [PartitionScan.refill, Operation.eval_bind, hpull]
    cases later with
    | nil =>
      refine ⟨⟨⟨rfl, [], rfl, hrest⟩, rfl, id⟩, fun _ hnil => ?_⟩
      rw [List.append_nil]
      exact hnil
    | cons row later =>
      have hnext : w.Scans v p' ⟨p', rows', waiting ++ [row], failed⟩
          (waiting ++ row :: later) := ⟨rfl, later, by simp, hrest⟩
      have hrefill := (ih hnext).1
      have hne := hrefill.waiting (by simp)
      exact ⟨⟨hrefill.scans, hrefill.failed, fun _ => hne⟩, fun _ hnil => absurd hnil hne⟩

theorem step_scans {scan : PartitionScan} (hs : w.store.Proper) (hl : 0 < v.pageSize)
    (h : w.Scans v p scan results) :
    ∃ scan', w.Scans v p scan' results.tail ∧ scan'.failed = scan.failed ∧
      (scan.step v).eval w.reply = match results with
        | [] => (.ended, scan')
        | .error e :: _ => scan'.deliver (.error (.partition p e))
        | .ok x :: _ =>
          match w.lookupFault x.queue x.key, w.live? (.look x) with
          | some e, _ => scan'.deliver (.error (.partition p e))
          | none, none => (.working, scan')
          | none, some x => scan'.deliver (.ok x) := by
  -- there is room for more rows or a row that waits, so without any the scan is over
  have hlook : 0 < lookahead - scan.waiting.length ∨ scan.waiting ≠ [] := by
    cases scan.waiting with
    | nil => exact .inl (by decide)
    | cons => exact .inr (List.cons_ne_nil _ _)
  obtain ⟨⟨⟨rfl, later, rfl, hgives⟩, hfailed, hkept⟩, hempty⟩ :=
    refill_scans hs hl h (lookahead - scan.waiting.length)
  rw [PartitionScan.step, Operation.eval_bind]
  generalize (scan.refill v (lookahead - scan.waiting.length)).eval w.reply = filled at *
  obtain ⟨p, rows, waiting, failed⟩ := filled
  cases waiting with
  | nil =>
    have hnone : [] ++ later = [] := by
      rcases hlook with hroom | hne
      · exact hempty hroom rfl
      · exact absurd rfl (hkept hne)
    obtain rfl : later = [] := hnone
    exact ⟨⟨p, rows, [], failed⟩, ⟨rfl, [], rfl, hgives⟩, hfailed, rfl⟩
  | cons row waiting =>
    refine ⟨⟨p, rows, waiting, failed⟩, ⟨rfl, later, rfl, hgives⟩, hfailed, ?_⟩
    cases row with
    | error e => rfl
    | ok x =>
      have hcall : (Attempt.call (.hasTombstone x.queue x.key)).run.eval w.reply =
        w.reply (.store (.hasTombstone x.queue x.key)) := rfl
      simp only [List.cons_append, PartitionScan.look, Operation.eval_bind, hcall]
      cases hl : w.lookupFault x.queue x.key with
      | some e =>
        have hfault : w.fault (.hasTombstone x.queue x.key) = some e := hl
        rw [reply_of_fault hfault]
        rfl
      | none =>
        have hfault : w.fault (.hasTombstone x.queue x.key) = none := hl
        rw [reply_of_no_fault hfault]
        simp only [Store.perform, live?]
        cases (w.store.tombstones x.queue).contains x.key <;> rfl

end

end Outage

end SpoolIndex
