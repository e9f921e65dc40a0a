import SpoolIndex.Proofs.Installation.Exactness
import SpoolIndex.Proofs.Interleaving.SettleWindow
import SpoolIndex.Proofs.View.Confinement

/-!
# Queues do not interfere

Views with a steady advance policy do jobs on several queues of one store, also
under keys that the queues share. What the jobs on one queue give, and what the
store has of that queue in the end, is the same as if there had been no jobs on
any other queue (`Installation.queues_apart`).
-/

namespace SpoolIndex

-- ---------------------------------------------------------------------------
-- Stores that agree on a queue
-- ---------------------------------------------------------------------------

namespace Store

structure SameOn (q : QueueName) (s s' : Store) : Prop where
  items : ∀ p, p.queue = q → s'.items p = s.items p
  tombstones : s'.tombstones q = s.tombstones q
  start : s'.start q = s.start q

variable {q : QueueName} {s s' : Store}

theorem SameOn.refl (q : QueueName) (s : Store) : s.SameOn q s := ⟨fun _ _ => rfl, rfl, rfl⟩

theorem SameOn.append (h : s.SameOn q s') (x : Item) : (s.append x).SameOn q (s'.append x) where
  items p hp := by
    by_cases hx : p = x.partition
    · subst hx
      rw [items_append_same, items_append_same, h.items _ hp]
    · rw [items_append_other _ _ hx, items_append_other _ _ hx, h.items p hp]
  tombstones := h.tombstones
  start := h.start

theorem SameOn.bury (h : s.SameOn q s') (key : Key) : (s.bury q key).SameOn q (s'.bury q key) where
  items := h.items
  tombstones := by rw [tombstones_bury_same, tombstones_bury_same, h.tombstones]
  start := h.start

theorem SameOn.setStart (h : s.SameOn q s') (slice : Slice) :
    (s.setStart q slice).SameOn q (s'.setStart q slice) where
  items := h.items
  tombstones := h.tombstones
  start := by rw [start_setStart_same, start_setStart_same]

theorem SameOn.perform (h : s.SameOn q s') (hc : c.queue = q) :
    (s'.perform c).1 = (s.perform c).1 ∧ (s.perform c).2.SameOn q (s'.perform c).2 := by
  subst hc
  cases c with
  | appendItem x => exact ⟨rfl, h.append x⟩
  | scanItems p after limit => exact ⟨by simp only [Store.perform, h.items p rfl], h⟩
  | hasItems p => exact ⟨by simp only [Store.perform, h.items p rfl], h⟩
  | putTombstone q key => exact ⟨rfl, h.bury key⟩
  | hasTombstone q key =>
    have ht : s'.tombstones q = s.tombstones q := h.tombstones
    exact ⟨by simp only [Store.perform, ht], h⟩
  | scanTombstones q after limit =>
    have ht : s'.tombstones q = s.tombstones q := h.tombstones
    exact ⟨by simp only [Store.perform, ht], h⟩
  | readStart q => exact ⟨congrArg Except.ok h.start, h⟩
  | swapStart q condition slice =>
    have hs : s'.start q = s.start q := h.start
    have happlies : s'.swapApplies q condition slice = s.swapApplies q condition slice := by
      simp only [swapApplies, hs]
    simp only [Store.perform, happlies]
    split
    · exact ⟨rfl, h.setStart slice⟩
    · exact ⟨rfl, h⟩

theorem SameOn.perform_other (h : s.SameOn q s') (hc : c.queue ≠ q) :
    s.SameOn q (s'.perform c).2 := by
  cases c with
  | appendItem x =>
    refine ⟨fun p hp => ?_, h.tombstones, h.start⟩
    have hx : p ≠ x.partition := fun he => hc (by rw [← hp, he]; rfl)
    exact (items_append_other _ _ hx).trans (h.items p hp)
  | putTombstone q' key =>
    have hq : q ≠ q' := Ne.symm hc
    exact ⟨h.items, (tombstones_bury_other s' q' key hq).trans h.tombstones, h.start⟩
  | swapStart q' condition slice =>
    have hq : q ≠ q' := Ne.symm hc
    simp only [Store.perform]
    split
    · exact ⟨h.items, h.tombstones, (start_setStart_other s' slice hq).trans h.start⟩
    · exact h
  | _ => exact h

theorem fits_perform (hs : s.Proper) (c : StoreCall) : c.Fits (s.perform c).1 := by
  cases c with
  | scanItems p after limit =>
    cases hb : Token.bound after with
    | error e => simp only [Store.perform, hb]; trivial
    | ok bound =>
      simp only [Store.perform, hb]
      intro x hx
      rw [← hs.placed p x (pageAfter_rows hx).1]
      rfl
  | _ => trivial

end Store

namespace Installation

-- ---------------------------------------------------------------------------
-- Runs that agree on a queue
-- ---------------------------------------------------------------------------

/-- The clocks are the same, and both stores are in memory and have the same of the queue. -/
structure Agree (q : QueueName) (w w' : Installation) : Prop where
  clocks : w'.clocks = w.clocks
  stores : ∃ s calls s' calls', w.Stores s calls ∧ w'.Stores s' calls' ∧ s.Proper ∧ s'.Proper ∧
    s.SameOn q s'

section
variable {q : QueueName} {w w' : Installation} (seat : Seat)

theorem Agree.run {op : Operation α} (h : Agree q w w') (hop : op.Confined q post) :
    (w'.run seat op).1 = (w.run seat op).1 ∧ Agree q (w.run seat op).2 (w'.run seat op).2 := by
  obtain ⟨-, s, calls, s', calls', hw, hw', -⟩ := id h
  rw [run_eq op hw, run_eq op hw']
  clear hw hw'
  -- by induction on what is left to do: equal replies choose the same branch on both sides
  induction op generalizing w w' with
  | done value => exact ⟨rfl, h⟩
  | act action next ih =>
    rw [Operation.run_act, Operation.run_act]
    cases action with
    | store c =>
      obtain ⟨hclocks, s, calls, s', calls', hw, hw', hs, hs', hsame⟩ := h
      obtain ⟨hreply, hsame⟩ := hsame.perform hop.1
      rw [answer_store hw, answer_store hw', hreply]
      exact ih _ ⟨hclocks, _, _, _, _, rfl, rfl, (Store.grows_perform s c).proper hs,
        (Store.grows_perform s' c).proper hs', hsame⟩ (hop.2 _ (Store.fits_perform hs c))
    | now =>
      have hnow : answer seat .now w' = (w.now seat.clock, w') := by
        simp only [answer, now, h.clocks]
      rw [hnow]
      exact ih _ h (hop _)
    | report r => exact ih _ ⟨h.clocks, h.stores⟩ hop
    | _ => exact hop.elim

theorem Agree.run_other {op : Operation α} (h : Agree q w w') (hop : op.Confined q' post)
    (hq : q' ≠ q) : Agree q w (w'.run seat op).2 := by
  obtain ⟨-, s, calls, s', calls', hw, hw', -⟩ := id h
  rw [run_eq op hw']
  clear hw hw'
  induction op generalizing w' with
  | done value => exact h
  | act action next ih =>
    rw [Operation.run_act]
    cases action with
    | store c =>
      obtain ⟨hclocks, s, calls, s', calls', hw, hw', hs, hs', hsame⟩ := h
      obtain ⟨rfl, hnext⟩ := hop
      rw [answer_store hw']
      exact ih _ ⟨hclocks, _, _, _, _, hw, rfl, hs, (Store.grows_perform s' c).proper hs',
        hsame.perform_other hq⟩ (hnext _ (Store.fits_perform hs' c))
    | now => exact ih _ h (hop _)
    | report r => exact ih _ ⟨h.clocks, h.stores⟩ hop
    | _ => exact hop.elim

end

end Installation

-- ---------------------------------------------------------------------------
-- Jobs
-- ---------------------------------------------------------------------------

inductive Job where
  | request (request : Request)
  | isDeleted (queue : QueueName) (key : Key)
  | browseStart (queue : QueueName)

inductive JobResult where
  | response (response : Response)
  | deleted (buried : Bool)
  | browseStart (start : Option Slice)

namespace Job

def queue : Job → QueueName
  | request r => r.queue
  | isDeleted q _ | browseStart q => q

def perform (v : View) : Job → Attempt JobResult
  | request r => return .response (← r.perform v)
  | isDeleted q key => return .deleted (← SpoolIndex.isDeleted q key)
  | browseStart q => return .browseStart (← BrowseStart.current q)

/-- Whether the job neither makes a key nor needs the transport. -/
def IsPlain : Job → Prop
  | request (.record _ new) | request (.recordAt _ new _) => new.key.isSome
  | request (.enqueue ..) => False
  | _ => True

end Job

theorem Attempt.Confined.then {x : Attempt α} {P : α → Prop} (h : x.Confined q P) (f : α → β) :
    (do return f (← x) : Attempt β).Confined q fun _ => True :=
  h.bind fun _ _ => confined_pure trivial

theorem Request.perform_confined {v : View} {r : Request} (hv : v.Steady)
    (hr : (Job.request r).IsPlain) : (r.perform v).Confined r.queue fun _ => True := by
  cases r with
  | openQueue q => exact View.openQueue_confined.then _
  | record q new => exact (View.record_confined hr).then _
  | recordAt q new moment => exact (View.recordAt_confined hr).then _
  | enqueue q new => exact hr.elim
  | delete q key slice => exact (View.delete_confined hv).then fun _ => Response.deleted
  | deleteItem x => exact (View.delete_confined hv).then fun _ => Response.deleted
  | deleteMatching q filter => exact (View.deleteMatching_confined hv).then _
  | advance q => exact View.advanceBrowseStart_confined.then _
  | browse q limit =>
    refine Browse.ofQueue_confined.bind fun b hb => ?_
    exact (Attempt.confined_lift (Browse.pullMany_confined hb)).bind
      fun _ _ => Attempt.confined_pure trivial
  | size q => exact View.size_confined.then _

theorem Job.perform_confined {v : View} {job : Job} (hv : v.Steady) (hjob : job.IsPlain) :
    (job.perform v).Confined job.queue fun _ => True := by
  cases job with
  | request r => exact (Request.perform_confined hv hjob).then _
  | isDeleted q key => exact (Attempt.confined_read _ rfl).then _
  | browseStart q => exact (Attempt.confined_read _ rfl).then _

-- ---------------------------------------------------------------------------
-- Turns
-- ---------------------------------------------------------------------------

inductive Turn where
  | work (view : View) (seat : Seat) (job : Job)
  | clock (clock : Nat) (moment : Instant)

namespace Turn

def concerns (q : QueueName) : Turn → Bool
  | work _ _ job => job.queue = q
  | clock .. => true

def IsPlain : Turn → Prop
  | work v _ job => v.Steady ∧ job.IsPlain
  | clock .. => True

end Turn

namespace Installation

def play (w : Installation) : List Turn →
    List (QueueName × Except Error JobResult) × Installation
  | [] => ([], w)
  | .work v seat job :: turns =>
    let (result, w) := w.run seat (job.perform v).run
    let (results, w) := w.play turns
    ((job.queue, result) :: results, w)
  | .clock clock t :: turns => (w.setClock clock t).play turns

theorem Agree.play {w w' : Installation} (h : Agree q w w')
    (hplain : ∀ turn ∈ turns, turn.IsPlain) :
    (w.play (turns.filter (Turn.concerns q))).1 = (w'.play turns).1.filter (·.1 = q) ∧
      Agree q (w.play (turns.filter (Turn.concerns q))).2 (w'.play turns).2 := by
  induction turns generalizing w w' with
  | nil => exact ⟨rfl, h⟩
  | cons turn turns ih =>
    obtain ⟨hturn, hrest⟩ := List.forall_mem_cons.mp hplain
    cases turn with
    | clock clock t =>
      rw [List.filter_cons_of_pos (by rfl)]
      refine ih ⟨?_, h.stores⟩ hrest
      simp only [setClock, h.clocks]
    | work v seat job =>
      obtain ⟨hv, hjob⟩ := hturn
      have hconfined := Job.perform_confined hv hjob
      by_cases hq : job.queue = q
      · have hkept : (Turn.work v seat job).concerns q = true := decide_eq_true hq
        subst hq
        rw [List.filter_cons_of_pos hkept]
        obtain ⟨hresult, hnext⟩ := h.run seat hconfined
        obtain ⟨hresults, hlast⟩ := ih hnext hrest
        refine ⟨?_, hlast⟩
        simp only [Installation.play, hresult, hresults, List.filter_cons, decide_true, if_true]
      · -- only the second run does a job on another queue
        have hleft : ¬(Turn.work v seat job).concerns q = true := mt of_decide_eq_true hq
        rw [List.filter_cons_of_neg hleft]
        obtain ⟨hresults, hlast⟩ := ih (h.run_other seat hconfined hq) hrest
        refine ⟨?_, hlast⟩
        simp only [Installation.play, hresults, List.filter_cons, decide_eq_true_eq, if_neg hq]

/-- Jobs on other queues make no difference to what the jobs on a queue give, nor to the rows,
tombstones and browse start that the queue has in the end. -/
theorem queues_apart {w : Installation} {s : Store} {calls : List StoreCall}
    (hw : w.Stores s calls) (hs : s.Proper) (hplain : ∀ turn ∈ turns, turn.IsPlain)
    (q : QueueName) :
    (w.play (turns.filter (Turn.concerns q))).1 = (w.play turns).1.filter (·.1 = q) ∧
    ∃ s₁ calls₁ s₂ calls₂, (w.play (turns.filter (Turn.concerns q))).2.Stores s₁ calls₁ ∧
      (w.play turns).2.Stores s₂ calls₂ ∧ s₁.SameOn q s₂ := by
  have hagree : Agree q w w := ⟨rfl, s, calls, s, calls, hw, hw, hs, hs, .refl q s⟩
  obtain ⟨hresults, -, s₁, calls₁, s₂, calls₂, h₁, h₂, -, -, hsame⟩ := hagree.play hplain
  exact ⟨hresults, s₁, calls₁, s₂, calls₂, h₁, h₂, hsame⟩

end Installation

namespace Sample

def eager : View := { view with advancePolicy := .eager }

def letters : QueueName := ⟨"letters"⟩

/-- Two queues get an item of one key, which is then deleted from one of them. -/
def sharedKey : List Turn :=
  [.work eager seat (.request (.record letters mail)),
    .work eager seat (.request (.record spool mail)),
    .work eager seat (.request (.delete letters default (.clamp 2))),
    .clock 0 .epoch,
    .work eager seat (.isDeleted letters default),
    .work eager seat (.isDeleted spool default),
    .work eager seat (.browseStart spool)]

theorem sharedKey_apart : (Installation.blank [twoHours]).Stores .empty [] ∧ Store.empty.Proper ∧
    (∀ turn ∈ sharedKey, turn.IsPlain) ∧
    ((Installation.blank [twoHours]).play sharedKey).1.filter (·.1 = spool) =
      [(spool, .ok (.response (.recorded default))), (spool, .ok (.deleted false)),
        (spool, .ok (.browseStart (some (.clamp 1))))] := by
  have hsteady : eager.Steady := fun _ h => nomatch h
  have hplain : ∀ turn ∈ sharedKey, turn.IsPlain := by
    simp [sharedKey, Turn.IsPlain, Job.IsPlain, hsteady, mail, NewItem.withKey]
  have hw : (Installation.blank [twoHours]).Stores .empty [] := rfl
  obtain ⟨hresults, -⟩ := Installation.queues_apart hw Store.proper_empty hplain spool
  refine ⟨hw, Store.proper_empty, hplain, ?_⟩
  rw [← hresults]
  rfl

end Sample

end SpoolIndex
