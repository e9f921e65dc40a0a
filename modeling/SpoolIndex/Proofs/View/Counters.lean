import SpoolIndex.Proofs.Browse.Deeds
import SpoolIndex.Proofs.View.HandOff

/-!
# Counters and what they count

Whoever works with a view takes one act after the other, and may choose each by what
came of those before (`Session`). Each act comes to certain deeds (`Act.Does`): an
enqueue that is accepted to the record in it, a delete of all that a filter accepts to
the pulls and deletes in it, a delete to its maintenance. Over a whole session the
counters of the view grow by these deeds and by nothing else
(`Session.counters_reconcile`).
-/

namespace SpoolIndex

-- ---------------------------------------------------------------------------
-- EnqueueDeeds
-- ---------------------------------------------------------------------------

def Enqueued.told (key : Key) (receipt : Receipt) : Except Error Key → Enqueued
  | .ok key => .indexed key receipt
  | .error e => .unindexed key receipt e

namespace View

variable {v : View} {q : QueueName} {path : List Exchange}

inductive EnqueueDeeds (v : View) (q : QueueName) (new : NewItem) :
    List Exchange → Except Error Enqueued → List Deed → Prop
  | refused {before : List Exchange} (hbefore : Silent before) (m : Message) (e : Error) :
    EnqueueDeeds v q new (before ++ [⟨.send m, .error e⟩]) (.error e) []
  | accepted {before middle after : List Exchange} {key : Key} {moment : Instant}
    {result : Except Error Key} {deeds : List Deed} (hbefore : Silent before) (m : Message)
    (receipt : Receipt) (h : v.RecordDeeds q (new.withKey key) moment middle result deeds)
    (hafter : Silent after) :
    EnqueueDeeds v q new (before ++ ⟨.send m, .ok receipt⟩ :: (middle ++ after))
      (.ok (.told key receipt result)) deeds

theorem enqueueDeeds_of_ends (h : (v.enqueue q new).run.Ends path result) :
    ∃ deeds, v.EnqueueDeeds q new path result deeds := by
  obtain ⟨moment, key, before, _, rfl, hprepared, hrest⟩ := enqueue_ends h
  have hbefore : Silent before := by
    obtain ⟨-, rfl⟩ | ⟨-, rfl⟩ := hprepared <;> simp [Silent, Action.Silent]
  obtain ⟨sent, _, rfl, ⟨e, rfl, rfl, rfl⟩ | ⟨receipt, rfl, hsent⟩⟩ := enqueueAs_ends hrest
  · exact ⟨[], .refused hbefore _ e⟩
  · obtain ⟨middle, after, recorded, rfl, hrecord, hlast⟩ := Attempt.ends_outcome_bind hsent
    obtain ⟨deeds, hrecords⟩ := recordDeeds_of_ends hrecord
    have hafter : Silent after ∧ result = .ok (.told key receipt recorded) := by
      cases recorded with
      | ok key =>
        obtain ⟨rfl, rfl⟩ := hlast.of_done
        exact ⟨List.forall_mem_nil _, rfl⟩
      | error e =>
        obtain ⟨_, _, _, rfl, hwarn, hdone⟩ := Attempt.ends_lift_bind hlast
        obtain ⟨rfl, rfl⟩ := hdone.of_done
        obtain rfl := hwarn.of_perform
        exact ⟨by simp [Silent, Action.Silent], rfl⟩
    rw [hafter.2]
    exact ⟨deeds, .accepted hbefore _ receipt hrecords hafter.1⟩

theorem EnqueueDeeds.counters (h : v.EnqueueDeeds q new path result deeds) (hc : Candid path) :
    countersOf path = deeds.map Deed.counter := by
  cases h with
  | refused hbefore m e =>
    rw [countersOf_append, hbefore.counters]
    rfl
  | accepted hbefore m receipt h hafter =>
    obtain ⟨-, hsent⟩ := candid_append.mp hc
    obtain ⟨hmiddle, -⟩ := candid_append.mp hsent.tail
    rw [countersOf_append, countersOf_cons, countersOf_append, hbefore.counters, h.counters hmiddle,
      hafter.counters, List.append_nil]
    rfl

-- ---------------------------------------------------------------------------
-- Browses from their beginning
-- ---------------------------------------------------------------------------

/-- A browse is started, and if that succeeds it is pulled from and something is done about each
item. -/
inductive SweepDeeds (v : View) (q : QueueName) (handle : Item → List Exchange → List Deed → Prop) :
    List Exchange → List Deed → Prop
  | unopened {path : List Exchange} {e : Error}
    (h : (Browse.ofQueue q).run.Ends path (.error e)) : SweepDeeds v q handle path []
  | opened {opening middle after : List Exchange} {b : Browse} {deeds : List Deed}
    (h : (Browse.ofQueue q).run.Ends opening (.ok b)) (hwalks : b.WalkDeeds v handle middle deeds)
    (hafter : Silent after) : SweepDeeds v q handle (opening ++ (middle ++ after)) deeds

def Passes (_ : Item) (path : List Exchange) (deeds : List Deed) : Prop := path = [] ∧ deeds = []

def Clears (v : View) (filter : ItemFilter) (x : Item) (path : List Exchange)
    (deeds : List Deed) : Prop :=
  if filter.accepts x then ∃ result, v.DeleteDeeds x.queue x.key x.slice path result deeds
  else Passes x path deeds

theorem countItems_walks {b : Browse} (h : (v.countItems limit n b).run.Ends path result) :
    ∃ deeds, b.WalkDeeds v Passes path deeds := by
  induction limit generalizing n b path with
  | zero =>
    obtain ⟨rfl, -⟩ := h.of_done
    exact ⟨[], .enough b⟩
  | succ limit ih =>
    obtain ⟨before, after, ⟨yielded, b'⟩, rfl, hpull, hrest⟩ := Attempt.ends_lift_bind h
    obtain ⟨deeds, hpulls⟩ := Browse.pullDeeds_of_ends hpull
    rcases yielded with _ | e | x
    · obtain ⟨rfl, -⟩ := hrest.of_done
      rw [List.append_nil]
      exact ⟨deeds, .ended hpulls fun _ h => nomatch h⟩
    · obtain ⟨rfl, -⟩ := hrest.of_done
      rw [List.append_nil]
      exact ⟨deeds, .ended hpulls fun _ h => nomatch h⟩
    · obtain ⟨deeds', hwalks⟩ := ih hrest
      exact ⟨_, .item hpulls ⟨rfl, rfl⟩ hwalks⟩

theorem clears_of_ends (haccepts : filter.accepts x)
    (h : (v.delete x.queue x.key x.slice).run.Ends path result) :
    ∃ deeds, v.Clears filter x path deeds := by
  obtain ⟨deeds, hdeletes⟩ := deleteDeeds_of_ends h
  refine ⟨deeds, ?_⟩
  rw [Clears, if_pos haccepts]
  exact ⟨result, hdeletes⟩

theorem deleteAccepted_walks {b : Browse}
    (h : (v.deleteAccepted filter limit n b).run.Ends path result) :
    ∃ deeds, b.WalkDeeds v (v.Clears filter) path deeds := by
  induction limit generalizing n b path with
  | zero =>
    obtain ⟨rfl, -⟩ := h.of_done
    exact ⟨[], .enough b⟩
  | succ limit ih =>
    obtain ⟨before, after, ⟨yielded, b'⟩, rfl, hpull, hrest⟩ := Attempt.ends_lift_bind h
    obtain ⟨deeds, hpulls⟩ := Browse.pullDeeds_of_ends hpull
    rcases yielded with _ | e | x
    · obtain ⟨rfl, -⟩ := hrest.of_done
      rw [List.append_nil]
      exact ⟨deeds, .ended hpulls fun _ h => nomatch h⟩
    · obtain ⟨rfl, -⟩ := hrest.of_done
      rw [List.append_nil]
      exact ⟨deeds, .ended hpulls fun _ h => nomatch h⟩
    · dsimp only at hrest
      split at hrest
      · rename_i haccepts
        obtain ⟨e, hdelete, -⟩ | ⟨middle, last, _, rfl, hdelete, hrest⟩ :=
          Attempt.ends_bind_cases hrest
        · obtain ⟨deeds', hclears⟩ := clears_of_ends haccepts hdelete
          rw [← List.append_nil after]
          exact ⟨_, .item hpulls hclears (.enough b')⟩
        · obtain ⟨deeds', hclears⟩ := clears_of_ends haccepts hdelete
          obtain ⟨deeds'', hwalks⟩ := ih hrest
          exact ⟨_, .item hpulls hclears hwalks⟩
      · rename_i hpasses
        have hclears : v.Clears filter x [] [] := by
          rw [Clears, if_neg hpasses]
          exact ⟨rfl, rfl⟩
        obtain ⟨deeds', hwalks⟩ := ih hrest
        exact ⟨_, .item hpulls hclears hwalks⟩

theorem openQueue_uncounted : (v.openQueue q).run.Takes Action.Uncounted := by
  have hnow : Operation.now.Takes Action.Uncounted := Operation.takes_perform rfl
  refine Attempt.takes_bind (Attempt.takes_lift hnow) fun now => ?_
  refine Attempt.takes_bind ?_ fun start =>
    Attempt.takes_bind (Attempt.uncounted_report rfl) fun _ => trivial
  refine Attempt.takes_bind Attempt.uncounted_call fun applied => ?_
  cases applied with
  | true => trivial
  | false => exact Attempt.takes_bind Attempt.uncounted_call fun _ => trivial

theorem ofQueue_uncounted : (Browse.ofQueue q).run.Takes Action.Uncounted := by
  refine Attempt.takes_bind (Attempt.uncounted_report rfl) fun _ => ?_
  refine Attempt.takes_bind Attempt.uncounted_call fun start => ?_
  cases start with
  | none =>
    have hevent : (liftM (Operation.event .debug "queue never written to, nothing to browse" []) :
        Attempt Unit).run.Takes Action.Uncounted := Attempt.uncounted_report rfl
    exact Attempt.takes_bind (Operation.Takes.uncounted_inSpan hevent) fun _ => trivial
  | some start => exact Attempt.takes_bind (Attempt.uncounted_report rfl) fun _ => trivial

theorem SweepDeeds.counters {handle : Item → List Exchange → List Deed → Prop}
    (h : v.SweepDeeds q handle path deeds)
    (hhandle : ∀ x path deeds, handle x path deeds → countersOf path = deeds.map Deed.counter) :
    countersOf path = deeds.map Deed.counter := by
  cases h with
  | unopened h => exact ofQueue_uncounted.countersOf h
  | opened h hwalks hafter =>
    rw [countersOf_append, countersOf_append, ofQueue_uncounted.countersOf h,
      hwalks.counters hhandle, hafter.counters, List.append_nil, List.nil_append]

theorem Passes.counters (x : Item) (path : List Exchange) (deeds : List Deed)
    (h : Passes x path deeds) : countersOf path = deeds.map Deed.counter := by
  obtain ⟨rfl, rfl⟩ := h
  rfl

theorem Clears.counters (x : Item) (path : List Exchange) (deeds : List Deed)
    (h : v.Clears filter x path deeds) : countersOf path = deeds.map Deed.counter := by
  unfold Clears at h
  split at h
  · obtain ⟨_, hdeletes⟩ := h
    exact hdeletes.counters
  · exact Passes.counters x path deeds h

end View

-- ---------------------------------------------------------------------------
-- Acts
-- ---------------------------------------------------------------------------

/-- What can be asked of a view. To delete an item is to delete its key, and a browse is asked for
one result at a time. -/
inductive Act where
  | openQueue (queue : QueueName)
  | record (queue : QueueName) (new : NewItem)
  | recordAt (queue : QueueName) (new : NewItem) (moment : Instant)
  | enqueue (queue : QueueName) (new : NewItem)
  | browse (queue : QueueName)
  | pull (b : Browse)
  | pullDetailed (b : Browse)
  | size (queue : QueueName)
  | delete (queue : QueueName) (key : Key) (slice : Slice)
  | deleteMatching (queue : QueueName) (filter : ItemFilter)
  | isDeleted (queue : QueueName) (key : Key)
  | advance (queue : QueueName)
  | browseStart (queue : QueueName)

namespace Act

@[reducible]
def Result : Act → Type
  | openQueue _ => Except Error Slice
  | record .. | recordAt .. => Except Error Key
  | enqueue .. => Except Error Enqueued
  | browse _ => Except Error Browse
  | pull _ => Option (Except Error Item) × Browse
  | pullDetailed _ => Option (Except Error DetailedItem) × Browse
  | size _ | deleteMatching .. => Except Error Nat
  | delete .. => Except Error Unit
  | isDeleted .. => Except Error Bool
  | advance _ => Except Error Advance
  | browseStart _ => Except Error (Option Slice)

def perform (v : View) : (act : Act) → Operation act.Result
  | openQueue q => (v.openQueue q).run
  | record q new => (v.record q new).run
  | recordAt q new moment => (v.recordAt q new moment).run
  | enqueue q new => (v.enqueue q new).run
  | browse q => (Browse.ofQueue q).run
  | pull b => b.pull v
  | pullDetailed b => b.pullDetailed v
  | size q => (v.size q).run
  | delete q key slice => (v.delete q key slice).run
  | deleteMatching q filter => (v.deleteMatching q filter).run
  | isDeleted q key => (SpoolIndex.isDeleted q key).run
  | advance q => (v.advanceBrowseStart q).run
  | browseStart q => (BrowseStart.current q).run

def Does (v : View) : (act : Act) → List Exchange → act.Result → List Deed → Prop
  | record q new, path, result, deeds => ∃ moment rest, path = ⟨.now, moment⟩ :: rest ∧
      v.RecordDeeds q new moment rest result deeds
  | recordAt q new moment, path, result, deeds => v.RecordDeeds q new moment path result deeds
  | enqueue q new, path, result, deeds => v.EnqueueDeeds q new path result deeds
  | pull b, path, (yielded, b'), deeds => b.PullDeeds v path yielded b' deeds
  | pullDetailed b, path, (_, b'), deeds => ∃ before after yielded, path = before ++ after ∧
      b.PullDeeds v before yielded b' deeds ∧ Silent after
  | size q, path, _, deeds => v.SweepDeeds q View.Passes path deeds
  | delete q key slice, path, result, deeds => v.DeleteDeeds q key slice path result deeds
  | deleteMatching q filter, path, _, deeds => v.SweepDeeds q (v.Clears filter) path deeds
  | advance q, path, result, deeds => v.MaintenanceDeeds q path result deeds
  | act, path, result, deeds => (act.perform v).Ends path result ∧ deeds = []

theorem fetchContent_silent (h : (fetchContent x).run.Ends path result) : Silent path := by
  have hfetch {ref : ContentRef} : (Attempt.fetch ref).run.Takes Action.Silent :=
    Operation.takes_perform trivial
  refine Operation.Takes.ends ?_ h
  exact Attempt.takes_bind hfetch fun _ => Attempt.takes_bind hfetch fun _ => trivial

theorem does_of_ends {act : Act} {result : act.Result} (h : (act.perform v).Ends path result) :
    ∃ deeds, act.Does v path result deeds := by
  cases act with
  | record q new =>
    obtain ⟨_, rest, moment, rfl, hnow, hrecord⟩ := Attempt.ends_lift_bind h
    obtain rfl := hnow.of_perform
    obtain ⟨deeds, hrecords⟩ := View.recordDeeds_of_ends hrecord
    exact ⟨deeds, moment, rest, rfl, hrecords⟩
  | recordAt q new moment => exact View.recordDeeds_of_ends h
  | enqueue q new => exact View.enqueueDeeds_of_ends h
  | pull b => exact Browse.pullDeeds_of_ends h
  | pullDetailed b =>
    obtain ⟨before, after, ⟨yielded, b'⟩, rfl, hpull, hrest⟩ := Operation.Ends.of_bind h
    obtain ⟨deeds, hpulls⟩ := Browse.pullDeeds_of_ends hpull
    obtain ⟨detailed, b''⟩ := result
    rcases yielded with _ | e | x
    · obtain ⟨rfl, he⟩ := hrest.of_done
      cases he
      exact ⟨deeds, before, [], none, rfl, hpulls, List.forall_mem_nil _⟩
    · obtain ⟨rfl, he⟩ := hrest.of_done
      cases he
      exact ⟨deeds, before, [], some (.error e), rfl, hpulls, List.forall_mem_nil _⟩
    · obtain ⟨fetched, _, _, rfl, hfetch, hdone⟩ := hrest.of_bind
      obtain ⟨rfl, he⟩ := hdone.of_done
      cases he
      rw [List.append_nil]
      exact ⟨deeds, before, fetched, some (.ok x), rfl, hpulls, fetchContent_silent hfetch⟩
  | size q =>
    obtain ⟨e, hopen, -⟩ | ⟨opening, middle, b, rfl, hopen, hcount⟩ := Attempt.ends_bind_cases h
    · exact ⟨[], .unopened hopen⟩
    · obtain ⟨deeds, hwalks⟩ := View.countItems_walks hcount
      rw [← List.append_nil middle]
      exact ⟨deeds, .opened hopen hwalks (List.forall_mem_nil _)⟩
  | delete q key slice => exact View.deleteDeeds_of_ends h
  | deleteMatching q filter =>
    obtain ⟨e, hopen, -⟩ | ⟨opening, rest, b, rfl, hopen, hrest⟩ := Attempt.ends_bind_cases h
    · exact ⟨[], .unopened hopen⟩
    obtain ⟨e, hdelete, -⟩ | ⟨middle, after, n, rfl, hdelete, hlast⟩ :=
      Attempt.ends_bind_cases hrest
    · obtain ⟨deeds, hwalks⟩ := View.deleteAccepted_walks hdelete
      rw [← List.append_nil rest]
      exact ⟨deeds, .opened hopen hwalks (List.forall_mem_nil _)⟩
    · obtain ⟨deeds, hwalks⟩ := View.deleteAccepted_walks hdelete
      obtain ⟨_, _, _, rfl, hevent, hdone⟩ := Attempt.ends_lift_bind hlast
      obtain ⟨rfl, -⟩ := hdone.of_done
      obtain rfl := hevent.of_perform
      exact ⟨deeds, .opened hopen hwalks (by simp [Silent, Action.Silent])⟩
  | advance q => exact View.maintenanceDeeds_of_ends h
  | openQueue | browse | isDeleted | browseStart => exact ⟨[], h, rfl⟩

theorem Does.counters {act : Act} {result : act.Result} (h : act.Does v path result deeds)
    (hc : Candid path) : countersOf path = deeds.map Deed.counter := by
  cases act with
  | record q new =>
    obtain ⟨moment, rest, rfl, hrecords⟩ := h
    exact hrecords.counters hc.tail
  | recordAt q new moment => exact View.RecordDeeds.counters h hc
  | enqueue q new => exact View.EnqueueDeeds.counters h hc
  | pull b => exact Browse.PullDeeds.counters h
  | pullDetailed b =>
    obtain ⟨before, after, yielded, rfl, hpulls, hafter⟩ := h
    rw [countersOf_append, hpulls.counters, hafter.counters, List.append_nil]
  | size q => exact View.SweepDeeds.counters h View.Passes.counters
  | delete q key slice => exact View.DeleteDeeds.counters h
  | deleteMatching q filter => exact View.SweepDeeds.counters h View.Clears.counters
  | advance q => exact View.MaintenanceDeeds.counters h
  | openQueue q =>
    obtain ⟨hends, rfl⟩ := h
    exact View.openQueue_uncounted.countersOf hends
  | browse q =>
    obtain ⟨hends, rfl⟩ := h
    exact View.ofQueue_uncounted.countersOf hends
  | isDeleted | browseStart =>
    obtain ⟨hends, rfl⟩ := h
    exact Attempt.uncounted_call.countersOf hends

end Act

-- ---------------------------------------------------------------------------
-- Sessions
-- ---------------------------------------------------------------------------

/-- Acts one after the other, of one view or of several. What is done next may depend on what came
of the acts before. -/
inductive Session where
  | finished
  | act (v : View) (a : Act) (later : a.Result → Session)

namespace Session

def perform : Session → Operation Unit
  | finished => return ()
  | act v a later => do
    let result ← a.perform v
    (later result).perform

/-- What a session comes to that takes this path: the deeds of its acts. -/
inductive Does : Session → List Exchange → List Deed → Prop
  | finished : Does .finished [] []
  | act {v : View} {a : Act} {later : a.Result → Session} {result : a.Result}
    {before after : List Exchange} {deeds deeds' : List Deed}
    (h : a.Does v before result deeds) (hlater : (later result).Does after deeds') :
    Does (.act v a later) (before ++ after) (deeds ++ deeds')

theorem does_of_ends {session : Session} (h : session.perform.Ends path ()) :
    ∃ deeds, session.Does path deeds := by
  induction session generalizing path with
  | finished =>
    obtain ⟨rfl, -⟩ := h.of_done
    exact ⟨[], .finished⟩
  | act v a later ih =>
    obtain ⟨before, after, result, rfl, hact, hlater⟩ := h.of_bind
    obtain ⟨deeds, hdoes⟩ := Act.does_of_ends hact
    obtain ⟨deeds', hdoes'⟩ := ih result hlater
    exact ⟨deeds ++ deeds', .act hdoes hdoes'⟩

theorem Does.counters {session : Session} (h : session.Does path deeds) (hc : Candid path) :
    countersOf path = deeds.map Deed.counter := by
  induction h with
  | finished => rfl
  | act h _ ih =>
    obtain ⟨hbefore, hafter⟩ := candid_append.mp hc
    rw [countersOf_append, h.counters hbefore, ih hafter, List.map_append]

/-- Whatever the store does and however its calls fail, short of saying in the words of a record
that it was overtaken: over a session, each counter of a view grows by the number of deeds that it
counts, and by nothing else. -/
theorem counters_reconcile {answer : (action : Action) → σ → action.Reply × σ}
    {reading : σ → Instrument → List (String × String) → Nat} (hmeter : Metered answer reading)
    (session : Session) (w : σ) (hc : Candid (session.perform.transcript answer w)) :
    let path := session.perform.transcript answer w
    let w' := (session.perform.run answer w).2
    (∃ deeds, session.Does path deeds) ∧
    ∀ deeds, session.Does path deeds →
      ∀ (instrument : Instrument) (labels : List (String × String)), instrument.ofView →
        reading w' instrument labels = reading w instrument labels +
          (deeds.map Deed.counter).count (instrument, labels) := by
  intro path w'
  refine ⟨does_of_ends (session.perform.ends_transcript answer w), ?_⟩
  intro deeds hdoes instrument labels hi
  rw [← hdoes.counters hc]
  exact hmeter.run session.perform w hi

end Session

/-- What an installation has counted in its journal after a session. -/
theorem Installation.run_session (w : Installation) (seat : Seat) (session : Session)
    (hc : Candid (session.perform.transcript (replies seat) w))
    (hdoes : session.Does (session.perform.transcript (replies seat) w) deeds)
    (hi : instrument.ofView) : (w.run seat session.perform).2.journal.count instrument labels =
      w.journal.count instrument labels +
        (deeds.map Deed.counter).count (instrument, labels) := by
  rw [run_eq_replies, ← hdoes.counters hc]
  exact (metered seat).run session.perform w hi

namespace Sample

def eagerView : View := .ofConfig { Config.default with advancePolicy := .eager }

def errand : Session :=
  .act eagerView (.record spool mail) fun _ =>
  .act eagerView (.browse spool) fun
    | .error _ => .finished
    | .ok b => .act eagerView (.pull b) fun
      | (some (.ok x), _) => .act eagerView (.delete x.queue x.key x.slice) fun _ => .finished
      | _ => .finished

def office : Installation := .new (.memory ⟨.empty, [], []⟩) [twoHours]

def desk : Seat := ⟨0, 0, some .default, 0⟩

theorem errand_unfailing :
    (failedCalls (errand.perform.transcript (Installation.replies desk) office)).isEmpty := by
  decide +kernel

/-- Its only item is recorded, found and deleted, and the maintenance after it has nothing to do. -/
theorem errand_counted :
    let path := errand.perform.transcript (Installation.replies desk) office
    Metered (Installation.replies desk) (fun w => w.journal.count) ∧ Candid path ∧
    (∃ deeds, errand.Does path deeds) ∧ ∀ deeds, errand.Does path deeds →
      ∀ deed ∈ [Deed.record spool .indexed, .item spool, .delete spool,
        .maintenance spool .unchanged], (deeds.map Deed.counter).count deed.counter = 1 := by
  intro path
  have hmeter := Installation.metered desk
  have hcandid : Candid path := fun e ⟨c, hx⟩ => by
    have hfailed : c ∈ failedCalls path := mem_failedCalls.mpr ⟨e, hx⟩
    rw [List.isEmpty_iff.mp errand_unfailing] at hfailed
    cases hfailed
  obtain ⟨hdoes, hreconcile⟩ := Session.counters_reconcile hmeter errand office hcandid
  refine ⟨hmeter, hcandid, hdoes, fun deeds h deed hdeed => ?_⟩
  have hread : ∀ deed ∈ [Deed.record spool .indexed, .item spool, .delete spool,
      .maintenance spool .unchanged], (errand.perform.run (Installation.replies desk)
        office).2.journal.count deed.counter.1 deed.counter.2 = 1 := by
    decide +kernel
  have hgrown := hreconcile deeds h deed.counter.1 deed.counter.2 deed.counter_ofView
  rw [hread deed hdeed] at hgrown
  exact (hgrown.trans (Nat.zero_add _)).symm

end Sample

end SpoolIndex
