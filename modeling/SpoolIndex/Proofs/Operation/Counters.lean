import SpoolIndex.Proofs.Installation.Replies
import SpoolIndex.Proofs.Operation.Spans

/-!
# Counters

What a path adds to the counters of a view can be read off its reports
(`countersOf`), and whoever keeps a counter for each instrument and each set of
labels reads just that much more after a run (`Metered.run`). An installation
does so in its journal, also where calls are tried again (`Installation.metered`).
-/

namespace SpoolIndex

/-- The instruments by which a view counts what it has done to its queues. -/
def Instrument.ofView : Instrument → Bool
  | itemsRecorded | itemsDeleted | itemsBrowsed | browseStartUpdates | partitionFailures => true
  | storageRetries | operationDuration | transportOperations => false

abbrev Counter := Instrument × List (String × String)

def Action.counters : Action → List Counter
  | report (.count instrument labels) =>
    if instrument.ofView then [(instrument, labels)] else []
  | _ => []

def countersOf (path : List Exchange) : List Counter := path.flatMap fun x => x.action.counters

theorem countersOf_append (path path' : List Exchange) :
    countersOf (path ++ path') = countersOf path ++ countersOf path' := List.flatMap_append

theorem countersOf_cons (x : Exchange) (path : List Exchange) :
    countersOf (x :: path) = x.action.counters ++ countersOf path := List.flatMap_cons

def Action.Uncounted (action : Action) : Prop := action.counters = []

theorem countersOf_eq_nil (h : ∀ x ∈ path, x.action.Uncounted) : countersOf path = [] :=
  List.flatMap_eq_nil_iff.mpr h

namespace Operation

theorem Takes.countersOf {op : Operation α} (h : op.Takes Action.Uncounted)
    (he : op.Ends path value) : countersOf path = [] := countersOf_eq_nil (h.ends he)

theorem uncounted_report (h : Action.Uncounted (.report r)) :
    (Operation.report r).Takes Action.Uncounted := takes_perform h

theorem Takes.uncounted_inSpan {op : Operation α} (h : op.Takes Action.Uncounted) :
    (Operation.inSpan span op).Takes Action.Uncounted := by
  have henter : (report (.enter span)).Takes Action.Uncounted := uncounted_report rfl
  have hleave : (report .leave).Takes Action.Uncounted := uncounted_report rfl
  exact henter.bind fun _ => h.bind fun _ => hleave.bind fun _ => trivial

theorem countersOf_count (he : (Operation.count instrument labels).Ends path value)
    (hi : instrument.ofView) : SpoolIndex.countersOf path = [(instrument, labels)] := by
  obtain rfl := he.of_perform
  simp [SpoolIndex.countersOf, Action.counters, hi]

theorem countersOf_inSpan {op : Operation α} (he : (inSpan span op).Ends path value) :
    ∃ middle, op.Ends middle value ∧ SpoolIndex.countersOf path = SpoolIndex.countersOf middle := by
  obtain ⟨middle, rfl, hop⟩ := he.of_inSpan
  refine ⟨middle, hop, ?_⟩
  rw [countersOf_cons, countersOf_append]
  simp [SpoolIndex.countersOf, Action.counters]

end Operation

theorem Attempt.uncounted_call : (Attempt.call c).run.Takes Action.Uncounted :=
  Operation.takes_perform rfl

theorem Attempt.uncounted_report (h : Action.Uncounted (.report r)) :
    (liftM (Operation.report r) : Attempt Unit).run.Takes Action.Uncounted :=
  Attempt.takes_lift (Operation.uncounted_report h)

-- ---------------------------------------------------------------------------
-- Counters that are kept
-- ---------------------------------------------------------------------------

/-- Whatever answers keeps the counters of a view, and adds to them what it is told to and
nothing else. -/
def Metered (answer : (action : Action) → σ → action.Reply × σ)
    (reading : σ → Instrument → List (String × String) → Nat) : Prop :=
  ∀ action w (instrument : Instrument) labels, instrument.ofView →
    reading (answer action w).2 instrument labels =
      reading w instrument labels + action.counters.count (instrument, labels)

section
variable {answer : (action : Action) → σ → action.Reply × σ}
  {reading : σ → Instrument → List (String × String) → Nat}

theorem Metered.run (h : Metered answer reading) (op : Operation α) (w : σ)
    (hi : instrument.ofView) : reading (op.run answer w).2 instrument labels =
      reading w instrument labels +
        (countersOf (op.transcript answer w)).count (instrument, labels) := by
  induction op generalizing w with
  | done value => rfl
  | act action next ih =>
    rw [Operation.run_act, ih, h action w instrument labels hi, Operation.transcript,
      countersOf_cons, List.count_append, Nat.add_assoc]

end

-- ---------------------------------------------------------------------------
-- Calls that are tried again
-- ---------------------------------------------------------------------------

section
variable {answer : (action : Action) → σ → action.Reply × σ}
  {reading : σ → Instrument → List (String × String) → Nat}

theorem Operation.attempts_takes :
    (attempts ceiling c left attempt backoff).Takes Action.Uncounted := by
  induction left generalizing attempt backoff with
  | zero => exact takes_perform rfl
  | succ left ih =>
    have htry : (perform (.store c)).Takes Action.Uncounted := takes_perform rfl
    refine htry.bind ?_
    rintro (e | reply)
    · dsimp only
      split
      · have hevent {level : Level} {message : String} {fields : List (String × Field)} :
            (event level message fields).Takes Action.Uncounted := takes_perform rfl
        have hcount {labels : List (String × String)} :
            (count .storageRetries labels).Takes Action.Uncounted := takes_perform rfl
        have hsleep : (perform (.sleep backoff)).Takes Action.Uncounted := takes_perform rfl
        exact hevent.bind fun _ => hcount.bind fun _ => hsleep.bind fun _ => ih
      · trivial
    · trivial

theorem Metered.retried (h : Metered answer reading) (config : RetryConfig) :
    Metered (retried config answer) reading := by
  intro action w instrument labels hi
  cases action with
  | store c =>
    refine (h.run _ w hi).trans ?_
    rw [Operation.attempts_takes.countersOf (Operation.ends_transcript answer _ w)]
    rfl
  | _ => exact h _ w instrument labels hi

end

-- ---------------------------------------------------------------------------
-- Installations
-- ---------------------------------------------------------------------------

namespace Journal

variable {names : List String} {recorded : List JournalEntry} {instrument : Instrument}
  {labels : List (String × String)}

theorem count_cons (t : Tally) (ts : List Tally) :
    count ⟨names, recorded, t :: ts⟩ instrument labels =
      if t.instrument = instrument ∧ t.labels = labels then t.count
      else count ⟨names, recorded, ts⟩ instrument labels := by
  simp only [count, List.find?_cons]
  by_cases h : t.instrument = instrument ∧ t.labels = labels
  · simp [h]
  · simp only [h, decide_false, ↓reduceIte]

theorem count_increment (ts : List Tally) (counter : Counter) :
    count ⟨names, recorded, increment counter.1 counter.2 ts⟩ instrument labels =
      count ⟨names, recorded, ts⟩ instrument labels +
        [counter].count (instrument, labels) := by
  obtain ⟨instrument', labels'⟩ := counter
  have hone : [(instrument', labels')].count (instrument, labels) =
      if instrument' = instrument ∧ labels' = labels then 1 else 0 := by
    simp [List.count_singleton]
  rw [hone]
  induction ts with
  | nil => exact (count_cons _ _).trans (Nat.zero_add _).symm
  | cons t ts ih =>
    rw [increment]
    split
    · rename_i hsame
      obtain ⟨rfl, rfl⟩ := hsame
      rw [count_cons, count_cons]
      split <;> rfl
    · rename_i hother
      rw [count_cons, count_cons, ih]
      split
      · rename_i hsame
        obtain ⟨rfl, rfl⟩ := hsame
        rw [if_neg fun h => hother ⟨h.1.symm, h.2.symm⟩]
        rfl
      · rfl

theorem count_add (j : Journal) (r : Report) (hi : instrument.ofView) :
    (j.add r).count instrument labels =
      j.count instrument labels + (Action.report r).counters.count (instrument, labels) := by
  cases r with
  | count instrument' labels' =>
    refine (count_increment j.tallies (instrument', labels')).trans (congrArg (_ + ·) ?_)
    simp only [Action.counters]
    split
    · rfl
    · rename_i hother
      have hne : instrument' ≠ instrument := by
        rintro rfl
        exact hother hi
      simp [hne]
  | _ => rfl

end Journal

namespace Installation

variable {instrument : Instrument} {labels : List (String × String)}

theorem Transported.count {w w' : Installation} (h : w.Transported w') (hi : instrument.ofView) :
    w'.journal.count instrument labels = w.journal.count instrument labels := by
  cases h with
  | uncounted => rfl
  | counted => exact w.journal.count_add _ hi

theorem metered_answer (seat : Seat) : Metered (answer seat) fun w => w.journal.count := by
  intro action w instrument labels hi
  cases action with
  | store c =>
    obtain ⟨_, _, hw⟩ := w.call_eq c
    exact congrArg (·.journal.count instrument labels) hw
  | createQueue q => exact (w.transported_createQueue q).count hi
  | send m => exact (w.transported_send seat.delay m).count hi
  | report r => exact w.journal.count_add r hi
  | _ => rfl

theorem metered (seat : Seat) : Metered (replies seat) fun w => w.journal.count := by
  unfold replies
  cases seat.retry with
  | none => exact metered_answer seat
  | some config => exact (metered_answer seat).retried config

end Installation

end SpoolIndex
