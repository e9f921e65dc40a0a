import SpoolIndex.Installation
import SpoolIndex.Operation.Laws

/-!
# The answers of an installation

An operation cannot tell a store whose calls are tried again from one that answers
them so at once (`Operation.retrying_run`). What holds of an operation whatever
answers it therefore holds of its runs at any seat of an installation
(`Installation.run_eq_replies`). What else an installation has is left alone: by store
calls all but the store and the clocks (`Installation.call_eq`), by the transport all but
its messages and their counter (`Installation.Transported`).
-/

namespace SpoolIndex

def retried (config : RetryConfig) (answer : (action : Action) → σ → action.Reply × σ) :
    (action : Action) → σ → action.Reply × σ
  | .store c, w => (Operation.attempts config.maxBackoffMillis.toNat c
      (config.maxAttempts.toNat - 1) 1 config.initialBackoffMillis.toNat).run answer w
  | action, w => answer action w

theorem Operation.retrying_run (config : RetryConfig)
    (answer : (action : Action) → σ → action.Reply × σ) (op : Operation α) (w : σ) :
    (op.retrying config).run answer w = op.run (retried config answer) w := by
  induction op generalizing w with
  | done value => rfl
  | act action next ih =>
    cases action with
    | store c => exact (run_bind answer _ _ w).trans (ih _ _)
    | _ => exact ih _ _

namespace Installation

/-- A store call leaves all but the store and the clocks alone. -/
theorem call_eq (w : Installation) (c : StoreCall) :
    ∃ backing clocks, (w.call c).2 = { w with backing, clocks } := by
  have hsuffer (w : Installation) (fault : Option StoreFault) :
      ∃ clocks, suffer w fault = { w with clocks } := by
    unfold suffer
    split
    · rename_i millis
      cases hmoved : w.moveClock? 0 millis with
      | none => exact ⟨w.clocks, rfl⟩
      | some w' =>
        obtain ⟨t, -, rfl⟩ := Option.map_eq_some_iff.mp hmoved
        exact ⟨w.clocks.set 0 t, rfl⟩
    · exact ⟨w.clocks, rfl⟩
  unfold call
  split
  · rename_i s _
    obtain ⟨clocks, he⟩ := hsuffer { w with backing := .memory (s.perform c).2 } (s.perform c).1.2
    exact ⟨_, clocks, he⟩
  · exact ⟨_, w.clocks, rfl⟩

/-- At most the transport has changed, with the counter that it keeps. -/
inductive Transported (w : Installation) : Installation → Prop
  | uncounted (backing : Backing) (sent : List Message) : Transported w { w with backing, sent }
  | counted (backing : Backing) (sent : List Message) (labels : List (String × String)) :
    Transported w (report { w with backing, sent } (.count .transportOperations labels))

theorem transported_countTransport (w : Installation) (backing : Backing)
    (result : Except Error α) :
    w.Transported (countTransport { w with backing } q operation result) := by
  cases result with
  | ok => exact .counted backing w.sent _
  | error e => exact .uncounted backing w.sent

theorem onDatabase_eq (w : Installation) (f : Database → Except Error Unit × Database) :
    ∃ result backing, w.onDatabase f = (result, { w with backing }) := by
  unfold onDatabase
  split
  · exact ⟨_, w.backing, rfl⟩
  · exact ⟨_, _, rfl⟩

theorem transported_createQueue (w : Installation) (q : QueueName) :
    w.Transported (w.createQueue q).2 := by
  unfold createQueue
  split
  · exact .uncounted w.backing w.sent
  · obtain ⟨result, backing, hcreated⟩ := w.onDatabase_eq (·.createQueue q)
    rw [hcreated]
    exact w.transported_countTransport backing result

theorem transported_send (w : Installation) (delay : Int) (m : Message) :
    w.Transported (w.send delay m).2 := by
  unfold send
  split
  · unfold transmit
    split
    · exact .uncounted w.backing w.sent
    · exact .uncounted w.backing (m :: w.sent)
  · rename_i db _
    have hsent : w.Transported (w.sendToQueue db m.queue m.toJson delay).2 :=
      w.transported_countTransport _ _
    dsimp only
    split <;> exact hsent

def replies (seat : Seat) : (action : Action) → Installation → action.Reply × Installation :=
  match seat.retry with
  | some config => retried config (answer seat)
  | none => answer seat

theorem run_eq_replies (w : Installation) (seat : Seat) (op : Operation α) :
    w.run seat op = op.run (replies seat) w := by
  unfold run withRetries replies
  cases seat.retry with
  | none => rfl
  | some config => exact Operation.retrying_run config _ op w

end Installation

end SpoolIndex
