import SpoolIndex.Proofs.Installation.Runs

/-!
# Store calls that fail for a while

In a flaky installation attempts at store calls may fail, and a call whose attempt
failed may have taken effect all the same. Retries bridge a limited number of such
lapses in a row. `Operation.Tracks` compares a run with lapses and retries to a
plain run of another operation, and `Operation.Steady` tells that an operation gives
the same in both. Every call but a conditional write is steady
(`Operation.steady_of_calls`), since the store answers it the same when it is made
again.
-/

namespace SpoolIndex

-- ---------------------------------------------------------------------------
-- Calls that are made again
-- ---------------------------------------------------------------------------

/-- A call that gets the same reply when it is made again. -/
def StoreCall.Repeatable (c : StoreCall) : Prop :=
  ∀ q condition slice, c ≠ .swapStart q condition slice

theorem Store.reply_again (s : Store) {c : StoreCall} (hc : c.Repeatable) :
    ((s.perform c).2.perform c).1 = (s.perform c).1 := by
  cases c with
  | swapStart q condition slice => exact absurd rfl (hc q condition slice)
  | _ => rfl

theorem StoreCall.IsRead.repeatable {c : StoreCall} (h : c.IsRead) : c.Repeatable := by
  rintro q condition slice rfl
  exact h

-- ---------------------------------------------------------------------------
-- Flaky installations
-- ---------------------------------------------------------------------------

structure Lapse where
  error : Error
  /-- Whether the call takes effect all the same, and only the reply is lost. -/
  landed : Bool

/-- What became of an attempt at a store call. -/
inductive Trial where
  | answered (call : StoreCall) (reply : Except Error call.Reply)
  | missed (call : StoreCall) (error : Error)
  /-- The call took effect, and this reply to it was lost. -/
  | lost (call : StoreCall) (reply : Except Error call.Reply) (error : Error)

structure Flaky where
  world : Installation
  /-- What happens to the attempts to come; when it is over, they succeed. -/
  lapses : List (Option Lapse)
  /-- The attempts so far, the latest first. -/
  trials : List Trial

namespace Flaky

def call (f : Flaky) (c : StoreCall) : Except Error c.Reply × Flaky :=
  let (reply, world) := f.world.call c
  match f.lapses with
  | [] => (reply, ⟨world, [], .answered c reply :: f.trials⟩)
  | none :: lapses => (reply, ⟨world, lapses, .answered c reply :: f.trials⟩)
  | some ⟨e, false⟩ :: lapses => (.error e, ⟨f.world, lapses, .missed c e :: f.trials⟩)
  | some ⟨e, true⟩ :: lapses => (.error e, ⟨world, lapses, .lost c reply e :: f.trials⟩)

def answer (seat : Seat) : (action : Action) → Flaky → action.Reply × Flaky
  | .store c, f => f.call c
  | action, f =>
    let (reply, world) := Installation.answer seat action f.world
    (reply, { f with world })

def run (f : Flaky) (seat : Seat) (op : Operation α) : α × Flaky :=
  (Installation.withRetries seat op).run (answer seat) f

end Flaky

/-- There are at most so many lapses in a row, and each of them is transient. A call is over with an
attempt that succeeds, so the lapses in a row are those of one call. -/
structure Bearable (bound : Nat) (lapses : List (Option Lapse)) : Prop where
  few : ∀ later, later <:+ lapses → (later.takeWhile Option.isSome).length ≤ bound
  transient : ∀ lapse, some lapse ∈ lapses → lapse.error.isTransient

/-- Whether the user retries often enough for so many lapses in a row. -/
def Seat.Bears (seat : Seat) (bound : Nat) : Prop :=
  ∃ config, seat.retry = some config ∧ bound ≤ config.maxAttempts.toNat - 1

-- ---------------------------------------------------------------------------
-- Installations that differ in their records only
-- ---------------------------------------------------------------------------

namespace Installation

def bare (w : Installation) : Installation := { w.withoutRecords with journal := .empty }

variable {w w' : Installation} {s : Store} {calls : List StoreCall} {seat : Seat}

theorem Stores.of_bare (hw : w.Stores s calls) (h : w'.bare = w.bare) :
    ∃ calls', w'.Stores s calls' := by
  obtain ⟨backing, clocks, generator, minted, deletes, refuses, sent, content, stored, journal⟩ := w
  obtain ⟨backing', clocks', generator', minted', deletes', refuses', sent', content', stored',
    journal'⟩ := w'
  obtain rfl : backing = _ := hw
  simp only [bare, withoutRecords] at h
  cases backing' with
  | memory m =>
    obtain ⟨store, faults, calls'⟩ := m
    simp only [mk.injEq, Backing.memory.injEq, ScriptedStore.mk.injEq] at h
    obtain ⟨⟨rfl, rfl, -⟩, -⟩ := h
    exact ⟨calls', rfl⟩
  | database db => simp at h

theorem answer_bare (seat : Seat) (hw : w.Stores s calls) (h : w'.bare = w.bare)
    (action : Action) :
    (answer seat action w').1 = (answer seat action w).1 ∧
      (answer seat action w').2.bare = (answer seat action w).2.bare := by
  obtain ⟨calls', hw'⟩ := hw.of_bare h
  obtain ⟨backing, clocks, generator, minted, deletes, refuses, sent, content, stored, journal⟩ := w
  obtain ⟨backing', clocks', generator', minted', deletes', refuses', sent', content', stored',
    journal'⟩ := w'
  obtain rfl : backing = _ := hw
  obtain rfl : backing' = _ := hw'
  simp only [bare, withoutRecords, mk.injEq, true_and, and_true] at h
  obtain ⟨rfl, rfl, rfl, rfl, rfl, rfl, rfl, rfl⟩ := h
  cases action with
  | send m => cases refuses' <;> exact ⟨rfl, rfl⟩
  | _ => exact ⟨rfl, rfl⟩

theorem bare_report (w : Installation) (r : Report) : (w.report r).bare = w.bare := by
  obtain ⟨backing, clocks, generator, minted, deletes, refuses, sent, content, stored, journal⟩ := w
  cases backing <;> rfl

theorem stores_called (seat : Seat) (hw : w.Stores s calls) (c : StoreCall) :
    (answer seat (.store c) w).2.Stores (s.perform c).2 (c :: calls) := by
  rw [answer_store hw]
  rfl

theorem bare_again (seat : Seat) (hw : w.Stores s calls) (c : StoreCall) :
    (answer seat (.store c) (answer seat (.store c) w).2).2.bare =
      (answer seat (.store c) w).2.bare := by
  rw [answer_store (stores_called seat hw c), s.perform_again c, answer_store hw]
  rfl

end Installation

-- ---------------------------------------------------------------------------
-- A call with retries
-- ---------------------------------------------------------------------------

theorem Bearable.tail (h : Bearable bound (lapse :: lapses)) : Bearable bound lapses where
  few later hl := h.few later (hl.trans (List.suffix_cons _ _))
  transient lapse hl := h.transient lapse (List.mem_cons_of_mem _ hl)

namespace Flaky

/-- The flaky installation is as the plain one, up to what is on record. -/
structure Follows (bound : Nat) (f : Flaky) (w : Installation) : Prop where
  bearable : Bearable bound f.lapses
  stores : ∃ s calls, w.Stores s calls
  bare : f.world.bare = w.bare

variable {f : Flaky} {w w' : Installation} {seat : Seat} {bound : Nat}

theorem Follows.of_bare (h : f.Follows bound w) (hb : w'.bare = w.bare) : f.Follows bound w' := by
  obtain ⟨s, calls, hw⟩ := h.stores
  obtain ⟨calls', hw'⟩ := hw.of_bare hb
  exact ⟨h.bearable, ⟨s, calls', hw'⟩, h.bare.trans hb.symm⟩

theorem Follows.answer (seat : Seat) (h : f.Follows bound w) {action : Action}
    (hne : ∀ c, action ≠ .store c) :
    (answer seat action f).1 = (Installation.answer seat action w).1 ∧
      (answer seat action f).2.Follows bound (Installation.answer seat action w).2 ∧
      (answer seat action f).2.trials = f.trials := by
  obtain ⟨s, calls, hw⟩ := h.stores
  obtain ⟨hreply, hbare⟩ := Installation.answer_bare seat hw h.bare action
  have hstores : (Installation.answer seat action w).2.Stores s calls :=
    (Installation.answer_other hw hne).1
  cases action with
  | store c => exact absurd rfl (hne c)
  | _ => exact ⟨hreply, ⟨h.bearable, ⟨s, calls, hstores⟩, hbare⟩, rfl⟩

theorem Follows.report (h : f.Follows bound w) (r : Report) :
    Follows bound { f with world := f.world.report r } w :=
  ⟨h.bearable, h.stores, (Installation.bare_report _ r).trans h.bare⟩

inductive Attempted (bound : Nat) (f : Flaky) (c : StoreCall) (s : Store) (w w' : Installation) :
    Except Error c.Reply × Flaky → Prop
  | answered {f' : Flaky} (h : f'.Follows bound w')
    (ht : f'.trials = .answered c (s.perform c).1 :: f.trials) :
    Attempted bound f c s w w' ((s.perform c).1, f')
  | missed {f' : Flaky} {e : Error} (he : e.isTransient) (h : f'.Follows bound w)
    (ht : f'.trials = .missed c e :: f.trials)
    (hl : (f.lapses.takeWhile Option.isSome).length =
      (f'.lapses.takeWhile Option.isSome).length + 1) : Attempted bound f c s w w' (.error e, f')
  | lost {f' : Flaky} {e : Error} (he : e.isTransient) (h : f'.Follows bound w')
    (ht : f'.trials = .lost c (s.perform c).1 e :: f.trials)
    (hl : (f.lapses.takeWhile Option.isSome).length =
      (f'.lapses.takeWhile Option.isSome).length + 1) : Attempted bound f c s w w' (.error e, f')

theorem Follows.attempt (seat : Seat) (h : f.Follows bound w) (hw : w.Stores s calls)
    (c : StoreCall) :
    Attempted bound f c s w (Installation.answer seat (.store c) w).2 (f.call c) := by
  have hstores := Installation.stores_called seat hw c
  obtain ⟨hreply, hbare⟩ := Installation.answer_bare seat hw h.bare (.store c)
  obtain ⟨world, lapses, trials⟩ := f
  have hcall : world.call c =
      ((s.perform c).1, (Installation.answer seat (.store c) world).2) := by
    rw [Installation.answer_store hw] at hreply
    rw [← hreply]
    rfl
  have hbearable := h.bearable
  cases lapses with
  | nil =>
    simp only [call, hcall]
    exact .answered ⟨hbearable, ⟨_, _, hstores⟩, hbare⟩ rfl
  | cons lapse lapses =>
    have hlater : Bearable bound lapses := hbearable.tail
    cases lapse with
    | none =>
      simp only [call, hcall]
      exact .answered ⟨hlater, ⟨_, _, hstores⟩, hbare⟩ rfl
    | some lapse =>
      have he := hbearable.transient lapse List.mem_cons_self
      obtain ⟨e, landed⟩ := lapse
      cases landed with
      | false =>
        simp only [call]
        exact .missed he ⟨hlater, h.stores, h.bare⟩ rfl rfl
      | true =>
        simp only [call, hcall]
        exact .lost he ⟨hlater, ⟨_, _, hstores⟩, hbare⟩ rfl rfl

theorem run_attempts_answered (hcall : f.call c = (reply, f'))
    (he : ∀ e, reply = .error e → ¬e.isTransient) :
    (Operation.attempts ceiling c left attempt backoff).run (answer seat) f = (reply, f') := by
  cases left with
  | zero => exact hcall
  | succ left =>
    unfold Operation.attempts
    change Operation.run (answer seat) ((Operation.perform (.store c)).bind _) f = _
    rw [Operation.run_bind]
    have hp : (Operation.perform (.store c)).run (answer seat) f = (reply, f') := hcall
    rw [hp]
    cases reply with
    | ok reply => rfl
    | error e =>
      simp only [he e rfl]
      rfl

theorem run_attempts_lapsed (seat : Seat) (hcall : f.call c = (.error e, f'))
    (he : e.isTransient) (ceiling left attempt backoff : Nat) : ∃ warning count : Report,
      (Operation.attempts ceiling c (left + 1) attempt backoff).run (answer seat) f =
        (Operation.attempts ceiling c left (attempt + 1) (min (backoff * 2) ceiling)).run
          (answer seat) { f' with world := (f'.world.report warning).report count } := by
  refine ⟨.event .warn ("transient storage error, retrying: " ++ e.message)
    [("operation", .text c.name), ("attempt", .number attempt), ("backoff_ms", .number backoff)],
    .count .storageRetries [("operation", c.name)], ?_⟩
  conv => lhs; unfold Operation.attempts
  change Operation.run (answer seat) ((Operation.perform (.store c)).bind _) f = _
  rw [Operation.run_bind]
  have hp : (Operation.perform (.store c)).run (answer seat) f = (.error e, f') := hcall
  rw [hp]
  simp only [he, ↓reduceIte]
  rfl

/-- How a call that is retried compares to a plain one: its reply may be that to the call made
again, if the reply to it was lost. -/
structure Retried (bound : Nat) (c : StoreCall) (s : Store) (w : Installation)
    (trials : List Trial) (r : Except Error c.Reply × Flaky) : Prop where
  follows : r.2.Follows bound w
  reply : ∃ new, r.2.trials = new ++ trials ∧ (r.1 = (s.perform c).1 ∨
    r.1 = ((s.perform c).2.perform c).1 ∧ ∃ e, .lost c (s.perform c).1 e ∈ new)

theorem run_attempts (seat : Seat) (hf : f.Follows bound w) (hw : w.Stores s calls)
    (hleft : (f.lapses.takeWhile Option.isSome).length ≤ left) (ceiling attempt backoff : Nat) :
    Retried bound c s (Installation.answer seat (.store c) w).2 f.trials
      ((Operation.attempts ceiling c left attempt backoff).run (answer seat) f) := by
  induction left generalizing f w s calls attempt backoff with
  | zero =>
    have htry := hf.attempt seat hw c
    cases hcall : f.call c with | mk reply f'
    rw [hcall] at htry
    cases htry with
    | answered h ht =>
      rw [run_attempts_answered hcall fun e he => Store.not_isTransient he]
      exact ⟨h, [_], ht, .inl rfl⟩
    | missed he h ht hl | lost he h ht hl => omega
  | succ left ih =>
    have htry := hf.attempt seat hw c
    cases hcall : f.call c with | mk reply f'
    rw [hcall] at htry
    cases htry with
    | answered h ht =>
      rw [run_attempts_answered hcall fun e he => Store.not_isTransient he]
      exact ⟨h, [_], ht, .inl rfl⟩
    | @missed _ e he h ht hl =>
      have hfewer : (f'.lapses.takeWhile Option.isSome).length ≤ left := by omega
      obtain ⟨warning, count, hrun⟩ := run_attempts_lapsed seat hcall he ceiling left attempt
        backoff
      rw [hrun]
      obtain ⟨hfollows, new, hnew, hreply⟩ :=
        ih ((h.report warning).report count) hw hfewer _ _
      refine ⟨hfollows, new ++ [.missed c e], ?_, ?_⟩
      · rw [hnew, List.append_assoc]
        exact congrArg (new ++ ·) ht
      · refine hreply.imp_right ?_
        rintro ⟨hreply, e', he'⟩
        exact ⟨hreply, e', List.mem_append_left _ he'⟩
    | @lost _ e he h ht hl =>
      have hfewer : (f'.lapses.takeWhile Option.isSome).length ≤ left := by omega
      obtain ⟨warning, count, hrun⟩ := run_attempts_lapsed seat hcall he ceiling left attempt
        backoff
      rw [hrun]
      -- the call took effect, so the attempts to come are calls made again
      have hstores := Installation.stores_called seat hw c
      obtain ⟨hfollows, new, hnew, hreply⟩ :=
        ih ((h.report warning).report count) hstores hfewer _ _
      refine ⟨hfollows.of_bare (Installation.bare_again seat hw c).symm,
        new ++ [.lost c (s.perform c).1 e], ?_, .inr ⟨?_, ?_⟩⟩
      · rw [hnew, List.append_assoc]
        exact congrArg (new ++ ·) ht
      · rcases hreply with hreply | ⟨hreply, -⟩
        · exact hreply
        · rw [hreply, s.perform_again c]
      · exact ⟨_, List.mem_append_right _ List.mem_cons_self⟩

end Flaky

-- ---------------------------------------------------------------------------
-- Runs with lapses and without
-- ---------------------------------------------------------------------------

namespace Operation

theorem run_perform (answer : (action : Action) → σ → action.Reply × σ) (action : Action) (s : σ) :
    (perform action).run answer s = answer action s := rfl

theorem retrying_bind (config : RetryConfig) (op : Operation α) (g : α → Operation β) :
    (op >>= g).retrying config = op.retrying config >>= fun value => (g value).retrying config := by
  induction op with
  | done value => rfl
  | act action next ih =>
    cases action with
    | store c =>
      change (attempts _ c _ _ _).bind _ = ((attempts _ c _ _ _).bind _).bind _
      rw [bind_assoc]
      exact congrArg _ (funext ih)
    | _ => exact congrArg _ (funext ih)

end Operation

theorem Installation.withRetries_bind (seat : Seat) (op : Operation α) (g : α → Operation β) :
    withRetries seat (op >>= g) =
      withRetries seat op >>= fun value => withRetries seat (g value) := by
  unfold withRetries
  cases seat.retry with
  | none => rfl
  | some config => exact Operation.retrying_bind config op g

theorem Flaky.run_done (f : Flaky) (seat : Seat) (value : α) :
    f.run seat (.done value) = (value, f) := by
  unfold run Installation.withRetries
  cases seat.retry <;> rfl

theorem Flaky.run_bind (f : Flaky) (seat : Seat) (op : Operation α) (g : α → Operation β) :
    f.run seat (op >>= g) = (f.run seat op).2.run seat (g (f.run seat op).1) := by
  rw [run, Installation.withRetries_bind]
  exact Operation.run_bind _ _ _ _

namespace Operation

/-- An operation that is run with lapses and retries compares to another one that is run plainly:
the installations stay the same, and the results and the new trials satisfy `post`. -/
structure Tracks (seat : Seat) (bound : Nat) (post : α → β → List Trial → Prop)
    (op : Operation α) (op' : Operation β) (f : Flaky) (w : Installation) : Prop where
  follows : (f.run seat op).2.Follows bound (op'.run (Installation.answer seat) w).2
  post : ∃ new, (f.run seat op).2.trials = new ++ f.trials ∧
    post (f.run seat op).1 (op'.run (Installation.answer seat) w).1 new

/-- With retries enough, the operation gives the same whatever lapses there are. -/
def Steady (op : Operation α) : Prop :=
  ∀ ⦃seat bound f w⦄, Seat.Bears seat bound → Flaky.Follows bound f w →
    op.Tracks seat bound (fun result plain _ => result = plain) op f w

section
variable {seat : Seat} {bound : Nat} {f : Flaky} {w : Installation}

theorem Tracks.mono {post post' : α → β → List Trial → Prop} {op : Operation α}
    {op' : Operation β} (h : op.Tracks seat bound post op' f w)
    (hp : ∀ result plain new, post result plain new → post' result plain new) :
    op.Tracks seat bound post' op' f w := by
  obtain ⟨hf, new, hnew, hpost⟩ := h
  exact ⟨hf, new, hnew, hp _ _ _ hpost⟩

theorem tracks_pure {post : α → β → List Trial → Prop} (hf : f.Follows bound w)
    (h : post result plain []) :
    (pure result : Operation α).Tracks seat bound post (pure plain) f w := by
  have hrun : f.run seat (pure result : Operation α) = (result, f) := f.run_done seat result
  refine ⟨?_, [], ?_, ?_⟩
  · rw [hrun]
    exact hf
  · rw [hrun]
    rfl
  · rw [hrun]
    exact h

theorem Tracks.bind_at {post : α → β → List Trial → Prop} {post' : γ → δ → List Trial → Prop}
    {op : Operation α} {op' : Operation β} {g : α → Operation γ} {g' : β → Operation δ}
    (h : op.Tracks seat bound post op' f w)
    (hg : ∀ result plain new f', post result plain new →
      f'.Follows bound (op'.run (Installation.answer seat) w).2 →
      (g result).Tracks seat bound (fun result' plain' later => post' result' plain' (later ++ new))
        (g' plain) f' (op'.run (Installation.answer seat) w).2) :
    (op >>= g).Tracks seat bound post' (op' >>= g') f w := by
  obtain ⟨hf, new, hnew, hpost⟩ := h
  obtain ⟨hf', later, hlater, hpost'⟩ := hg _ _ _ _ hpost hf
  have hrun := Flaky.run_bind f seat op g
  have hplain : (op' >>= g').run (Installation.answer seat) w = _ := run_bind _ op' g' w
  refine ⟨?_, later ++ new, ?_, ?_⟩
  · rw [hrun, hplain]
    exact hf'
  · rw [hrun, hlater, hnew, List.append_assoc]
  · rw [hrun, hplain]
    exact hpost'

theorem Tracks.bind {post : α → β → List Trial → Prop} {post' : γ → δ → List Trial → Prop}
    {op : Operation α} {op' : Operation β} {g : α → Operation γ} {g' : β → Operation δ}
    (h : op.Tracks seat bound post op' f w)
    (hg : ∀ result plain new f' w', post result plain new → f'.Follows bound w' →
      (g result).Tracks seat bound (fun result' plain' later => post' result' plain' (later ++ new))
        (g' plain) f' w') :
    (op >>= g).Tracks seat bound post' (op' >>= g') f w :=
  h.bind_at fun result plain new f' hp hf' => hg result plain new f' _ hp hf'

/-- A call, as a plain one is answered or, after a lost reply, as the same call again. -/
theorem tracks_call (hs : seat.Bears bound) (hf : f.Follows bound w) (hw : w.Stores s calls)
    (c : StoreCall) : (perform (.store c)).Tracks seat bound (fun reply plain new =>
      plain = (s.perform c).1 ∧ (reply = (s.perform c).1 ∨
        reply = ((s.perform c).2.perform c).1 ∧ ∃ e, .lost c (s.perform c).1 e ∈ new))
      (perform (.store c)) f w := by
  obtain ⟨config, hconfig, hbound⟩ := hs
  have hrun : f.run seat (perform (.store c)) =
      (attempts config.maxBackoffMillis.toNat c (config.maxAttempts.toNat - 1) 1
        config.initialBackoffMillis.toNat).run (Flaky.answer seat) f := by
    unfold Flaky.run Installation.withRetries
    rw [hconfig]
    exact congrArg (run _ · f) (bind_done _)
  have hleft := Nat.le_trans (hf.bearable.few _ (List.suffix_refl _)) hbound
  obtain ⟨hfollows, new, hnew, hreply⟩ := Flaky.run_attempts (c := c) seat hf hw hleft
    config.maxBackoffMillis.toNat 1 config.initialBackoffMillis.toNat
  refine ⟨?_, new, ?_, ?_, ?_⟩
  · rw [hrun, run_perform]
    exact hfollows
  · rw [hrun]
    exact hnew
  · rw [run_perform, Installation.answer_store hw]
  · rw [hrun]
    exact hreply

theorem tracks_other (hf : f.Follows bound w) {action : Action} (hne : ∀ c, action ≠ .store c) :
    (perform action).Tracks seat bound (fun reply plain _ => reply = plain)
      (perform action) f w := by
  obtain ⟨hreply, hfollows, htrials⟩ := hf.answer seat hne
  have hrun : f.run seat (perform action) = Flaky.answer seat action f := by
    unfold Flaky.run Installation.withRetries
    cases seat.retry with
    | none => rfl
    | some config =>
      cases action with
      | store c => exact absurd rfl (hne c)
      | _ => rfl
  refine ⟨?_, [], ?_, ?_⟩
  · rw [hrun]
    exact hfollows
  · rw [hrun]
    exact htrials
  · rw [hrun]
    exact hreply

end

theorem steady_pure (value : α) : (pure value : Operation α).Steady :=
  fun _ _ _ _ _ hf => tracks_pure hf rfl

theorem Steady.bind {op : Operation α} {g : α → Operation β} (h : op.Steady)
    (hg : ∀ value, (g value).Steady) : (op >>= g).Steady := by
  intro seat bound f w hs hf
  refine (h hs hf).bind fun result plain new f' w' he hf' => ?_
  subst he
  exact hg result hs hf'

theorem steady_perform {action : Action} (h : action.Allowed StoreCall.Repeatable) :
    (perform action).Steady := by
  intro seat bound f w hs hf
  cases action with
  | store c =>
    obtain ⟨s, calls, hw⟩ := hf.stores
    refine (tracks_call hs hf hw c).mono ?_
    rintro reply plain new ⟨rfl, hreply | ⟨hreply, -⟩⟩
    · exact hreply
    · exact hreply.trans (s.reply_again h)
  | _ => exact tracks_other hf fun c h => nomatch h

theorem steady_report (r : Report) : (Operation.report r).Steady := steady_perform trivial

theorem steady_of_calls {op : Operation α} (h : op.Calls StoreCall.Repeatable) : op.Steady := by
  induction op with
  | done value => exact steady_pure value
  | act action next ih => exact (steady_perform h.1).bind fun reply => ih reply (h.2 reply)

theorem steady_of_reads {op : Operation α} (h : op.Calls StoreCall.IsRead) : op.Steady :=
  steady_of_calls (h.mono fun _ hc => hc.repeatable)

theorem Reports.steady {op : Operation α} (h : op.Reports) : op.Steady := steady_of_calls h.calls

theorem Reports.bare {op : Operation α} (h : op.Reports) (seat : Seat) (w : Installation) :
    (op.run (Installation.answer seat) w).2.bare = w.bare := by
  induction op generalizing w with
  | done value => rfl
  | act action next ih =>
    obtain ⟨hreport, hnext⟩ := h
    cases action with
    | report r => exact (ih () (hnext ()) (w.report r)).trans (Installation.bare_report w r)
    | _ => exact hreport.elim

theorem Reports.follows {op : Operation α} (h : op.Reports) (seat : Seat)
    (hf : Flaky.Follows bound f w) :
    (f.run seat op).2.Follows bound w ∧ (f.run seat op).2.trials = f.trials := by
  induction op generalizing f with
  | done value =>
    rw [Flaky.run_done]
    exact ⟨hf, rfl⟩
  | act action next ih =>
    obtain ⟨hreport, hnext⟩ := h
    cases action with
    | report r =>
      have hrun : f.run seat (act (.report r) next) =
          Flaky.run { f with world := f.world.report r } seat (next ()) := by
        unfold Flaky.run Installation.withRetries
        cases seat.retry <;> rfl
      rw [hrun]
      exact ih () (hnext ()) (hf.report r)
    | _ => exact hreport.elim

theorem Reports.tracks {op : Operation α} {op' : Operation β} (h : op.Reports) (h' : op'.Reports)
    (seat : Seat) (hf : Flaky.Follows bound f w) :
    op.Tracks seat bound (fun _ _ _ => True) op' f w := by
  obtain ⟨hfollows, htrials⟩ := h.follows seat hf
  exact ⟨hfollows.of_bare (h'.bare seat w), [], htrials, trivial⟩

end Operation

namespace Attempt

open Operation

theorem steady_bind {x : Attempt α} {g : α → Attempt β} (h : x.run.Steady)
    (hg : ∀ value, (g value).run.Steady) : (x >>= g).run.Steady := by
  rw [ExceptT.run_bind]
  refine h.bind ?_
  rintro (e | value)
  · exact steady_pure _
  · exact hg value

theorem steady_lift {op : Operation α} (h : op.Steady) : (liftM op : Attempt α).run.Steady := by
  rw [ExceptT.run_liftM, ← bind_pure_comp]
  exact h.bind fun _ => steady_pure _

theorem steady_inSpan {x : Attempt α} (h : x.run.Steady) : (inSpan span x).run.Steady :=
  (steady_report _).bind fun _ => h.bind fun _ => (steady_report _).bind fun _ => steady_pure _

theorem steady_outcome {x : Attempt α} (h : x.run.Steady) : x.outcome.run.Steady :=
  h.bind fun _ => steady_pure _

theorem steady_mapError {x : Attempt α} (h : x.run.Steady) : (x.mapError f).run.Steady :=
  h.bind fun _ => steady_pure _

end Attempt

end SpoolIndex
