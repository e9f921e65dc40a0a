import SpoolIndex.Installation
import SpoolIndex.Proofs.View.Request

/-!
# Operations that run whole

An installation with its store in memory and no script of faults answers a call
as the store does. An operation runs there by itself, so a contract that counts
on nobody else holds of the run (`Installation.run_keeps`). No error of the store
in memory is transient, so retries make no difference
(`Installation.run_eq`).
-/

namespace SpoolIndex

/-- The contract of an operation that nobody interrupts, with the clock at `t`: each of its calls
finds `I` and keeps it. -/
def Contract.alone (I : Store → Prop) (t : Instant) : Contract :=
  ⟨Eq, fun _ s => I s, (· = t), fun c s => I s → I (s.perform c).2⟩

theorem Contract.alone_orderly {I : Store → Prop} (hI : ∀ s, I s → s.Proper) :
    (Contract.alone I t).Orderly where
  grows ho := by
    obtain rfl := ho
    exact .refl _
  proper hf := hI _ hf

theorem Contract.alone_allowsReads {I : Store → Prop} (hI : ∀ s, I s → s.Proper) :
    (Contract.alone I t).AllowsReads where
  toOrderly := alone_orderly hI
  own_read hc h := by
    rw [hc.perform]
    exact h

theorem Contract.alone_same {s : Store} (hs : s.Proper) :
    (Contract.alone (Eq s) t).AllowsReads := by
  refine alone_allowsReads ?_
  rintro s' rfl
  exact hs

theorem View.timely_alone {v : View} {I : Store → Prop} (t' : Instant) (slice : Slice)
    (ht : (Contract.alone I t).clock t') (h : slice ≤ v.allocator.sliceOf t') :
    slice ≤ v.allocator.sliceOf t := by
  obtain rfl : t' = t := ht
  exact h

theorem Operation.keeps_alone {I : Store → Prop} (hI : ∀ c s, I s → I (s.perform c).2)
    (op : Operation α) : op.Keeps (.alone I t) (fun _ _ => True) s := by
  have hcalls : op.Calls fun _ => True := by
    induction op with
    | done value => trivial
    | act action next ih => exact ⟨by cases action <;> trivial, ih⟩
  exact hcalls.keeps fun c s _ _ => hI c s

theorem Operation.Keeps.alone {op : Operation α} {I : Store → Prop} (hI : I s)
    (h : op.Keeps (.alone I t) post s) :
    op.Keeps (.alone I t) (fun value s => post value s ∧ I s) s := by
  induction op generalizing s with
  | done value => exact ⟨h, hI⟩
  | act action next ih =>
    cases action with
    | store c =>
      rintro met rfl hf
      obtain ⟨hown, hnext⟩ := h s rfl hf
      exact ⟨hown, ih _ (hown hI) hnext⟩
    | now => exact fun t ht => ih t hI (h t ht)
    | _ => exact fun reply => ih reply hI (h reply)

theorem Store.not_isTransient {s : Store} (h : (s.perform c).1 = .error e) : ¬e.isTransient := by
  have htoken (after : Option Token) (h : Token.bound after = .error e) : ¬e.isTransient := by
    cases after with
    | none => cases h
    | some token =>
      simp only [Token.bound, Token.lastKey] at h
      split at h <;> cases h
      exact Bool.false_ne_true
  cases c with
  | scanItems p after limit | scanTombstones q after limit =>
    refine htoken after ?_
    cases hb : Token.bound after with
    | error e' =>
      simp only [perform, hb] at h
      cases h
      rfl
    | ok bound =>
      simp only [perform, hb] at h
      cases h
  | swapStart q condition slice =>
    simp only [perform] at h
    split at h <;> cases h
  | _ => cases h

def Store.after (s : Store) (calls : List StoreCall) : Store :=
  calls.foldr (fun c s => (s.perform c).2) s

theorem Store.after_append (s : Store) (later earlier : List StoreCall) :
    s.after (later ++ earlier) = (s.after earlier).after later := List.foldr_append

theorem Store.sorted_tombstones_after (calls : List StoreCall) :
    ∀ q, SortedByKey id ((empty.after calls).tombstones q) := by
  induction calls with
  | nil => exact fun _ => .nil
  | cons c calls ih => exact sorted_tombstones_perform ih c

theorem Store.grows_after (s : Store) (calls : List StoreCall) : s.Grows (s.after calls) := by
  induction calls with
  | nil => exact .refl s
  | cons c calls ih => exact ih.trans (grows_perform _ c)

namespace Installation

/-- The store is in memory with no faults to come, and has seen these calls, the latest first. -/
def Stores (w : Installation) (s : Store) (calls : List StoreCall) : Prop :=
  w.backing = .memory ⟨s, [], calls⟩

variable {w : Installation} {s : Store} {calls : List StoreCall} {seat : Seat}

-- ---------------------------------------------------------------------------
-- One action
-- ---------------------------------------------------------------------------

theorem answer_store (hw : w.Stores s calls) (c : StoreCall) : answer seat (.store c) w =
    ((s.perform c).1, { w with backing := .memory ⟨(s.perform c).2, [], c :: calls⟩ }) := by
  obtain ⟨backing, clocks, generator, minted, deletes, refuses, sent, content, stored, journal⟩ := w
  obtain rfl : backing = _ := hw
  rfl

theorem answer_other (hw : w.Stores s calls) {action : Action} (h : ∀ c, action ≠ .store c) :
    (answer seat action w).2.Stores s calls ∧ (answer seat action w).2.clocks = w.clocks := by
  obtain ⟨backing, clocks, generator, minted, deletes, refuses, sent, content, stored, journal⟩ := w
  obtain rfl : backing = _ := hw
  cases action with
  | store c => exact absurd rfl (h c)
  | send m => cases refuses <;> exact ⟨rfl, rfl⟩
  | _ => exact ⟨rfl, rfl⟩

-- ---------------------------------------------------------------------------
-- Retries
-- ---------------------------------------------------------------------------

theorem run_attempts (hw : w.Stores s calls) :
    (Operation.attempts ceiling c left attempt backoff).run (answer seat) w =
      answer seat (.store c) w := by
  cases left with
  | zero => rfl
  | succ left =>
    unfold Operation.attempts
    change Operation.run (answer seat) ((Operation.perform (.store c)).bind _) w = _
    rw [Operation.run_bind]
    have hp : (Operation.perform (.store c)).run (answer seat) w = answer seat (.store c) w := rfl
    rw [hp, answer_store hw]
    cases hr : (s.perform c).1 with
    | ok reply => rfl
    | error e =>
      have ht := Store.not_isTransient hr
      simp only [ht]
      rfl

theorem run_retrying (config : RetryConfig) (op : Operation α) (hw : w.Stores s calls) :
    (op.retrying config).run (answer seat) w = op.run (answer seat) w := by
  induction op generalizing w s calls with
  | done value => rfl
  | act action next ih =>
    by_cases hc : ∃ c, action = .store c
    · obtain ⟨c, rfl⟩ := hc
      unfold Operation.retrying
      rw [Operation.run_bind, run_attempts hw, Operation.run_act, answer_store hw]
      exact ih _ rfl
    · have hne : ∀ c, action ≠ .store c := fun c h => hc ⟨c, h⟩
      have hact : (Operation.act action next).retrying config =
          .act action fun reply => (next reply).retrying config := by
        cases action with
        | store c => exact absurd rfl (hne c)
        | _ => rfl
      rw [hact, Operation.run_act, Operation.run_act]
      exact ih _ (answer_other hw hne).1

theorem run_eq (op : Operation α) (hw : w.Stores s calls) :
    w.run seat op = op.run (answer seat) w := by
  unfold run withRetries
  cases seat.retry with
  | none => rfl
  | some config => exact run_retrying config op hw

-- ---------------------------------------------------------------------------
-- Whole runs
-- ---------------------------------------------------------------------------

theorem answer_keeps {action : Action} {next : action.Reply → Operation α} {I : Store → Prop}
    (hw : w.Stores s calls) (hI : I s)
    (h : (Operation.act action next).Keeps (.alone I (w.now seat.clock)) post s) :
    ∃ new, (answer seat action w).2.Stores (s.after new) (new ++ calls) ∧
      (answer seat action w).2.clocks = w.clocks ∧ I (s.after new) ∧
      (next (answer seat action w).1).Keeps (.alone I (w.now seat.clock)) post (s.after new) := by
  have hother (hne : ∀ c, action ≠ .store c) : (answer seat action w).2.Stores s calls ∧
      (answer seat action w).2.clocks = w.clocks := answer_other hw hne
  cases action with
  | store c =>
    obtain ⟨hown, hnext⟩ := h s rfl hI
    rw [answer_store hw]
    exact ⟨[c], rfl, rfl, hown hI, hnext⟩
  | now => exact ⟨[], hw, rfl, hI, h _ rfl⟩
  | _ =>
    obtain ⟨hs, hclocks⟩ := hother fun c h => nomatch h
    exact ⟨[], hs, hclocks, hI, h _⟩

/-- What an operation keeps to when it is alone holds of its run, and the store is then what the
calls made of it. -/
theorem run_keeps (seat : Seat) {op : Operation α} {I : Store → Prop} (hw : w.Stores s calls)
    (hI : I s) (h : op.Keeps (.alone I (w.now seat.clock)) post s) :
    ∃ new, (w.run seat op).2.Stores (s.after new) (new ++ calls) ∧
      (w.run seat op).2.clocks = w.clocks ∧ I (s.after new) ∧
      post (w.run seat op).1 (s.after new) := by
  rw [run_eq op hw]
  induction op generalizing w s calls with
  | done value => exact ⟨[], hw, rfl, hI, h⟩
  | act action next ih =>
    rw [Operation.run_act]
    obtain ⟨first, hw', hclocks, hI', h'⟩ := answer_keeps hw hI h
    rw [now, ← hclocks] at h'
    obtain ⟨new, hs, hclocks', hrun⟩ := ih _ hw' hI' h'
    rw [← List.append_assoc] at hs
    rw [← Store.after_append] at hs hrun
    exact ⟨new ++ first, hs, hclocks'.trans hclocks, hrun⟩

end Installation

-- ---------------------------------------------------------------------------
-- What happens to an installation
-- ---------------------------------------------------------------------------

inductive Happening where
  | request (view : View) (seat : Seat) (request : Request)
  | clock (clock : Nat) (moment : Instant)
  /-- The transport stops accepting messages, or accepts them again. -/
  | transport (refuses : Bool)

namespace Installation

def happen (w : Installation) : Happening → Installation
  | .request v seat r => (w.run seat (r.perform v).run).2
  | .clock clock t => w.setClock clock t
  | .transport refuses => { w with refuses }

/-- The installation after some happenings, the first of which comes first. -/
def through (w : Installation) (happenings : List Happening) : Installation :=
  happenings.foldl happen w

variable {w : Installation} {s : Store} {calls : List StoreCall}

theorem happen_stores (hw : w.Stores s calls) (h : Happening) :
    ∃ new, (w.happen h).Stores (s.after new) (new ++ calls) := by
  cases h with
  | request v seat r =>
    obtain ⟨new, hs, -⟩ := run_keeps (I := fun _ => True) seat hw trivial
      (Operation.keeps_alone (fun _ _ h => h) (r.perform v).run)
    exact ⟨new, hs⟩
  | clock clock t => exact ⟨[], hw⟩
  | transport refuses => exact ⟨[], hw⟩

theorem through_stores (hw : w.Stores s calls) (happenings : List Happening) :
    ∃ new, (w.through happenings).Stores (s.after new) (new ++ calls) := by
  induction happenings generalizing w s calls with
  | nil => exact ⟨[], hw⟩
  | cons h happenings ih =>
    obtain ⟨first, hs⟩ := happen_stores hw h
    obtain ⟨new, hs⟩ := ih hs
    rw [← Store.after_append, ← List.append_assoc] at hs
    exact ⟨new ++ first, hs⟩

end Installation

def Sample.seat : Seat := ⟨0, 0, none, 0⟩

end SpoolIndex
