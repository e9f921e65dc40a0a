import SpoolIndex.Proofs.View.Maintenance
import SpoolIndex.View.Recording

/-!
# What a record answers for

A record opens the queue before it appends, and it reports success only of an
item that browses still reach when it looks at the browse start again, after the
append (`View.write_afterAppend`). Others may write all the while.
-/

namespace SpoolIndex

-- ---------------------------------------------------------------------------
-- After an append
-- ---------------------------------------------------------------------------

namespace Operation

/-- Whenever the operation has appended an item to an open queue, what is left of it keeps to the
contract and ends as `post` says of this item. -/
def AfterAppend (k : Contract) (post : Item → α → Store → Prop) : Operation α → Prop
  | .done _ => True
  | .act (.store c) next => (∀ reply, (next reply).AfterAppend k post) ∧
      ∀ (x : Item) (s : Store), c = .appendItem x → s.start x.queue ≠ none →
        (next (s.perform c).1).Keeps k (post x) (s.perform c).2
  | .act .now next | .act (.mint _) next | .act (.createQueue _) next | .act (.send _) next
  | .act (.fetch _) next | .act .countDelete next | .act (.sleep _) next
  | .act (.report _) next => ∀ reply, (next reply).AfterAppend k post

theorem Calls.afterAppend {op : Operation α} {post : Item → α → Store → Prop}
    (h : op.Calls fun c => ∀ x, c ≠ .appendItem x) : op.AfterAppend k post := by
  induction op with
  | done value => trivial
  | act action next ih =>
    cases action with
    | store c => exact ⟨fun reply => ih reply (h.2 reply), fun x _ hc => absurd hc (h.1 x)⟩
    | _ => exact fun reply => ih reply (h.2 reply)

theorem AfterAppend.bind {op : Operation α} {f : α → Operation β} {P : Item → α → Store → Prop}
    {Q : Item → β → Store → Prop} (h : op.AfterAppend k P)
    (hf : ∀ value, (f value).AfterAppend k Q)
    (hpost : ∀ x value s, P x value s → (f value).Keeps k (Q x) s) :
    (op >>= f).AfterAppend k Q := by
  induction op with
  | done value => exact hf value
  | act action next ih =>
    cases action with
    | store c =>
      exact ⟨fun reply => ih reply (h.1 reply), fun x s hc ho =>
        keeps_bind.mpr ((h.2 x s hc ho).mono fun value s => hpost x value s)⟩
    | _ => exact fun reply => ih reply (h reply)

theorem AfterAppend.answered {action : Action} {next : action.Reply → Operation α}
    {post : Item → α → Store → Prop} (h : (act action next).AfterAppend k post)
    (reply : action.Reply) : (next reply).AfterAppend k post := by
  cases action with
  | store c => exact h.1 reply
  | _ => exact h reply

theorem Calls.bind_afterAppend {op : Operation α} {f : α → Operation β}
    {post : Item → β → Store → Prop} (h : op.Calls fun c => ∀ x, c ≠ .appendItem x)
    (hf : ∀ value, (f value).AfterAppend k post) : (op >>= f).AfterAppend k post :=
  h.afterAppend.bind (P := fun _ _ _ => False) hf fun _ _ _ h => h.elim

theorem AfterAppend.inSpan {op : Operation α} {post : Item → α → Store → Prop}
    (h : op.AfterAppend k post) : (Operation.inSpan span op).AfterAppend k post :=
  calls_report.bind_afterAppend fun _ =>
    h.bind (fun _ => calls_report.bind_afterAppend fun _ => trivial) fun _ _ _ h => fun _ => h

end Operation

-- ---------------------------------------------------------------------------
-- The calls of a record
-- ---------------------------------------------------------------------------

def StoreCall.IsRecording : StoreCall → Prop
  | putTombstone .. | swapStart _ .below _ => False
  | _ => True

def View.Places (v : View) (x : Item) : Prop := x.bucket = v.allocator.bucketOf x.queue x.key

theorem View.Places.bucket_lt {v : View} (h : v.Places x) :
    x.bucket.id < v.allocator.bucketCount := by
  rw [h]
  exact UInt32.mod_lt _ v.allocator.bucketCount_pos

theorem View.Places.bucket_lt_of_count {c c' : Config} (h : (View.ofConfig c).Places x)
    (hcount : c.bucketCount = c'.bucketCount) :
    x.bucket.id < (View.ofConfig c').allocator.bucketCount := by
  have hlt := h.bucket_lt
  simp only [View.ofConfig, Allocator.new, hcount] at hlt ⊢
  exact hlt

/-- A contract that asks of an append that the queue is open and the bucket the right one, and
nothing else of the calls of a record. -/
structure Contract.AllowsRecords (k : Contract) (v : View) : Prop extends k.Orderly where
  own_record : c.IsRecording → (∀ x, c = .appendItem x → s.start x.queue ≠ none ∧ v.Places x) →
    k.own c s

theorem Contract.Protects.allowsRecords {k : Contract} (hk : k.Protects p key) :
    k.AllowsRecords v where
  toOrderly := hk.toOrderly
  own_record hc _ := hk.own_of_ne fun _ h => by rw [h] at hc; exact hc

/-- How a record of an item ends: it has succeeded just if the last look at the browse start, at
this very store, found the item within reach. -/
structure Reported (k : Contract) (x : Item) (ok : Bool) (s : Store) : Prop where
  found : k.found (.readStart x.queue) s
  reaches : ok ↔ s.Reaches x.queue x.slice

def Enqueued.isIndexed : Enqueued → Bool
  | .indexed .. => true
  | .unindexed .. => false

section
variable {k : Contract} {v : View} {x : Item} {s : Store}

theorem Contract.AllowsRecords.own_of_ne (hk : k.AllowsRecords v) (hc : c.IsRecording)
    (hne : ∀ x, c ≠ .appendItem x) : k.own c s :=
  hk.own_record hc fun x h => absurd h (hne x)

theorem Contract.AllowsRecords.allowsReads (hk : k.AllowsRecords v) : k.AllowsReads where
  toOrderly := hk.toOrderly
  own_read {c s} hc := by
    cases c with
    | appendItem | putTombstone | swapStart => exact hc.elim
    | _ => exact hk.own_of_ne trivial fun _ => StoreCall.noConfusion

theorem BrowseStart.establish_calls : (BrowseStart.establish q slice).run.Calls
    (fun c => c = .swapStart q .absent slice ∨ c = .readStart q) := by
  refine Attempt.calls_bind (Attempt.calls_call (.inl rfl)) fun applied => ?_
  cases applied
  · exact Attempt.calls_bind (Attempt.calls_call (.inr rfl)) fun _ => trivial
  · trivial

theorem BrowseStart.establish_keeps (hk : k.AllowsReads)
    (hown : ∀ s, k.own (.swapStart q .absent slice) s) :
    (BrowseStart.establish q slice).run.Keeps k
      (fun result s' => result.isOk ∧ s'.start q ≠ none) s := by
  refine Attempt.keeps_bind.mpr fun met ho hf => ⟨hown met, ?_⟩
  have hopen := Store.open_swapStart_absent met q slice
  simp only [Store.perform] at hopen ⊢
  split at hopen
  · rename_i happ
    simp only [happ, ↓reduceIte]
    exact ⟨rfl, hopen⟩
  · rename_i happ
    simp only [happ, Bool.false_eq_true, ↓reduceIte]
    refine Attempt.keeps_bind.mpr fun met ho hf => ⟨hk.own_read trivial, ?_⟩
    exact ⟨rfl, Store.open_grows hopen (hk.grows ho)⟩

namespace View

theorem confirm_calls : (confirm x).run.Calls (· = .readStart x.queue) := by
  refine Attempt.calls_bind (Attempt.calls_mapError (Attempt.calls_call rfl)) fun start => ?_
  cases start with
  | none => trivial
  | some start =>
    dsimp only
    split <;> trivial

theorem confirm_keeps (hk : k.AllowsReads) (ho : s.start x.queue ≠ none) :
    (confirm x).run.Keeps k (fun result s => Reported k x result.isOk s) s := by
  refine Attempt.keeps_bind.mpr (Attempt.keeps_mapError.mpr ?_)
  refine Attempt.keeps_call.mpr fun met hm hf => ⟨hk.own_read trivial, ?_⟩
  obtain ⟨start, hs⟩ := Option.ne_none_iff_exists'.mp (Store.open_grows ho (hk.grows hm))
  simp only [Store.perform, hs]
  change Operation.Keeps k _ (ExceptT.run (if x.slice < start then _ else _)) met
  split
  · rename_i hlt
    refine ⟨hf, fun h => absurd h Bool.false_ne_true, fun hreaches => ?_⟩
    obtain ⟨start', hs', hle⟩ := hreaches
    obtain rfl : start = start' := Option.some.inj (hs.symm.trans hs')
    exact absurd hlt (Slice.not_lt.mpr hle)
  · rename_i hlt
    exact ⟨hf, fun _ => ⟨start, hs, Slice.not_lt.mp hlt⟩, fun _ => rfl⟩

theorem write_keeps_open (hk : k.AllowsReads)
    (hopen : ∀ s, k.own (.swapStart x.queue .absent (x.slice.back v.settleSlices)) s)
    (happend : ∀ s, s.start x.queue ≠ none → k.own (.appendItem x) s) :
    (v.write x).run.Keeps k
      (fun result s => s.start x.queue ≠ none ∧ Reported k x result.isOk s) s := by
  rw [write]
  refine Attempt.keeps_bind.mpr (Attempt.keeps_mapError.mpr ?_)
  refine (BrowseStart.establish_keeps hk hopen).mono ?_
  rintro (e | start) s' ⟨hok, hs'⟩
  · cases hok
  refine Attempt.keeps_bind.mpr (Attempt.keeps_mapError.mpr ?_)
  refine Attempt.keeps_call.mpr fun met ho hf => ?_
  have hmet := Store.open_grows hs' (hk.grows ho)
  have happended : (met.append x).start x.queue ≠ none := hmet
  refine ⟨happend met hmet, Operation.Keeps.mono ((confirm_keeps hk happended).grows hk.toOrderly)
    fun result s'' ⟨hr, hg⟩ => ?_⟩
  exact ⟨Store.open_grows happended hg, hr⟩

theorem write_keeps (hk : k.AllowsRecords v) (hx : v.Places x) :
    (v.write x).run.Keeps k (fun result s => Reported k x result.isOk s) s := by
  have hopen (s : Store) : k.own (.swapStart x.queue .absent (x.slice.back v.settleSlices)) s :=
    hk.own_of_ne trivial fun _ => StoreCall.noConfusion
  refine (write_keeps_open hk.allowsReads hopen fun s ho => ?_).mono fun _ _ h => h.2
  refine hk.own_record trivial fun y hy => ?_
  cases hy
  exact ⟨ho, hx⟩

theorem write_afterAppend (hk : k.AllowsRecords v) :
    (v.write x).run.AfterAppend k fun x result s => Reported k x result.isOk s := by
  rw [write, ExceptT.run_bind]
  refine Operation.Calls.bind_afterAppend ?_ ?_
  · refine Attempt.calls_mapError (BrowseStart.establish_calls.mono ?_)
    rintro c (rfl | rfl) y hy <;> cases hy
  have hconfirm : (confirm x).run.AfterAppend k fun x result s => Reported k x result.isOk s :=
    Operation.Calls.afterAppend (confirm_calls.mono fun c hc y hy => by rw [hc] at hy; cases hy)
  rintro (e | start)
  · trivial
  refine ⟨?_, fun y s hy ho => ?_⟩
  · rintro (e | _)
    · trivial
    · exact hconfirm
  · cases hy
    exact confirm_keeps hk.allowsReads ho

-- ---------------------------------------------------------------------------
-- Records
-- ---------------------------------------------------------------------------

theorem places_itemOf : v.Places (v.itemOf q new key moment) := rfl

theorem recordAt_minted (h : new.key = none) : (v.recordAt q new moment).run =
    (Operation.mint moment >>= fun key => (v.recordAt q (new.withKey key) moment).run) := by
  unfold recordAt
  rw [h]
  rfl

theorem recordAt_keyed (h : new.key = some key) : (v.recordAt q new moment).run = (do
    beginRecord q key (v.itemOf q new key moment).slice
    let result ← (Attempt.inSpan "view.record" (v.write (v.itemOf q new key moment))).run
    endRecord q (v.itemOf q new key moment).slice (v.itemOf q new key moment).bucket result
    return result.map fun _ => key) := by
  unfold recordAt
  rw [h]
  rfl

theorem beginRecord_reports : (beginRecord q key slice).Reports :=
  (Operation.reports_report _).bind fun _ => Operation.reports_report _

theorem endRecord_reports : (endRecord q slice bucket result).Reports := by
  have hrecord : (reportRecord slice bucket result).Reports := by
    rcases result with e | _ <;> exact Operation.reports_report _
  exact (Operation.reports_report _).bind fun _ => (Operation.reports_report _).bind fun _ =>
    hrecord.inSpan

theorem recordAt_of_write {Q : Bool → Store → Prop} (h : new.key = some key)
    (hw : (v.write (v.itemOf q new key moment)).run.Keeps k
      (fun result s => Q result.isOk s) s) :
    (v.recordAt q new moment).run.Keeps k (fun result s => Q result.isOk s) s := by
  rw [recordAt_keyed h]
  refine Operation.keeps_bind.mpr (beginRecord_reports.keeps fun _ => ?_)
  refine Operation.keeps_bind.mpr (Attempt.keeps_inSpan.mpr (hw.mono fun result s hr => ?_))
  refine Operation.keeps_bind.mpr (endRecord_reports.keeps fun _ => ?_)
  cases result <;> exact hr

/-- A record is acknowledged just if its last look at the browse start, which is open by then, finds
its slice within reach. -/
theorem recordAt_keeps_open (hk : k.AllowsReads)
    (hopen : ∀ s, k.own (.swapStart q .absent (v.settleLimit moment)) s)
    (happend : ∀ x s, s.start x.queue ≠ none → k.own (.appendItem x) s) :
    (v.recordAt q new moment).run.Keeps k (fun result s => s.start q ≠ none ∧
      k.found (.readStart q) s ∧ (result.isOk ↔ s.Reaches q (v.allocator.sliceOf moment))) s := by
  have hkeyed {new : NewItem} {key : Key} (h : new.key = some key) :
      (v.recordAt q new moment).run.Keeps k (fun result s => s.start q ≠ none ∧
        k.found (.readStart q) s ∧ (result.isOk ↔ s.Reaches q (v.allocator.sliceOf moment))) s := by
    refine recordAt_of_write (Q := fun ok s => s.start q ≠ none ∧ k.found (.readStart q) s ∧
      (ok ↔ s.Reaches q (v.allocator.sliceOf moment))) h ?_
    refine (write_keeps_open hk hopen (happend _)).mono ?_
    exact fun result s' ⟨hs', hr⟩ => ⟨hs', hr.found, hr.reaches⟩
  cases h : new.key with
  | some key => exact hkeyed h
  | none =>
    rw [recordAt_minted h]
    exact fun key => hkeyed rfl

theorem recordAt_keeps (hk : k.AllowsRecords v) :
    (v.recordAt q new moment).run.Keeps k (fun _ _ => True) s := by
  cases h : new.key with
  | some key =>
    exact recordAt_of_write (Q := fun _ _ => True) h
      ((write_keeps hk places_itemOf).mono fun _ _ _ => trivial)
  | none =>
    rw [recordAt_minted h]
    intro key
    have h : (new.withKey key).key = some key := rfl
    exact recordAt_of_write (Q := fun _ _ => True) h
      ((write_keeps hk places_itemOf).mono fun _ _ _ => trivial)

theorem recordAt_afterAppend (hk : k.AllowsRecords v) :
    (v.recordAt q new moment).run.AfterAppend k fun x result s => Reported k x result.isOk s := by
  have hkeyed {new : NewItem} {key : Key} (h : new.key = some key) :
      (v.recordAt q new moment).run.AfterAppend k fun x result s => Reported k x result.isOk s := by
    rw [recordAt_keyed h]
    refine beginRecord_reports.calls.bind_afterAppend fun _ => ?_
    refine Operation.AfterAppend.bind (write_afterAppend hk).inSpan ?_ ?_
    · exact fun result => Operation.Calls.afterAppend
        (endRecord_reports.calls.bind fun _ => Operation.calls_pure)
    · intro x result s hr
      refine Operation.keeps_bind.mpr (endRecord_reports.keeps fun _ => ?_)
      cases result <;> exact hr
  cases h : new.key with
  | some key => exact hkeyed h
  | none =>
    rw [recordAt_minted h]
    exact fun key => hkeyed rfl

theorem record_keeps (hk : k.AllowsRecords v) :
    (v.record q new).run.Keeps k (fun _ _ => True) s := by
  refine Attempt.keeps_bind.mpr (Attempt.keeps_lift.mpr (Operation.keeps_now.mpr fun t _ => ?_))
  exact recordAt_keeps hk

theorem record_afterAppend (hk : k.AllowsRecords v) :
    (v.record q new).run.AfterAppend k fun x result s => Reported k x result.isOk s :=
  fun _ => recordAt_afterAppend hk

theorem recordSent_of_record {Q : Bool → Store → Prop}
    (hr : (v.recordAt q (new.withKey key) moment).run.Keeps k
      (fun result s => Q result.isOk s) s) :
    (v.recordSent q new key moment receipt).run.Keeps k
      (fun result s => ∃ e, result = .ok e ∧ Q e.isIndexed s) s := by
  refine Attempt.keeps_bind.mpr (Attempt.keeps_outcome.mpr (hr.mono ?_))
  rintro (e | key) s' hp
  · exact Attempt.keeps_bind.mpr (Attempt.keeps_lift.mpr
      (Operation.keeps_event.mpr ⟨_, rfl, hp⟩))
  · exact ⟨_, rfl, hp⟩

theorem recordSent_afterAppend (hk : k.AllowsRecords v) :
    (v.recordSent q new key moment receipt).run.AfterAppend k
      fun x result s => ∃ e, result = .ok e ∧ Reported k x e.isIndexed s := by
  unfold recordSent Attempt.outcome
  rw [ExceptT.run_bind]
  refine Operation.AfterAppend.bind (P := fun x result s => ∃ r : Except Error Key, result = .ok r ∧
    Reported k x r.isOk s)
    ?_ ?_ ?_
  · refine (recordAt_afterAppend hk).bind (fun _ => trivial) fun x result s hr => ?_
    exact ⟨result, rfl, hr⟩
  · rintro (e | e | key)
    · trivial
    · exact fun _ => trivial
    · trivial
  · rintro x _ s ⟨e | key, rfl, hr⟩
    · exact fun _ => ⟨_, rfl, hr⟩
    · exact ⟨_, rfl, hr⟩

theorem enqueue_keyed (h : new.key = some key) : (v.enqueue q new).run =
    (Operation.now >>= fun moment => (v.enqueueAs q new moment key).run) := by
  unfold enqueue
  rw [h]
  rfl

theorem enqueue_minted (h : new.key = none) : (v.enqueue q new).run =
    (Operation.now >>= fun moment => Operation.mint moment >>= fun key =>
      (v.enqueueAs q new moment key).run) := by
  unfold enqueue
  rw [h]
  rfl

theorem enqueue_of_record (h : ∀ moment key s, k.clock moment →
    (v.recordAt q (new.withKey key) moment).run.Keeps k (fun _ _ => True) s) :
    (v.enqueue q new).run.Keeps k (fun _ _ => True) s := by
  have hsend {moment : Instant} {key : Key} (ht : k.clock moment) :
      (v.enqueueAs q new moment key).run.Keeps k (fun _ _ => True) s := by
    refine Attempt.keeps_bind.mpr ?_
    rintro (e | receipt)
    · trivial
    · exact (recordSent_of_record (Q := fun _ _ => True)
        ((h moment key s ht).mono fun _ _ _ => trivial)).mono fun _ _ _ => trivial
  cases hkey : new.key with
  | some key =>
    rw [enqueue_keyed hkey]
    exact fun t ht => hsend ht
  | none =>
    rw [enqueue_minted hkey]
    exact fun t ht key => hsend ht

theorem enqueue_keeps (hk : k.AllowsRecords v) :
    (v.enqueue q new).run.Keeps k (fun _ _ => True) s :=
  enqueue_of_record fun _ _ _ _ => recordAt_keeps hk

theorem enqueue_afterAppend (hk : k.AllowsRecords v) :
    (v.enqueue q new).run.AfterAppend k
      fun x result s => ∃ e, result = .ok e ∧ Reported k x e.isIndexed s := by
  have hsend (moment : Instant) (key : Key) : (v.enqueueAs q new moment key).run.AfterAppend k
      fun x result s => ∃ e, result = .ok e ∧ Reported k x e.isIndexed s := by
    rintro (e | receipt)
    · trivial
    · exact recordSent_afterAppend hk
  cases h : new.key with
  | some key =>
    rw [enqueue_keyed h]
    exact fun t => hsend t key
  | none =>
    rw [enqueue_minted h]
    exact fun t key => hsend t key

end View

end

end SpoolIndex
