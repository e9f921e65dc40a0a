import SpoolIndex.Proofs.Installation.Runs

/-!
# What a request leaves behind

A request that runs alone leaves the rows as they were, or with the one item
that it records, and then it is acknowledged just if browses reach that item in
the end (`Installation.run_request`).
-/

namespace SpoolIndex

structure Recorded (x : Item) (s : Store) (ok : Bool) (s' : Store) : Prop where
  items : s'.items = (s.append x).items
  opened : s'.start x.queue ≠ none
  reaches : ok ↔ s'.Reaches x.queue x.slice

section
variable {v : View} {q : QueueName} {x : Item} {s s' : Store}

theorem Operation.Calls.keeps_items {op : Operation α}
    (h : op.Calls fun c => ∀ x, c ≠ .appendItem x) :
    op.Keeps (.alone Store.Proper t) (fun _ s' => s'.items = s.items) s := by
  induction op generalizing s with
  | done value => rfl
  | act action next ih =>
    cases action with
    | store c =>
      rintro met rfl -
      refine ⟨(s.grows_perform c).proper, (ih _ (h.2 _)).mono fun _ s' hs' => ?_⟩
      rw [hs', Store.items_perform h.1]
    | now => exact fun t _ => ih t (h.2 t)
    | _ => exact fun reply => ih reply (h.2 reply)

namespace View

theorem write_recorded : (v.write x).run.Keeps (.alone Store.Proper t)
    (fun result s' => Recorded x s result.isOk s') s := by
  have hk : (Contract.alone Store.Proper t).AllowsReads := Contract.alone_allowsReads fun _ h => h
  have hestablish : (BrowseStart.establish x.queue (x.slice.back v.settleSlices)).run.Calls
      fun c => ∀ y, c ≠ .appendItem y :=
    BrowseStart.establish_calls.mono fun c hc y hy => by
      rw [hy] at hc
      rcases hc with h | h <;> cases h
  have hconfirm : (confirm x).run.Calls fun c => ∀ y, c ≠ .appendItem y :=
    confirm_calls.mono fun c hc y hy => by rw [hc] at hy; cases hy
  rw [write]
  refine Attempt.keeps_bind.mpr (Attempt.keeps_mapError.mpr ?_)
  refine ((BrowseStart.establish_keeps hk fun s₁ => (s₁.grows_perform _).proper).and
    hestablish.keeps_items).mono ?_
  rintro (e | start) s₁ ⟨⟨hok, hopen⟩, hitems⟩
  · cases hok
  refine Attempt.keeps_bind.mpr (Attempt.keeps_mapError.mpr (Attempt.keeps_call.mpr ?_))
  rintro met rfl -
  refine ⟨(s₁.grows_append x).proper, ?_⟩
  have hopen' : (s₁.append x).start x.queue ≠ none := hopen
  refine (((confirm_keeps hk hopen').and hconfirm.keeps_items).grows hk.toOrderly).mono ?_
  rintro result s' ⟨⟨hr, hitems'⟩, hg⟩
  refine ⟨?_, Store.open_grows hopen' hg, hr.reaches⟩
  rw [hitems']
  simp only [Store.append, hitems]

theorem recordAt_recorded (h : new.key = some key) :
    (v.recordAt q new moment).run.Keeps (.alone Store.Proper t)
      (fun result s' => Recorded (v.itemOf q new key moment) s result.isOk s') s :=
  recordAt_of_write (Q := fun ok s' => Recorded (v.itemOf q new key moment) s ok s') h
    write_recorded

end View

end

-- ---------------------------------------------------------------------------
-- Requests
-- ---------------------------------------------------------------------------

namespace Request

def Keyed : Request → Prop
  | record _ new | recordAt _ new _ | enqueue _ new => new.key.isSome
  | _ => True

/-- The item that the request recorded, under a key of the caller, with the clock at `t`. What the
transport refused was not recorded. -/
def item? (v : View) (t : Instant) : Request → Except Error Response → Option Item
  | record q new, _ => new.key.map fun key => v.itemOf q new key t
  | recordAt q new moment, _ => new.key.map fun key => v.itemOf q new key moment
  | enqueue q new, .ok _ => new.key.map fun key => v.itemOf q new key t
  | _, _ => none

def Leaves (v : View) (s : Store) (ok : Bool) (s' : Store) : Option Item → Prop
  | some x => v.Places x ∧ Recorded x s ok s'
  | none => s'.items = s.items

variable {v : View} {r : Request} {s : Store}

theorem recordSent_leaves (h : new.key = some key) :
    (v.recordSent q new key t receipt).run.Keeps (.alone Store.Proper t) (fun result s' =>
      Leaves v s (acknowledged (result.map .enqueued)) s'
        ((enqueue q new).item? v t (result.map .enqueued))) s := by
  have hkeyed : (new.withKey key).key = some key := rfl
  refine (View.recordSent_of_record (Q := Recorded (v.itemOf q new key t) s)
    (View.recordAt_recorded hkeyed)).mono ?_
  rintro _ s' ⟨e, rfl, hx⟩
  simp only [Except.map, item?, h]
  exact ⟨View.places_itemOf, hx⟩

theorem leaves_record (hr : r.IsRecord) (hkey : r.Keyed) :
    (r.perform v).run.Keeps (.alone Store.Proper t)
      (fun result s' => Leaves v s (acknowledged result) s' (r.item? v t result)) s := by
  cases r with
  | record q new =>
    obtain ⟨key, hk⟩ := Option.isSome_iff_exists.mp hkey
    refine Attempt.keeps_bind.mpr (Attempt.keeps_bind.mpr (Attempt.keeps_lift.mpr ?_))
    rintro t rfl
    refine (View.recordAt_recorded hk).mono ?_
    rintro (e | key) s' hx <;> simp only [item?, hk] <;> exact ⟨View.places_itemOf, hx⟩
  | recordAt q new moment =>
    obtain ⟨key, hk⟩ := Option.isSome_iff_exists.mp hkey
    refine Attempt.keeps_bind.mpr ((View.recordAt_recorded hk).mono ?_)
    rintro (e | key) s' hx <;> simp only [item?, hk] <;> exact ⟨View.places_itemOf, hx⟩
  | enqueue q new =>
    obtain ⟨key, hk⟩ := Option.isSome_iff_exists.mp hkey
    refine Attempt.keeps_bind.mpr ?_
    rw [View.enqueue_keyed hk]
    rintro t rfl
    refine Attempt.keeps_bind.mpr ?_
    rintro (e | receipt)
    · exact rfl
    · exact (recordSent_leaves hk).mono fun result s' h => by rcases result with e | e <;> exact h
  | _ => exact hr.elim

theorem leaves_upkeep (hr : ¬r.IsRecord) :
    (r.perform v).run.Keeps (.alone (fun s' => s'.Proper ∧ s'.items = s.items) t)
      (fun _ _ => True) s := by
  have hown {c : StoreCall} {s₁ : Store} (hc : ∀ x, c ≠ .appendItem x)
      (h : s₁.Proper ∧ s₁.items = s.items) :
      (s₁.perform c).2.Proper ∧ (s₁.perform c).2.items = s.items :=
    ⟨(s₁.grows_perform c).proper h.1, (Store.items_perform hc).trans h.2⟩
  refine keeps_upkeep (fun q => ⟨Contract.alone_allowsReads fun _ h => h.1, ?_, ?_, ?_⟩) hr
  · exact fun _ => hown fun _ h => nomatch h
  · exact hown fun _ h => nomatch h
  · intro s₁
    refine View.maintain_calls.keeps ?_
    rintro c s₂ hc - h
    refine hown (fun x hx => ?_) h
    subst hx
    rcases hc with hc | ⟨_, _, hc, -⟩
    · exact hc
    · cases hc

theorem item?_eq_none (hr : ¬r.IsRecord) : r.item? v t result = none := by
  cases r <;> first | rfl | exact absurd trivial hr

end Request

namespace Installation

variable {w : Installation} {s s' : Store} {calls calls' : List StoreCall}

theorem Stores.eq (h : w.Stores s calls) (h' : w.Stores s' calls') : s = s' ∧ calls = calls' := by
  have he : Backing.memory ⟨s, [], calls⟩ = .memory ⟨s', [], calls'⟩ := h.symm.trans h'
  cases he
  exact ⟨rfl, rfl⟩

theorem run_request {v : View} {r : Request} (hw : w.Stores s calls) (hs : s.Proper) (hr : r.Keyed)
    (hw' : (w.run seat (r.perform v).run).2.Stores s' calls') :
    Request.Leaves v s (Request.acknowledged (w.run seat (r.perform v).run).1) s'
      (r.item? v (w.now seat.clock) (w.run seat (r.perform v).run).1) := by
  by_cases hrec : r.IsRecord
  · obtain ⟨new, hs', -, -, hleaves⟩ :=
      run_keeps seat hw hs (Request.leaves_record hrec hr)
    obtain ⟨rfl, -⟩ := hs'.eq hw'
    exact hleaves
  · obtain ⟨new, hs', -, ⟨-, hitems⟩, -⟩ :=
      run_keeps seat hw ⟨hs, rfl⟩ (Request.leaves_upkeep (v := v) hrec)
    obtain ⟨rfl, -⟩ := hs'.eq hw'
    rw [Request.item?_eq_none hrec]
    exact hitems

end Installation

end SpoolIndex
