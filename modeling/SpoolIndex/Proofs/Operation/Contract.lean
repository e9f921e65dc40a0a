import SpoolIndex.Operation.Laws
import SpoolIndex.Proofs.Store.Growth

/-!
# Operations among others

Between two calls of an operation the store belongs to everybody else. A
`Contract` says what an operation may count on there and what its own calls keep
to, and `Operation.Keeps` that it does, whatever its actions are answered. The
laws take a sequence apart into its members (`Operation.keeps_bind`), so each
function of a view has one lemma, and its callers use that.

`Operation.Calls` is the part that needs no store: which calls an operation can
make at all.
-/

namespace SpoolIndex

/-- What an operation may count on, and what it answers for. -/
structure Contract where
  /-- What others may do to the store between two calls of the operation. -/
  others : Store → Store → Prop
  /-- The store that a call may meet. -/
  found : StoreCall → Store → Prop
  clock : Instant → Prop
  /-- What holds of every call of the operation and the store that it meets. -/
  own : StoreCall → Store → Prop

/-- Others make the store grow, and a call meets a proper store. -/
structure Contract.Orderly (k : Contract) : Prop where
  grows : k.others s s' → s.Grows s'
  proper : k.found c s → s.Proper

namespace Operation

/-- From store `s`, the operation keeps to a contract, and its result and the store after its last
call satisfy `post`. -/
def Keeps (k : Contract) (post : α → Store → Prop) : Operation α → Store → Prop
  | .done value, s => post value s
  | .act (.store c) next, s => ∀ met, k.others s met → k.found c met →
      k.own c met ∧ Keeps k post (next (met.perform c).1) (met.perform c).2
  | .act .now next, s => ∀ t, k.clock t → Keeps k post (next t) s
  | .act (.mint _) next, s | .act (.createQueue _) next, s | .act (.send _) next, s
  | .act (.fetch _) next, s | .act .countDelete next, s | .act (.sleep _) next, s
  | .act (.report _) next, s => ∀ reply, Keeps k post (next reply) s

def Takes (P : Action → Prop) : Operation α → Prop
  | .done _ => True
  | .act action next => P action ∧ ∀ reply, (next reply).Takes P

end Operation

def Action.Allowed (P : StoreCall → Prop) : Action → Prop
  | store c => P c
  | _ => True

def Action.IsReport : Action → Prop
  | report _ => True
  | _ => False

namespace Operation

def Calls (P : StoreCall → Prop) (op : Operation α) : Prop := op.Takes (Action.Allowed P)

-- ---------------------------------------------------------------------------
-- Sequences
-- ---------------------------------------------------------------------------

section
variable {k : Contract} {s : Store}

@[simp] theorem keeps_pure {post : α → Store → Prop} :
    (pure value : Operation α).Keeps k post s ↔ post value s := Iff.rfl

theorem keeps_bind {op : Operation α} {f : α → Operation β} {post : β → Store → Prop} :
    (op >>= f).Keeps k post s ↔ op.Keeps k (fun value s => (f value).Keeps k post s) s := by
  induction op generalizing s with
  | done value => rfl
  | act action next ih =>
    cases action with
    | store c =>
      exact forall_congr' fun met => imp_congr_right fun _ => imp_congr_right fun _ =>
        and_congr_right fun _ => ih _
    | now => exact forall_congr' fun t => imp_congr_right fun _ => ih t
    | _ => exact forall_congr' fun reply => ih reply

theorem keeps_map {op : Operation α} {f : α → β} {post : β → Store → Prop} :
    (f <$> op).Keeps k post s ↔ op.Keeps k (fun value s => post (f value) s) s := by
  rw [← bind_pure_comp, keeps_bind]
  rfl

theorem Keeps.mono {op : Operation α} {post post' : α → Store → Prop} (h : op.Keeps k post s)
    (hp : ∀ value s, post value s → post' value s) : op.Keeps k post' s := by
  induction op generalizing s with
  | done value => exact hp value s h
  | act action next ih =>
    cases action with
    | store c => exact fun met ho hf => ⟨(h met ho hf).1, ih _ (h met ho hf).2⟩
    | now => exact fun t ht => ih t (h t ht)
    | _ => exact fun reply => ih reply (h reply)

theorem Keeps.and {op : Operation α} {post post' : α → Store → Prop} (h : op.Keeps k post s)
    (h' : op.Keeps k post' s) : op.Keeps k (fun value s => post value s ∧ post' value s) s := by
  induction op generalizing s with
  | done value => exact ⟨h, h'⟩
  | act action next ih =>
    cases action with
    | store c => exact fun met ho hf => ⟨(h met ho hf).1, ih _ (h met ho hf).2 (h' met ho hf).2⟩
    | now => exact fun t ht => ih t (h t ht) (h' t ht)
    | _ => exact fun reply => ih reply (h reply) (h' reply)

theorem Keeps.grows {op : Operation α} {post : α → Store → Prop} (hk : k.Orderly)
    (h : op.Keeps k post s) : op.Keeps k (fun value s' => post value s' ∧ s.Grows s') s := by
  induction op generalizing s with
  | done value => exact ⟨h, .refl s⟩
  | act action next ih =>
    cases action with
    | store c =>
      refine fun met ho hf => ⟨(h met ho hf).1, (ih _ (h met ho hf).2).mono ?_⟩
      rintro value s' ⟨hp, hg⟩
      exact ⟨hp, ((hk.grows ho).trans (Store.grows_perform met c)).trans hg⟩
    | now => exact fun t ht => ih t (h t ht)
    | _ => exact fun reply => ih reply (h reply)

theorem Calls.keeps {op : Operation α} (h : op.Calls P)
    (hP : ∀ c s, P c → k.found c s → k.own c s) : op.Keeps k (fun _ _ => True) s := by
  induction op generalizing s with
  | done value => trivial
  | act action next ih =>
    cases action with
    | store c => exact fun met _ hf => ⟨hP c met h.1 hf, ih _ (h.2 _)⟩
    | now => exact fun t _ => ih t (h.2 t)
    | _ => exact fun reply => ih reply (h.2 reply)

end

section
variable {P : Action → Prop}

theorem Takes.bind {op : Operation α} {f : α → Operation β} (h : op.Takes P)
    (hf : ∀ value, (f value).Takes P) : (op >>= f).Takes P := by
  induction op with
  | done value => exact hf value
  | act action next ih => exact ⟨h.1, fun reply => ih reply (h.2 reply)⟩

theorem Takes.map {op : Operation α} {f : α → β} (h : op.Takes P) : (f <$> op).Takes P := by
  rw [← bind_pure_comp]
  exact h.bind fun _ => trivial

theorem Takes.mono {op : Operation α} (h : op.Takes P) (hP : ∀ action, P action → Q action) :
    op.Takes Q := by
  induction op with
  | done value => trivial
  | act action next ih => exact ⟨hP action h.1, fun reply => ih reply (h.2 reply)⟩

theorem Calls.mono {P Q : StoreCall → Prop} {op : Operation α} (h : op.Calls P)
    (hP : ∀ c, P c → Q c) : op.Calls Q := by
  refine Takes.mono h fun action ha => ?_
  cases action with
  | store c => exact hP c ha
  | _ => trivial

end

-- ---------------------------------------------------------------------------
-- Single actions
-- ---------------------------------------------------------------------------

section
variable {k : Contract} {s : Store} {P : StoreCall → Prop}

@[simp] theorem keeps_report {post : Unit → Store → Prop} :
    (Operation.report r).Keeps k post s ↔ post () s := ⟨fun h => h (), fun h _ => h⟩

@[simp] theorem keeps_event {post : Unit → Store → Prop} :
    (event level message fields).Keeps k post s ↔ post () s := keeps_report

@[simp] theorem keeps_count {post : Unit → Store → Prop} :
    (count instrument labels).Keeps k post s ↔ post () s := keeps_report

@[simp] theorem keeps_now {post : Instant → Store → Prop} :
    now.Keeps k post s ↔ ∀ t, k.clock t → post t s := Iff.rfl

theorem keeps_inSpan {op : Operation α} {post : α → Store → Prop} :
    (inSpan span op).Keeps k post s ↔ op.Keeps k post s := by
  simp only [inSpan, keeps_bind, keeps_report, keeps_pure]

theorem calls_pure {value : α} : (pure value : Operation α).Calls P := trivial

theorem takes_perform {P : Action → Prop} (h : P action) : (perform action).Takes P :=
  ⟨h, fun _ => trivial⟩

theorem Takes.inSpan {P : Action → Prop} {op : Operation α} (h : op.Takes P)
    (hr : ∀ r, P (.report r)) : (Operation.inSpan span op).Takes P :=
  (takes_perform (hr _)).bind fun _ => h.bind fun _ => (takes_perform (hr _)).bind fun _ => trivial

@[simp] theorem calls_report : (Operation.report r).Calls P := takes_perform trivial

@[simp] theorem calls_event : (event level message fields).Calls P := calls_report

@[simp] theorem calls_count : (count instrument labels).Calls P := calls_report

@[simp] theorem calls_now : now.Calls P := takes_perform trivial

theorem Calls.inSpan {op : Operation α} (h : op.Calls P) : (Operation.inSpan span op).Calls P :=
  Takes.inSpan h fun _ => trivial

-- ---------------------------------------------------------------------------
-- Reports
-- ---------------------------------------------------------------------------

def Reports (op : Operation α) : Prop := op.Takes Action.IsReport

theorem reports_report (r : Report) : (Operation.report r).Reports := takes_perform trivial

theorem Reports.bind {op : Operation α} {f : α → Operation β} (h : op.Reports)
    (hf : ∀ value, (f value).Reports) : (op >>= f).Reports := Takes.bind h hf

theorem Reports.inSpan {op : Operation α} (h : op.Reports) : (Operation.inSpan span op).Reports :=
  Takes.inSpan h fun _ => trivial

theorem Reports.takes {Q : Action → Prop} {op : Operation α} (h : op.Reports)
    (hQ : ∀ r, Q (.report r)) : op.Takes Q := by
  refine h.mono fun action ha => ?_
  cases action with
  | report r => exact hQ r
  | _ => exact ha.elim

theorem Reports.calls {op : Operation α} (h : op.Reports) : op.Calls P := h.takes fun _ => trivial

theorem Reports.keeps {op : Operation α} {post : α → Store → Prop} (h : op.Reports)
    (hp : ∀ value, post value s) : op.Keeps k post s := by
  induction op with
  | done value => exact hp value
  | act action next ih =>
    cases action with
    | report r => exact fun _ => ih () (h.2 ())
    | _ => exact h.1.elim

end

end Operation

-- ---------------------------------------------------------------------------
-- Attempts
-- ---------------------------------------------------------------------------

namespace Attempt

section
variable {k : Contract} {s : Store}

open Operation

theorem keeps_bind {x : Attempt α} {f : α → Attempt β} {post : Except Error β → Store → Prop} :
    (x >>= f).run.Keeps k post s ↔
      x.run.Keeps k (fun
        | .ok value, s => (f value).run.Keeps k post s
        | .error e, s => post (.error e) s) s := by
  rw [ExceptT.run_bind, Operation.keeps_bind]
  refine ⟨fun h => h.mono ?_, fun h => h.mono ?_⟩ <;> rintro (e | value) s h <;> exact h

theorem keeps_call {post : Except Error c.Reply → Store → Prop} :
    (call c).run.Keeps k post s ↔ ∀ met, k.others s met → k.found c met →
      k.own c met ∧ post (met.perform c).1 (met.perform c).2 := Iff.rfl

theorem keeps_lift {op : Operation α} {post : Except Error α → Store → Prop} :
    (liftM op : Attempt α).run.Keeps k post s ↔
      op.Keeps k (fun value s => post (.ok value) s) s := by
  rw [ExceptT.run_liftM, Operation.keeps_map]

theorem keeps_inSpan {x : Attempt α} {post : Except Error α → Store → Prop} :
    (inSpan span x).run.Keeps k post s ↔ x.run.Keeps k post s := Operation.keeps_inSpan

theorem keeps_outcome {x : Attempt α} {post : Except Error (Except Error α) → Store → Prop} :
    x.outcome.run.Keeps k post s ↔ x.run.Keeps k (fun result s => post (.ok result) s) s := by
  rw [outcome, ExceptT.run_mk, Operation.keeps_bind]
  rfl

theorem keeps_mapError {x : Attempt α} {post : Except Error α → Store → Prop} :
    (x.mapError f).run.Keeps k post s ↔
      x.run.Keeps k (fun result s => post (result.mapError f) s) s := by
  rw [mapError, ExceptT.run_mk, Operation.keeps_bind]
  rfl

end

theorem takes_bind {P : Action → Prop} {x : Attempt α} {f : α → Attempt β} (h : x.run.Takes P)
    (hf : ∀ value, (f value).run.Takes P) : (x >>= f).run.Takes P := by
  rw [ExceptT.run_bind]
  refine h.bind ?_
  rintro (e | value)
  · trivial
  · exact hf value

theorem takes_lift {P : Action → Prop} {op : Operation α} (h : op.Takes P) :
    (liftM op : Attempt α).run.Takes P := by
  rw [ExceptT.run_liftM]
  exact h.map

section
variable {P : StoreCall → Prop}

theorem calls_bind {x : Attempt α} {f : α → Attempt β} (h : x.run.Calls P)
    (hf : ∀ value, (f value).run.Calls P) : (x >>= f).run.Calls P := takes_bind h hf

theorem calls_call (h : P c) : (call c).run.Calls P := ⟨h, fun _ => trivial⟩

theorem calls_lift {op : Operation α} (h : op.Calls P) : (liftM op : Attempt α).run.Calls P :=
  takes_lift h

theorem calls_inSpan {x : Attempt α} (h : x.run.Calls P) : (inSpan span x).run.Calls P := h.inSpan

theorem calls_mapError {x : Attempt α} (h : x.run.Calls P) : (x.mapError f).run.Calls P :=
  h.bind fun _ => trivial

end

end Attempt

end SpoolIndex
