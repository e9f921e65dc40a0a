import SpoolIndex.Proofs.Operation.Paths

/-!
# Operations on one queue

An operation is confined to a queue if it calls the store about no other, as long
as scans give rows of the partition they ask for (`Operation.Confined`). Besides
that it only reads the clock and reports. Two runs of such an operation cannot
differ if the stores agree on its queue, and they leave all other queues alone.
-/

namespace SpoolIndex

def StoreCall.Fits : (c : StoreCall) → Except Error c.Reply → Prop
  | scanItems p _ _, .ok page => ∀ x ∈ page.rows, x.queue = p.queue
  | _, _ => True

def Action.Concerns (q : QueueName) : Action → Prop
  | store c => c.queue = q
  | now | report _ => True
  | _ => False

def Exchange.Fits : Exchange → Prop
  | ⟨.store c, reply⟩ => c.Fits reply
  | _ => True

namespace Operation

/-- All store calls are about the queue, and what the operation ends with satisfies `post`. -/
def Confined (q : QueueName) (post : α → Prop) : Operation α → Prop
  | .done value => post value
  | .act (.store c) next => c.queue = q ∧ ∀ reply, c.Fits reply → (next reply).Confined q post
  | .act .now next => ∀ t, (next t).Confined q post
  | .act (.report _) next => (next ()).Confined q post
  | .act (.mint _) _ | .act (.createQueue _) _ | .act (.send _) _ | .act (.fetch _) _
  | .act .countDelete _ | .act (.sleep _) _ => False

variable {q : QueueName}

@[simp] theorem confined_pure {post : α → Prop} :
    (pure value : Operation α).Confined q post ↔ post value := Iff.rfl

theorem confined_bind {op : Operation α} {f : α → Operation β} {post : β → Prop} :
    (op >>= f).Confined q post ↔ op.Confined q fun value => (f value).Confined q post := by
  induction op with
  | done value => rfl
  | act action next ih =>
    cases action with
    | store c =>
      exact and_congr_right fun _ => forall_congr' fun reply => imp_congr_right fun _ => ih reply
    | now => exact forall_congr' fun t => ih t
    | report r => exact ih ()
    | _ => exact Iff.rfl

theorem Confined.mono {op : Operation α} {post post' : α → Prop} (h : op.Confined q post)
    (hp : ∀ value, post value → post' value) : op.Confined q post' := by
  induction op with
  | done value => exact hp value h
  | act action next ih =>
    cases action with
    | store c => exact ⟨h.1, fun reply hr => ih _ (h.2 reply hr)⟩
    | now => exact fun t => ih t (h t)
    | report r => exact ih () h
    | _ => exact h

theorem Confined.bind {op : Operation α} {f : α → Operation β} {P : α → Prop} {Q : β → Prop}
    (h : op.Confined q P) (hf : ∀ value, P value → (f value).Confined q Q) :
    (op >>= f).Confined q Q := confined_bind.mpr (h.mono hf)

@[simp] theorem confined_now {post : Instant → Prop} :
    now.Confined q post ↔ ∀ t, post t := Iff.rfl

@[simp] theorem confined_report {post : Unit → Prop} :
    (Operation.report r).Confined q post ↔ post () := Iff.rfl

@[simp] theorem confined_inSpan {op : Operation α} {post : α → Prop} :
    (inSpan span op).Confined q post ↔ op.Confined q post := by
  simp only [inSpan, confined_bind, confined_report, confined_pure]

-- ---------------------------------------------------------------------------
-- Paths
-- ---------------------------------------------------------------------------

theorem exists_ends_fitting (op : Operation α) :
    ∃ path value, op.Ends path value ∧ ∀ x ∈ path, x.Fits := by
  induction op with
  | done value => exact ⟨[], value, .done value, List.forall_mem_nil _⟩
  | act action next ih =>
    have hfits : ∃ reply, Exchange.Fits ⟨action, reply⟩ := by
      cases action with
      | store c => exact ⟨.error default, by cases c <;> trivial⟩
      | _ => exact ⟨default, trivial⟩
    obtain ⟨reply, hreply⟩ := hfits
    obtain ⟨path, value, he, hpath⟩ := ih reply
    exact ⟨_, value, .act he, List.forall_mem_cons.mpr ⟨hreply, hpath⟩⟩

theorem Confined.ends {op : Operation α} {post : α → Prop} (h : op.Confined q post)
    (he : op.Ends path value) (hf : ∀ x ∈ path, x.Fits) :
    post value ∧ ∀ x ∈ path, x.action.Concerns q := by
  induction he with
  | done value => exact ⟨h, List.forall_mem_nil _⟩
  | @act action next reply path value he ih =>
    obtain ⟨hreply, hpath⟩ := List.forall_mem_cons.mp hf
    cases action with
    | store c =>
      obtain ⟨hpost, hrest⟩ := ih (h.2 reply hreply) hpath
      exact ⟨hpost, List.forall_mem_cons.mpr ⟨h.1, hrest⟩⟩
    | now =>
      obtain ⟨hpost, hrest⟩ := ih (h reply) hpath
      exact ⟨hpost, List.forall_mem_cons.mpr ⟨trivial, hrest⟩⟩
    | report r =>
      obtain ⟨hpost, hrest⟩ := ih h hpath
      exact ⟨hpost, List.forall_mem_cons.mpr ⟨trivial, hrest⟩⟩
    | _ => exact h.elim

theorem confined_of_ends {op : Operation α} (h : ∀ path value, op.Ends path value →
    (∀ x ∈ path, x.Fits) → ∀ x ∈ path, x.action.Concerns q) : op.Confined q fun _ => True := by
  induction op with
  | done value => trivial
  | act action next ih =>
    have hnext {reply : action.Reply} (hr : Exchange.Fits ⟨action, reply⟩) :
        (next reply).Confined q fun _ => True := ih reply fun path value he hf x hx =>
      h _ value (.act he) (List.forall_mem_cons.mpr ⟨hr, hf⟩) x (List.mem_cons_of_mem _ hx)
    obtain ⟨_, value, he, hf⟩ := (act action next).exists_ends_fitting
    cases he with
    | act he =>
      have hfirst := h _ value (.act he) hf _ List.mem_cons_self
      cases action with
      | store c => exact ⟨hfirst, fun reply hr => hnext hr⟩
      | now => exact fun t => hnext trivial
      | report r => exact hnext trivial
      | _ => exact hfirst.elim

theorem Takes.confined {op : Operation α} (h : op.Takes (Action.Concerns q)) :
    op.Confined q fun _ => True :=
  confined_of_ends fun _ _ he _ => h.ends he

theorem Reports.confined {op : Operation α} (h : op.Reports) : op.Confined q fun _ => True :=
  Takes.confined (h.takes fun _ => trivial)

end Operation

namespace Attempt

open Operation

variable {q : QueueName}

def Confined (q : QueueName) (P : α → Prop) (x : Attempt α) : Prop :=
  x.run.Confined q fun result => ∀ value, result = .ok value → P value

theorem confined_pure {P : α → Prop} (h : P value) : (pure value : Attempt α).Confined q P := by
  intro value' hv
  cases hv
  exact h

theorem confined_throw {P : α → Prop} : (throw e : Attempt α).Confined q P := fun _ hv => nomatch hv

theorem Confined.bind {x : Attempt α} {f : α → Attempt β} {P : α → Prop} {Q : β → Prop}
    (h : x.Confined q P) (hf : ∀ value, P value → (f value).Confined q Q) :
    (x >>= f).Confined q Q := by
  rw [Confined, ExceptT.run_bind]
  refine Operation.Confined.bind h ?_
  rintro (e | value) hv
  · exact fun _ he => nomatch he
  · exact hf value (hv value rfl)

theorem confined_call {P : c.Reply → Prop} (hc : c.queue = q)
    (hp : ∀ reply, c.Fits (.ok reply) → P reply) : (call c).Confined q P := by
  refine ⟨hc, fun reply hr value hv => hp value ?_⟩
  rw [← hv]
  exact hr

theorem confined_lift {op : Operation α} {P : α → Prop} (h : op.Confined q P) :
    (liftM op : Attempt α).Confined q P := by
  rw [Confined, ExceptT.run_liftM, ← bind_pure_comp]
  refine h.bind fun value hp value' hv => ?_
  cases hv
  exact hp

theorem confined_read (c : StoreCall) (hc : c.queue = q) : (call c).Confined q fun _ => True :=
  confined_call hc fun _ _ => trivial

theorem confined_now : (liftM Operation.now : Attempt Instant).Confined q fun _ => True :=
  confined_lift fun _ => trivial

theorem confined_report : (liftM (Operation.report r) : Attempt Unit).Confined q fun _ => True :=
  confined_lift trivial

theorem Confined.inSpan {x : Attempt α} {P : α → Prop} (h : x.Confined q P) :
    (Attempt.inSpan span x).Confined q P := Operation.confined_inSpan.mpr h

theorem Confined.outcome {x : Attempt α} {P : α → Prop} (h : x.Confined q P) :
    x.outcome.Confined q fun _ => True :=
  Operation.Confined.bind h fun _ _ _ _ => trivial

theorem Confined.mapError {x : Attempt α} {P : α → Prop} (h : x.Confined q P) :
    (x.mapError f).Confined q P := by
  refine Operation.Confined.bind h fun result hr value hv => ?_
  cases result with
  | error e => cases hv
  | ok value' =>
    cases hv
    exact hr value rfl

end Attempt

end SpoolIndex
