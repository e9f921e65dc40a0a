import SpoolIndex.Proofs.Operation.Contract

/-!
# Paths through operations

A path is what an operation does and is answered until it ends. The path of a
sequence is the paths of its members one after the other
(`Operation.Ends.of_bind`), and an attempt ends early where a part of it ends in an
error (`Attempt.ends_bind_cases`).
-/

namespace SpoolIndex

structure Exchange where
  action : Action
  reply : action.Reply

def Reporting (path : List Exchange) : Prop := ∀ x ∈ path, x.action.IsReport

theorem Reporting.of_report {P : Action → Prop} (h : Reporting path) (hP : ∀ r, P (.report r)) :
    ∀ x ∈ path, P x.action := by
  rintro ⟨action, reply⟩ hx
  have hreport := h _ hx
  cases action with
  | report r => exact hP r
  | _ => exact hreport.elim

namespace Operation

/-- With these exchanges, the operation ends in a value. -/
inductive Ends : Operation α → List Exchange → α → Prop
  | done (value : α) : Ends (.done value) [] value
  | act {action : Action} {next : action.Reply → Operation α} {reply : action.Reply}
    {path : List Exchange} {value : α} (h : Ends (next reply) path value) :
    Ends (.act action next) (⟨action, reply⟩ :: path) value

theorem Ends.of_bind {op : Operation α} {f : α → Operation β} (h : (op >>= f).Ends path value) :
    ∃ before after middle, path = before ++ after ∧ op.Ends before middle ∧
      (f middle).Ends after value := by
  induction op generalizing path with
  | done middle => exact ⟨[], path, middle, rfl, .done middle, h⟩
  | act action next ih =>
    cases h with
    | act h =>
      obtain ⟨before, after, middle, rfl, hop, hf⟩ := ih _ h
      exact ⟨_ :: before, after, middle, rfl, .act hop, hf⟩

theorem Ends.of_done {value value' : α} (h : (Operation.done value).Ends path value') :
    path = [] ∧ value' = value := by
  cases h
  exact ⟨rfl, rfl⟩

theorem Ends.of_perform {action : Action} {reply : action.Reply}
    (h : (perform action).Ends path reply) : path = [⟨action, reply⟩] := by
  cases h with
  | act h =>
    cases h
    rfl

theorem Takes.ends {P : Action → Prop} {op : Operation α} (h : op.Takes P)
    (he : op.Ends path value) : ∀ x ∈ path, P x.action := by
  induction he with
  | done value => exact fun _ hx => nomatch hx
  | act he ih =>
    intro x hx
    rcases List.mem_cons.mp hx with rfl | hx
    · exact h.1
    · exact ih (h.2 _) x hx

theorem exists_ends (op : Operation α) : ∃ path value, op.Ends path value := by
  induction op with
  | done value => exact ⟨[], value, .done value⟩
  | act action next ih =>
    obtain ⟨reply⟩ : Nonempty action.Reply := by cases action <;> exact ⟨default⟩
    obtain ⟨path, value, h⟩ := ih reply
    exact ⟨_, value, .act h⟩

/-- An operation takes what is on its paths. -/
theorem takes_of_ends {P : Action → Prop} {op : Operation α}
    (h : ∀ path value, op.Ends path value → ∀ x ∈ path, P x.action) : op.Takes P := by
  induction op with
  | done value => trivial
  | act action next ih =>
    refine ⟨?_, fun reply => ih reply fun path value he x hx => ?_⟩
    · obtain ⟨path, value, he⟩ := (act action next).exists_ends
      cases he with
      | act he' => exact h _ value (.act he') _ List.mem_cons_self
    · exact h _ value (.act he) x (List.mem_cons_of_mem _ hx)

theorem Calls.ends {P : StoreCall → Prop} {op : Operation α} (h : op.Calls P)
    (he : op.Ends path value) {c : StoreCall} {reply : Except Error c.Reply}
    (hx : ⟨.store c, reply⟩ ∈ path) : P c := Takes.ends h he _ hx

theorem Calls.keeps_ends {P : StoreCall → Prop} {k : Contract} {op : Operation α} (h : op.Calls P)
    (hP : ∀ c s, P c → k.found c s → k.own c s) :
    op.Keeps k (fun value _ => ∃ path, op.Ends path value) s := by
  induction op generalizing s with
  | done value => exact ⟨[], .done value⟩
  | act action next ih =>
    have hnext (reply : action.Reply) (s : Store) : (next reply).Keeps k
        (fun value _ => ∃ path, (act action next).Ends path value) s :=
      (ih reply (h.2 reply)).mono fun _ _ ⟨_, he⟩ => ⟨_, .act he⟩
    cases action with
    | store c => exact fun met _ hf => ⟨hP c met h.1 hf, hnext _ _⟩
    | now => exact fun t _ => hnext t s
    | _ => exact fun reply => hnext reply s

theorem Ends.of_inSpan {op : Operation α} (h : (inSpan span op).Ends path value) : ∃ middle,
    path = ⟨.report (.enter span), ()⟩ :: (middle ++ [⟨.report .leave, ()⟩]) ∧
      op.Ends middle value := by
  obtain ⟨_, _, _, rfl, henter, h⟩ := h.of_bind
  obtain ⟨middle, _, _, rfl, hop, h⟩ := h.of_bind
  obtain ⟨_, _, _, rfl, hleave, h⟩ := h.of_bind
  obtain ⟨rfl, rfl⟩ := h.of_done
  obtain rfl := henter.of_perform
  obtain rfl := hleave.of_perform
  exact ⟨middle, by simp, hop⟩

end Operation

namespace Attempt

open Operation

theorem ends_bind_cases {x : Attempt α} {f : α → Attempt β}
    (h : (x >>= f).run.Ends path result) :
    (∃ e, x.run.Ends path (.error e) ∧ result = .error e) ∨
      ∃ before after middle, path = before ++ after ∧ x.run.Ends before (.ok middle) ∧
        (f middle).run.Ends after result := by
  rw [ExceptT.run_bind] at h
  obtain ⟨before, after, e | middle, rfl, hx, hf⟩ := h.of_bind
  · obtain ⟨rfl, rfl⟩ := hf.of_done
    exact .inl ⟨e, by rwa [List.append_nil], rfl⟩
  · exact .inr ⟨before, after, middle, rfl, hx, hf⟩

theorem ends_bind {x : Attempt α} {f : α → Attempt β}
    (h : (x >>= f).run.Ends path (.ok value)) : ∃ before after middle, path = before ++ after ∧
      x.run.Ends before (.ok middle) ∧ (f middle).run.Ends after (.ok value) := by
  obtain ⟨_, -, he⟩ | h := ends_bind_cases h
  · cases he
  · exact h

theorem ends_lift {op : Operation α} {result : Except Error α}
    (h : (liftM op : Attempt α).run.Ends path result) :
    ∃ value, result = .ok value ∧ op.Ends path value := by
  rw [ExceptT.run_liftM, ← bind_pure_comp] at h
  obtain ⟨before, after, value, rfl, hop, hv⟩ := h.of_bind
  obtain ⟨rfl, rfl⟩ := hv.of_done
  exact ⟨value, rfl, by rwa [List.append_nil]⟩

theorem ends_lift_bind {op : Operation α} {f : α → Attempt β}
    (h : ((liftM op : Attempt α) >>= f).run.Ends path result) :
    ∃ before after value, path = before ++ after ∧ op.Ends before value ∧
      (f value).run.Ends after result := by
  obtain ⟨_, hop, -⟩ | ⟨before, after, _, rfl, hop, hf⟩ := ends_bind_cases h
  · obtain ⟨_, he, -⟩ := ends_lift hop
    cases he
  · obtain ⟨value, he, hop⟩ := ends_lift hop
    cases he
    exact ⟨before, after, _, rfl, hop, hf⟩

theorem ends_mapError {x : Attempt α} {f : Error → Error} {result : Except Error α}
    (h : (x.mapError f).run.Ends path result) :
    ∃ inner, result = inner.mapError f ∧ x.run.Ends path inner := by
  obtain ⟨before, after, inner, rfl, hx, hv⟩ := Operation.Ends.of_bind h
  obtain ⟨rfl, rfl⟩ := hv.of_done
  exact ⟨inner, rfl, by rwa [List.append_nil]⟩

theorem ends_outcome {x : Attempt α} {result : Except Error (Except Error α)}
    (h : x.outcome.run.Ends path result) : ∃ inner, result = .ok inner ∧ x.run.Ends path inner := by
  obtain ⟨before, after, inner, rfl, hx, hv⟩ := Operation.Ends.of_bind h
  obtain ⟨rfl, rfl⟩ := hv.of_done
  exact ⟨inner, rfl, by rwa [List.append_nil]⟩

theorem ends_outcome_bind {x : Attempt α} {f : Except Error α → Attempt β}
    (h : (x.outcome >>= f).run.Ends path result) :
    ∃ before after inner, path = before ++ after ∧ x.run.Ends before inner ∧
      (f inner).run.Ends after result := by
  obtain ⟨_, hx, -⟩ | ⟨before, after, _, rfl, hx, hf⟩ := ends_bind_cases h
  · obtain ⟨_, he, -⟩ := ends_outcome hx
    cases he
  · obtain ⟨inner, he, hx⟩ := ends_outcome hx
    cases he
    exact ⟨before, after, _, rfl, hx, hf⟩

end Attempt

end SpoolIndex
