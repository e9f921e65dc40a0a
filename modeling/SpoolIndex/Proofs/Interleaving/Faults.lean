import SpoolIndex.Proofs.Interleaving.Steps
import SpoolIndex.Proofs.Operation.Paths

/-!
# Store calls that fail

Tasks share a store as before, but any of its calls may fail, with any error and
without effect. `Scene.Performs` tells that a task carries out some operation in
the course of a run and what it gets for it; an operation that is a sequence is
carried out member by member (`Scene.Performs.of_bind`).
-/

namespace SpoolIndex

/-- What becomes of the store when an action gets a reply, if store calls may fail. -/
inductive Store.Tries (s : Store) : (action : Action) → action.Reply → Store → Prop
  | answers {action : Action} {reply : action.Reply} {s' : Store} (h : s.Answers action reply s') :
    Tries s action reply s'
  | fails (c : StoreCall) (e : Error) : Tries s (.store c) (.error e) s

theorem Store.Tries.grows {s s' : Store} {action : Action} {reply : action.Reply}
    (h : s.Tries action reply s') : s.Grows s' := by
  cases h with
  | answers h =>
    cases h with
    | store c => exact Store.grows_perform s c
    | other => exact .refl s
  | fails => exact .refl s

namespace Scene

def exchanges [DecidableEq ι] (i : ι) (trace : List (Event ι)) : List Exchange :=
  trace.filterMap fun e => if e.task = i then some ⟨e.action, e.reply⟩ else none

variable [DecidableEq ι]

theorem exchanges_own {e : Event ι} (trace : List (Event ι)) (h : e.task = i) :
    exchanges i (e :: trace) = ⟨e.action, e.reply⟩ :: exchanges i trace := by
  simp [exchanges, h]

theorem exchanges_other {e : Event ι} (trace : List (Event ι)) (h : e.task ≠ i) :
    exchanges i (e :: trace) = exchanges i trace := by
  simp [exchanges, h]

theorem mem_exchanges {x : Exchange} {trace : List (Event ι)} :
    x ∈ exchanges i trace ↔ ⟨i, x.action, x.reply⟩ ∈ trace := by
  simp only [exchanges, List.mem_filterMap]
  constructor
  · rintro ⟨⟨j, action, reply⟩, he, hx⟩
    split at hx
    · rename_i hj
      cases hx
      cases hj
      exact he
    · cases hx
  · exact fun he => ⟨_, he, if_pos rfl⟩

inductive FaultyStep (c : Scene ι) : Event ι → Scene ι → Prop
  | act {i : ι} {action : Action} {next} {reply : action.Reply} {s : Store}
    (h : c.rest i = .act action next) (ht : c.store.Tries action reply s) :
    FaultyStep c ⟨i, action, reply⟩ ⟨s, withValue c.rest i (next reply)⟩

inductive FaultySteps : Scene ι → List (Event ι) → Scene ι → Prop
  | refl (c : Scene ι) : FaultySteps c [] c
  | step {c c' c'' : Scene ι} {e : Event ι} {trace : List (Event ι)} (h : c.FaultyStep e c')
    (hs : FaultySteps c' trace c'') : FaultySteps c (e :: trace) c''

section
variable {c c' : Scene ι} {e : Event ι} {before after trace : List (Event ι)}

theorem FaultyStep.tries (h : c.FaultyStep e c') : c.store.Tries e.action e.reply c'.store := by
  obtain ⟨-, ht⟩ := h
  exact ht

theorem FaultyStep.rest_other (h : c.FaultyStep e c') (hi : i ≠ e.task) :
    c'.rest i = c.rest i := by
  obtain ⟨-, -⟩ := h
  exact withValue_other _ _ hi

theorem FaultyStep.rest_own (h : c.FaultyStep e c') :
    ∃ next, c.rest e.task = .act e.action next ∧ c'.rest e.task = next e.reply := by
  obtain ⟨hrest, -⟩ := h
  exact ⟨_, hrest, withValue_same _ _ _⟩

theorem FaultySteps.store_grows (h : FaultySteps c trace c') : c.store.Grows c'.store := by
  induction h with
  | refl c => exact .refl c.store
  | step h hs ih => exact h.tries.grows.trans ih

theorem FaultySteps.trans (h : FaultySteps c trace c') (h' : FaultySteps c' trace' c'') :
    FaultySteps c (trace ++ trace') c'' := by
  induction h with
  | refl c => exact h'
  | step h hs ih => exact .step h (ih h')

theorem FaultySteps.split (h : FaultySteps c (before ++ after) c') :
    ∃ c₁, FaultySteps c before c₁ ∧ FaultySteps c₁ after c' := by
  induction before generalizing c with
  | nil => exact ⟨c, .refl c, h⟩
  | cons e before ih =>
    cases h with
    | step h hs =>
      obtain ⟨c₁, hb, ha⟩ := ih hs
      exact ⟨c₁, .step h hb, ha⟩

theorem FaultySteps.split_at (h : FaultySteps c (before ++ e :: after) c') :
    ∃ c₁ c₂, FaultySteps c before c₁ ∧ c₁.FaultyStep e c₂ ∧ FaultySteps c₂ after c' := by
  obtain ⟨c₁, hb, h⟩ := h.split
  cases h with
  | step h hs => exact ⟨c₁, _, hb, h, hs⟩

theorem FaultySteps.rest_after (h : FaultySteps c trace c') {op : Operation α}
    {f : α → Operation (Except Error Response)} (hrest : c.rest i = op >>= f)
    (he : op.Ends (exchanges i trace) value) : c'.rest i = f value := by
  induction h generalizing op with
  | refl c =>
    cases he
    exact hrest
  | @step c c' c'' e trace h hs ih =>
    by_cases hi : e.task = i
    · obtain ⟨next, hact, hnext⟩ := h.rest_own
      rw [exchanges_own trace hi] at he
      cases he with
      | act he =>
        rw [hi, hrest] at hact
        cases hact
        exact ih (hi ▸ hnext) he
    · rw [exchanges_other trace hi] at he
      exact ih ((h.rest_other (Ne.symm hi)).trans hrest) he

end

/-- In a run from one scene to another, a task carries out an operation and gets a value for it. -/
structure Performs (i : ι) (op : Operation α) (c : Scene ι) (trace : List (Event ι)) (c' : Scene ι)
    (value : α) : Prop where
  steps : FaultySteps c trace c'
  rest : ∃ f, c.rest i = op >>= f
  ends : op.Ends (exchanges i trace) value

namespace Performs

section
variable {c c' : Scene ι} {trace : List (Event ι)}

theorem of_bind {op : Operation α} {f : α → Operation β}
    (h : Performs i (op >>= f) c trace c' value) : ∃ before after c₁ middle,
      trace = before ++ after ∧ Performs i op c before c₁ middle ∧
        Performs i (f middle) c₁ after c' value := by
  obtain ⟨hs, ⟨g, hrest⟩, he⟩ := h
  obtain ⟨before, after, middle, hpath, hop, hf⟩ := he.of_bind
  obtain ⟨first, second, rfl, rfl, rfl⟩ := List.filterMap_eq_append_iff.mp hpath
  obtain ⟨c₁, hb, ha⟩ := hs.split
  rw [bind_assoc] at hrest
  have hnext := hb.rest_after hrest hop
  exact ⟨first, second, c₁, middle, rfl, ⟨hb, ⟨_, hrest⟩, hop⟩, ha, ⟨g, hnext⟩, hf⟩

theorem of_attempt_bind {x : Attempt α} {f : α → Attempt β}
    (h : Performs i (x >>= f).run c trace c' (.ok value)) : ∃ before after c₁ middle,
      trace = before ++ after ∧ Performs i x.run c before c₁ (.ok middle) ∧
        Performs i (f middle).run c₁ after c' (.ok value) := by
  rw [ExceptT.run_bind] at h
  obtain ⟨before, after, c₁, e | middle, rfl, hx, hf⟩ := h.of_bind
  · exact nomatch hf.ends.of_done.2
  · exact ⟨before, after, c₁, middle, rfl, hx, hf⟩

theorem of_perform {action : Action} {reply : action.Reply}
    (h : Performs i (.perform action) c trace c' reply) : ∃ before after c₁ c₂,
      trace = before ++ ⟨i, action, reply⟩ :: after ∧ FaultySteps c before c₁ ∧
        c₁.FaultyStep ⟨i, action, reply⟩ c₂ ∧ FaultySteps c₂ after c' ∧
        exchanges i before = [] ∧ exchanges i after = [] := by
  obtain ⟨before, ⟨j, action', reply'⟩, after, rfl, hb, he, ha⟩ :=
    List.filterMap_eq_cons_iff.mp h.ends.of_perform
  split at he
  · rename_i hj
    cases he
    cases hj
    obtain ⟨c₁, c₂, hbefore, hstep, hafter⟩ := h.steps.split_at
    exact ⟨before, after, c₁, c₂, rfl, hbefore, hstep, hafter, List.filterMap_eq_nil_iff.mpr hb, ha⟩
  · cases he

end

end Performs

-- ---------------------------------------------------------------------------
-- Schedules with faults
-- ---------------------------------------------------------------------------

def playFaulty (t : Instant) : List (ι × Option Error) → Scene ι → List (Event ι) × Scene ι
  | [], c => ([], c)
  | (i, fault) :: schedule, c =>
    match c.rest i, fault with
    | .done _, _ => playFaulty t schedule c
    | .act (.store call) next, some e =>
      let (trace, c) := playFaulty t schedule ⟨c.store, withValue c.rest i (next (.error e))⟩
      (⟨i, .store call, .error e⟩ :: trace, c)
    | .act action next, _ =>
      let (reply, s) := c.store.answer t action
      let (trace, c) := playFaulty t schedule ⟨s, withValue c.rest i (next reply)⟩
      (⟨i, action, reply⟩ :: trace, c)

theorem playFaulty_steps (t : Instant) (schedule : List (ι × Option Error)) (c : Scene ι) :
    c.FaultySteps (c.playFaulty t schedule).1 (c.playFaulty t schedule).2 := by
  induction schedule generalizing c with
  | nil => exact .refl c
  | cons turn schedule ih =>
    unfold playFaulty
    split
    · exact ih c
    · rename_i hrest _
      exact .step (.act hrest (.fails _ _)) (ih _)
    · rename_i hrest _
      exact .step (.act hrest (.answers (Store.answers_answer _ _ _))) (ih _)

end Scene

end SpoolIndex
