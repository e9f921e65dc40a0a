import SpoolIndex.Proofs.View.Request

/-!
# Requests that interleave

Any number of requests share one store. A step lets one of them take its next
action: a store call is answered by the store at hand, and all other actions,
the clock among them, are answered in whatever way. `Scene.Step.keeps` is what
a contract is good for here: a task that is to keep to one does so at its next
step, if that step meets what the contract lets the task count on.
-/

namespace SpoolIndex

inductive Store.Answers (s : Store) : (action : Action) → action.Reply → Store → Prop
  | store (c : StoreCall) : Answers s (.store c) (s.perform c).1 (s.perform c).2
  | other {action : Action} (h : ∀ c, action ≠ .store c) (reply : action.Reply) :
    Answers s action reply s

structure Event (ι : Type) where
  task : ι
  action : Action
  reply : action.Reply

/-- A store, and what each task still has to do. -/
structure Scene (ι : Type) where
  store : Store
  rest : ι → Operation (Except Error Response)

def Event.Meets (k : Contract) (s : Store) : Event ι → Prop
  | ⟨_, .store c, _⟩ => k.found c s
  | ⟨_, .now, t⟩ => k.clock t
  | _ => True

theorem Store.Answers.store_eq {reply : Except Error c.Reply}
    (h : Store.Answers s (.store c) reply s') :
    reply = (s.perform c).1 ∧ s' = (s.perform c).2 := by
  cases h with
  | store => exact ⟨rfl, rfl⟩
  | other hne => exact absurd rfl (hne c)

theorem Store.Answers.keeps {k : Contract} {action : Action} {next : action.Reply → Operation α}
    {reply : action.Reply} {post : α → Store → Prop} {s met s' : Store}
    (ha : met.Answers action reply s') (hk : ∀ s s', s.Grows s' → k.others s s')
    (h : (Operation.act action next).Keeps k post s) (hg : s.Grows met)
    (he : Event.Meets k met ⟨i, action, reply⟩) :
    (∃ s₁, (next reply).Keeps k post s₁ ∧ s₁.Grows s') ∧
      ∀ call, action = .store call → k.own call met := by
  cases ha with
  | store call =>
    obtain ⟨hown, hnext⟩ := h met (hk _ _ hg) he
    refine ⟨⟨_, hnext, .refl _⟩, fun call' hc => ?_⟩
    cases hc
    exact hown
  | other hne =>
    refine ⟨⟨s, ?_, hg⟩, fun call hc => absurd hc (hne call)⟩
    cases action with
    | store call => exact absurd rfl (hne call)
    | now => exact h reply he
    | _ => exact h reply

namespace Scene

def opening (s : Store) (views : ι → View) (requests : ι → Request) : Scene ι :=
  ⟨s, fun i => ((requests i).perform (views i)).run⟩

variable [DecidableEq ι]

/-- One task takes its next action. -/
inductive Step (c : Scene ι) : Event ι → Scene ι → Prop
  | act {i : ι} {action : Action} {next} {reply : action.Reply} {s : Store}
    (h : c.rest i = .act action next) (ha : c.store.Answers action reply s) :
    Step c ⟨i, action, reply⟩ ⟨s, withValue c.rest i (next reply)⟩

inductive Steps : Scene ι → List (Event ι) → Scene ι → Prop
  | refl (c : Scene ι) : Steps c [] c
  | step {c c' c'' : Scene ι} {e : Event ι} {trace : List (Event ι)} (h : c.Step e c')
    (hs : Steps c' trace c'') : Steps c (e :: trace) c''

/-- From some earlier store on, which has only grown since, the task keeps to a contract. -/
def Keeps (c : Scene ι) (i : ι) (k : Contract) (post : Except Error Response → Store → Prop) :
    Prop :=
  ∃ s, (c.rest i).Keeps k post s ∧ s.Grows c.store

theorem Step.store_grows {c c' : Scene ι} (h : c.Step e c') : c.store.Grows c'.store := by
  obtain ⟨-, ha⟩ := h
  cases ha with
  | store call => exact Store.grows_perform c.store call
  | other => exact .refl c.store

theorem Step.rest_other {c c' : Scene ι} (h : c.Step e c') (hi : i ≠ e.task) :
    c'.rest i = c.rest i := by
  obtain ⟨-, -⟩ := h
  exact withValue_other _ _ hi

theorem Step.rest_own {c c' : Scene ι} (h : c.Step e c') :
    ∃ next, c.rest e.task = .act e.action next ∧ c'.rest e.task = next e.reply := by
  obtain ⟨hrest, -⟩ := h
  exact ⟨_, hrest, withValue_same _ _ _⟩

theorem Step.answers {c c' : Scene ι} (h : c.Step e c') :
    c.store.Answers e.action e.reply c'.store := by
  obtain ⟨-, ha⟩ := h
  exact ha

theorem Steps.store_grows {c c' : Scene ι} (h : Steps c trace c') : c.store.Grows c'.store := by
  induction h with
  | refl c => exact .refl c.store
  | step h hs ih => exact h.store_grows.trans ih

/-- What each step keeps, all of them keep. -/
theorem Steps.invariant {c c' : Scene ι} (I : Scene ι → Prop) (h : Steps c trace c')
    (hstep : ∀ c₁ e c₂, e ∈ trace → c₁.Step e c₂ → c₂.store.Grows c'.store → I c₁ → I c₂)
    (hc : I c) : I c' := by
  induction h with
  | refl c => exact hc
  | step h hs ih =>
    refine ih (fun c₁ e c₂ he => hstep c₁ e c₂ (List.mem_cons_of_mem _ he)) ?_
    exact hstep _ _ _ List.mem_cons_self h hs.store_grows hc

theorem Steps.rest_idle {c c' : Scene ι} (h : Steps c trace c') (hi : ∀ e ∈ trace, e.task ≠ i) :
    c'.rest i = c.rest i := by
  induction h with
  | refl c => rfl
  | step h hs ih =>
    rw [ih fun e he => hi e (List.mem_cons_of_mem _ he)]
    exact h.rest_other (hi _ List.mem_cons_self).symm

theorem Steps.trans {c c' c'' : Scene ι} (h : Steps c trace c') (h' : Steps c' trace' c'') :
    Steps c (trace ++ trace') c'' := by
  induction h with
  | refl c => exact h'
  | step h hs ih => exact .step h (ih h')

theorem Steps.single {c c' : Scene ι} (h : Steps c [e] c') : c.Step e c' := by
  cases h with
  | step h hs =>
    cases hs
    exact h

theorem Steps.split_append {c c' : Scene ι} (h : Steps c (before ++ after) c') :
    ∃ c₁, Steps c before c₁ ∧ Steps c₁ after c' := by
  induction before generalizing c with
  | nil => exact ⟨c, .refl c, h⟩
  | cons e before ih =>
    cases h with
    | step h hs =>
      obtain ⟨c₁, hb, ha⟩ := ih hs
      exact ⟨c₁, .step h hb, ha⟩

theorem Steps.split {c c' : Scene ι} (h : Steps c (before ++ e :: after) c') :
    ∃ c₁ c₂, Steps c before c₁ ∧ c₁.Step e c₂ ∧ Steps c₂ after c' := by
  obtain ⟨c₁, hb, h⟩ := h.split_append
  cases h with
  | step h hs => exact ⟨c₁, _, hb, h, hs⟩

theorem Steps.exists_step {c c' : Scene ι} {P : Scene ι → Prop} (h : Steps c trace c') (hc : P c)
    (hc' : ¬P c') : ∃ before e after c₁ c₂, trace = before ++ e :: after ∧ Steps c before c₁ ∧
      c₁.Step e c₂ ∧ Steps c₂ after c' ∧ P c₁ ∧ ¬P c₂ := by
  induction h with
  | refl c => exact absurd hc hc'
  | @step c₁ c₂ c' e trace h hs ih =>
    by_cases hc₂ : P c₂
    · obtain ⟨before, e', after, c₃, c₄, rfl, hb, hr⟩ := ih hc₂ hc'
      exact ⟨e :: before, e', after, c₃, c₄, rfl, .step h hb, hr⟩
    · exact ⟨[], e, trace, c₁, c₂, rfl, .refl c₁, h, hs, hc, hc₂⟩

theorem Step.keeps {c c' : Scene ι} (hk : ∀ s s', s.Grows s' → k.others s s')
    (h : c.Keeps i k post) (hs : c.Step e c') (he : e.task = i → e.Meets k c.store) :
    c'.Keeps i k post ∧ ∀ call, e.task = i → e.action = .store call → k.own call c.store := by
  obtain ⟨s, hkeeps, hg⟩ := h
  by_cases hi : i = e.task
  · subst hi
    obtain ⟨next, hrest, hnext⟩ := hs.rest_own
    rw [hrest] at hkeeps
    obtain ⟨⟨s', hkeeps, hg⟩, hown⟩ := hs.answers.keeps hk hkeeps hg (he rfl)
    exact ⟨⟨s', by rw [hnext]; exact hkeeps, hg⟩, fun call _ => hown call⟩
  · refine ⟨⟨s, by rw [hs.rest_other hi]; exact hkeeps, hg.trans hs.store_grows⟩, ?_⟩
    exact fun _ ht => absurd ht.symm hi

-- ---------------------------------------------------------------------------
-- Schedules
-- ---------------------------------------------------------------------------

end Scene

def Store.answer (s : Store) (t : Instant) : (action : Action) → action.Reply × Store
  | .store c => s.perform c
  | .now => (t, s)
  | .mint _ => (default, s)
  | .createQueue _ => (.ok (), s)
  | .send _ => (.ok default, s)
  | .fetch _ => (.ok [], s)
  | .countDelete => (1, s)
  | .sleep _ | .report _ => ((), s)

theorem Store.answers_answer (s : Store) (t : Instant) (action : Action) :
    s.Answers action (s.answer t action).1 (s.answer t action).2 := by
  cases action with
  | store c => exact .store c
  | _ => exact .other (fun _ h => Action.noConfusion h) _

namespace Scene

variable [DecidableEq ι]

/-- The tasks of a schedule take their turns; who is done passes. -/
def play (t : Instant) : List ι → Scene ι → List (Event ι) × Scene ι
  | [], c => ([], c)
  | i :: schedule, c =>
    match c.rest i with
    | .done _ => play t schedule c
    | .act action next =>
      let (reply, s) := c.store.answer t action
      let (trace, c) := play t schedule ⟨s, withValue c.rest i (next reply)⟩
      (⟨i, action, reply⟩ :: trace, c)

theorem play_steps (t : Instant) (schedule : List ι) (c : Scene ι) :
    c.Steps (c.play t schedule).1 (c.play t schedule).2 := by
  induction schedule generalizing c with
  | nil => exact .refl c
  | cons i schedule ih =>
    unfold play
    split
    · exact ih c
    · rename_i action next hrest
      exact .step (.act hrest (Store.answers_answer _ _ _)) (ih _)

theorem play_now {t t' : Instant} {schedule : List ι} {c : Scene ι}
    (h : ⟨m, .now, t'⟩ ∈ (c.play t schedule).1) : t' = t := by
  induction schedule generalizing c with
  | nil => cases h
  | cons i schedule ih =>
    unfold play at h
    split at h
    · exact ih h
    · rename_i action next hrest
      rcases List.mem_cons.mp h with h | h
      · cases h
        rfl
      · exact ih h

end Scene

end SpoolIndex
