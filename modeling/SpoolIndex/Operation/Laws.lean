import SpoolIndex.Operation

/-!
# Laws of operations

Operations form a monad, and running one operation after another is running their sequence.
-/

namespace SpoolIndex.Operation

@[simp]
theorem done_bind (value : α) (f : α → Operation β) : (done value).bind f = f value := rfl

@[simp]
theorem act_bind (action : Action) (next : action.Reply → Operation α) (f : α → Operation β) :
    (act action next).bind f = act action fun reply => (next reply).bind f := rfl

theorem bind_done (op : Operation α) : op.bind done = op := by
  induction op with
  | done value => rfl
  | act action next ih => simp [ih]

theorem bind_assoc (op : Operation α) (f : α → Operation β) (g : β → Operation γ) :
    (op.bind f).bind g = op.bind fun value => (f value).bind g := by
  induction op with
  | done value => rfl
  | act action next ih => simp [ih]

instance : LawfulMonad Operation :=
  LawfulMonad.mk' Operation bind_done (fun _ _ => rfl) bind_assoc

variable (answer : (action : Action) → σ → action.Reply × σ)

@[simp]
theorem run_done (value : α) (s : σ) : (done value).run answer s = (value, s) := rfl

@[simp]
theorem run_act (action : Action) (next : action.Reply → Operation α) (s : σ) :
    (act action next).run answer s =
      (next (answer action s).1).run answer (answer action s).2 := rfl

theorem run_bind (op : Operation α) (f : α → Operation β) (s : σ) :
    (op.bind f).run answer s =
      (f (op.run answer s).1).run answer (op.run answer s).2 := by
  induction op generalizing s with
  | done value => rfl
  | act action next ih => simp [ih]

end SpoolIndex.Operation
