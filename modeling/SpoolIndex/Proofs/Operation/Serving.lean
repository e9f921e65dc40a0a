import SpoolIndex.Proofs.Installation.Runs
import SpoolIndex.Proofs.Interleaving.Steps
import SpoolIndex.Proofs.Operation.Transcripts

/-!
# Stores that serve one operation

Whatever else answers the actions of an operation, a store that is a part of it, that
nobody else writes and that never fails, serves the operation as if it were alone
with the store (`Operation.Keeps.served`).
-/

namespace SpoolIndex

/-- The store is a part of what answers, nobody else writes it and it never fails. The clock stands
still at `t`. -/
structure Serves (answer : (action : Action) → σ → action.Reply × σ) (store : σ → Store)
    (t : Instant) : Prop where
  answers : ∀ action w, (store w).Answers action (answer action w).1 (store (answer action w).2)
  clock : ∀ w, (answer .now w).1 = t

theorem Store.Answers.of_other {s s' : Store} {action : Action} {reply : action.Reply}
    (h : s.Answers action reply s') (hne : ∀ c, action ≠ .store c) : s' = s := by
  cases h with
  | store c => exact absurd rfl (hne c)
  | other => rfl

theorem Store.serves_answer (t : Instant) :
    Serves (fun action s => Store.answer s t action) id t :=
  ⟨fun action s => s.answers_answer t action, fun _ => rfl⟩

theorem Serves.undergoes {answer : (action : Action) → σ → action.Reply × σ} {store : σ → Store}
    (hw : Serves answer store t) (op : Operation α) (w : σ) :
    (store w).Undergoes Store.Answers (op.transcript answer w) (store (op.run answer w).2) :=
  op.undergoes_transcript w hw.answers

theorem Operation.Keeps.served {answer : (action : Action) → σ → action.Reply × σ}
    {store : σ → Store} {I : Store → Prop} {op : Operation α} (hw : Serves answer store t)
    (hI : I (store w)) (h : op.Keeps (.alone I t) post (store w)) :
    post (op.run answer w).1 (store (op.run answer w).2) ∧ I (store (op.run answer w).2) := by
  induction op generalizing w with
  | done value => exact ⟨h, hI⟩
  | act action next ih =>
    rw [run_act]
    have hanswers := hw.answers action w
    cases action with
    | store c =>
      obtain ⟨hown, hnext⟩ := h (store w) rfl hI
      obtain ⟨hreply, hstore⟩ := hanswers.store_eq
      rw [← hreply, ← hstore] at hnext
      exact ih _ (by rw [hstore]; exact hown hI) hnext
    | now =>
      have hstore := hanswers.of_other fun _ => nofun
      exact ih _ (by rw [hstore]; exact hI) (by rw [hstore]; exact h _ (hw.clock w))
    | _ =>
      have hstore := hanswers.of_other fun _ => nofun
      exact ih _ (by rw [hstore]; exact hI) (by rw [hstore]; exact h _)

end SpoolIndex
