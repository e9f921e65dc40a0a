import SpoolIndex.Proofs.Interleaving.Faults
import SpoolIndex.Proofs.Operation.Transcripts

/-!
# Hosts of a store

The store may be a part of whatever answers an operation (`Hosts`). Others may write it
before each exchange, and its calls may fail, with or without effect
(`Store.Suffers`).
-/

namespace SpoolIndex

/-- What becomes of a store whose calls may also take effect and still report an error. -/
inductive Store.Suffers (s : Store) : (action : Action) → action.Reply → Store → Prop
  | tries {action : Action} {reply : action.Reply} {s' : Store} (h : s.Tries action reply s') :
    Suffers s action reply s'
  | lost (c : StoreCall) (e : Error) : Suffers s (.store c) (.error e) (s.perform c).2

def Fate.among (others : Store → Store → Prop) : Fate := fun s action reply s' =>
  ∃ met, others s met ∧ met.Suffers action reply s'

/-- A store that others write as well is a part of what answers. -/
def Hosts (answer : (action : Action) → σ → action.Reply × σ) (store : σ → Store)
    (others : Store → Store → Prop) : Prop :=
  ∀ action w, Fate.among others (store w) action (answer action w).1 (store (answer action w).2)

namespace Store

variable {s s' : Store}

theorem Suffers.of_ok {reply : c.Reply} (h : s.Suffers (.store c) (.ok reply) s') :
    (s.perform c).1 = .ok reply ∧ s' = (s.perform c).2 := by
  cases h with
  | tries h =>
    cases h with
    | answers h =>
      obtain ⟨hr, hs⟩ := h.store_eq
      exact ⟨hr.symm, hs⟩

theorem Suffers.of_call {reply : Except Error c.Reply} (h : s.Suffers (.store c) reply s') :
    reply = (s.perform c).1 ∧ s' = (s.perform c).2 ∨
      ∃ e, reply = .error e ∧ (s' = s ∨ s' = (s.perform c).2) := by
  cases h with
  | tries h =>
    cases h with
    | answers h => exact .inl h.store_eq
    | fails _ e => exact .inr ⟨e, rfl, .inl rfl⟩
  | lost _ e => exact .inr ⟨e, rfl, .inr rfl⟩

theorem Suffers.of_read {reply : Except Error c.Reply} (h : s.Suffers (.store c) reply s')
    (hc : c.IsRead) : s' = s := by
  obtain ⟨-, hs⟩ | ⟨-, -, hs | hs⟩ := h.of_call
  · rw [hs, hc.perform]
  · exact hs
  · rw [hs, hc.perform]

theorem Suffers.grows {action : Action} {reply : action.Reply} (h : s.Suffers action reply s') :
    s.Grows s' := by
  cases h with
  | tries h => exact h.grows
  | lost c e => exact grows_perform s c

theorem Suffers.of_report {reply : Unit} (h : s.Suffers (.report r) reply s') : s' = s := by
  cases h with
  | tries h =>
    cases h with
    | answers h =>
      cases h with
      | other => rfl

end Store

section
variable {s s' : Store} {path : List Exchange} {others : Store → Store → Prop}

theorem Store.Undergoes.grows (hothers : ∀ s s', others s s' → s.Grows s')
    (h : s.Undergoes (.among others) path s') : s.Grows s' := by
  refine h.keeps .refl .trans fun x _ s s' hx => ?_
  obtain ⟨met, hmet, hs⟩ := hx
  exact (hothers _ _ hmet).trans hs.grows

theorem Fate.of_report {reply : Unit} (h : Fate.among Eq s (.report r) reply s') : s' = s := by
  obtain ⟨_, rfl, h⟩ := h
  exact h.of_report

end

end SpoolIndex
