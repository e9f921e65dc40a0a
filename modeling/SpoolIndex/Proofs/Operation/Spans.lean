import SpoolIndex.Proofs.Operation.Failures

/-!
# Failures by the span that they happen in

The reports of an operation tell where in its path each span is entered and left,
and so whether a store call that failed was made inside a span (`FailedOutside`). What
fails before the span is left is hidden by it (`FailsOutside.after_span`).
-/

namespace SpoolIndex

/-- The span was entered, and no span has been left since. -/
def Within (span : String) (path : List Exchange) : Prop :=
  ∃ before after, path = before ++ ⟨.report (.enter span), ()⟩ :: after ∧
    ∀ x ∈ after, x.action ≠ .report .leave

def FailedOutside (span : String) (path : List Exchange) : Prop :=
  ∃ before c e after, path = before ++ ⟨.store c, .error e⟩ :: after ∧ ¬Within span before

def FailsOutside (span : String) (c : StoreCall) (path : List Exchange) : Prop :=
  ∃ before e after, path = before ++ ⟨.store c, .error e⟩ :: after ∧ ¬Within span before

section
variable {span : String} {path before after : List Exchange}

theorem Within.of_append (h : Within span (before ++ after)) :
    Within span before ∨ Within span after := by
  obtain ⟨first, last, he, hlast⟩ := h
  obtain ⟨middle, rfl, rfl⟩ | ⟨middle, rfl, hmiddle⟩ := List.append_eq_append_iff.mp he
  · exact .inr ⟨middle, last, rfl, hlast⟩
  · cases middle with
    | nil => exact .inr ⟨[], last, hmiddle.symm, hlast⟩
    | cons x middle =>
      obtain ⟨rfl, rfl⟩ := List.cons.inj hmiddle
      exact .inl ⟨first, middle, rfl, fun x hx => hlast x (List.mem_append_left _ hx)⟩

theorem not_within_left : ¬Within span (path ++ [⟨.report .leave, ()⟩]) := by
  rintro ⟨before, after, he, hafter⟩
  obtain rfl | ⟨init, x, rfl⟩ := after.eq_nil_or_concat
  · obtain ⟨-, hlast⟩ := List.append_inj' he rfl
    cases hlast
  · rw [List.concat_eq_append, ← List.cons_append, ← List.append_assoc] at he
    obtain ⟨-, hlast⟩ := List.append_inj' he rfl
    cases hlast
    exact hafter ⟨.report .leave, ()⟩ (by simp) rfl

theorem not_within_of_mem (h : ∀ x ∈ path, x.action ≠ .report (.enter span)) :
    ¬Within span path := by
  rintro ⟨before, after, rfl, -⟩
  exact h ⟨.report (.enter span), ()⟩ (by simp) rfl

theorem Within.later (h : Within span after) : Within span (before ++ after) := by
  obtain ⟨first, last, rfl, hlast⟩ := h
  exact ⟨before ++ first, last, by simp, hlast⟩

theorem FailsOutside.mem (h : FailsOutside span c path) : c ∈ failedCalls path := by
  obtain ⟨before, e, after, rfl, -⟩ := h
  exact mem_failedCalls.mpr ⟨e, by simp⟩

theorem FailsOutside.outside (h : FailsOutside span c path) : FailedOutside span path := by
  obtain ⟨before, e, after, he, hbefore⟩ := h
  exact ⟨before, c, e, after, he, hbefore⟩

theorem FailsOutside.of_append (h : FailsOutside span c (before ++ after)) :
    FailsOutside span c before ∨ FailsOutside span c after := by
  obtain ⟨first, e, last, he, hfirst⟩ := h
  obtain ⟨middle, rfl, rfl⟩ | ⟨middle, rfl, hmiddle⟩ := List.append_eq_append_iff.mp he
  · exact .inr ⟨middle, e, last, rfl, fun h => hfirst h.later⟩
  · cases middle with
    | nil => exact .inr ⟨[], e, last, hmiddle.symm, not_within_of_mem fun _ h => nomatch h⟩
    | cons x middle =>
      obtain ⟨rfl, rfl⟩ := List.cons.inj hmiddle
      exact .inl ⟨first, e, middle, rfl, hfirst⟩

theorem FailsOutside.earlier (h : FailsOutside span c before) :
    FailsOutside span c (before ++ after) := by
  obtain ⟨first, e, last, rfl, hfirst⟩ := h
  exact ⟨first, e, last ++ after, by simp, hfirst⟩

theorem FailsOutside.later (h : FailsOutside span c after) (hb : ¬Within span before) :
    FailsOutside span c (before ++ after) := by
  obtain ⟨first, e, last, rfl, hfirst⟩ := h
  exact ⟨before ++ first, e, last, by simp, fun h => h.of_append.elim hb hfirst⟩

theorem failsOutside_append (hb : ¬Within span before) : FailsOutside span c (before ++ after) ↔
    FailsOutside span c before ∨ FailsOutside span c after :=
  ⟨FailsOutside.of_append, fun h => h.elim FailsOutside.earlier fun h => h.later hb⟩

theorem failsOutside_iff (hp : ∀ x ∈ path, x.action ≠ .report (.enter span)) :
    FailsOutside span c path ↔ c ∈ failedCalls path := by
  refine ⟨FailsOutside.mem, fun h => ?_⟩
  obtain ⟨e, hx⟩ := mem_failedCalls.mp h
  obtain ⟨first, last, rfl⟩ := List.append_of_mem hx
  exact ⟨first, e, last, rfl, not_within_of_mem fun x hx => hp x (List.mem_append_left _ hx)⟩

theorem failedOutside_iff : FailedOutside span path ↔ ∃ c, FailsOutside span c path := by
  constructor
  · rintro ⟨before, c, e, after, he, hbefore⟩
    exact ⟨c, before, e, after, he, hbefore⟩
  · rintro ⟨c, h⟩
    exact h.outside

theorem FailedOutside.earlier (h : FailedOutside span before) :
    FailedOutside span (before ++ after) := by
  obtain ⟨c, h⟩ := failedOutside_iff.mp h
  exact h.earlier.outside

theorem FailedOutside.later (h : FailedOutside span after) (hb : ¬Within span before) :
    FailedOutside span (before ++ after) := by
  obtain ⟨c, h⟩ := failedOutside_iff.mp h
  exact (h.later hb).outside

theorem FailedIn.outside (h : FailedIn e path)
    (hp : ∀ x ∈ path, x.action ≠ .report (.enter span)) : FailedOutside span path := by
  obtain ⟨c, hx⟩ := h
  exact ((failsOutside_iff hp).mpr (mem_failedCalls.mpr ⟨e, hx⟩)).outside

theorem FailsOutside.after_report {reply : Unit}
    (h : FailsOutside span c (⟨.report r, reply⟩ :: path)) : FailsOutside span c path := by
  have hsplit : FailsOutside span c ([⟨.report r, reply⟩] ++ path) := h
  exact hsplit.of_append.resolve_left fun h => nomatch h.mem

/-- A span hides what fails before it is left. -/
theorem FailsOutside.after_span
    (h : FailsOutside span c (⟨.report (.enter span), ()⟩ :: (before ++ after)))
    (hbefore : ∀ x ∈ before, x.action ≠ .report .leave) : FailsOutside span c after := by
  obtain ⟨first, e, last, he, hfirst⟩ := h
  cases first with
  | nil => cases he
  | cons x first =>
    obtain ⟨rfl, htail⟩ := List.cons.inj he
    obtain ⟨rest, rfl, rfl⟩ | ⟨rest, rfl, hrest⟩ := List.append_eq_append_iff.mp htail
    · have hlater (h : Within span rest) :
          Within span ((⟨.report (.enter span), ()⟩ :: before) ++ rest) := h.later
      exact ⟨rest, e, last, rfl, fun h => hfirst (hlater h)⟩
    · cases rest with
      | nil => exact ⟨[], e, last, hrest.symm, not_within_of_mem fun _ hx => nomatch hx⟩
      | cons y rest =>
        refine absurd ⟨[], first, rfl, fun x hx => ?_⟩ hfirst
        exact hbefore x (List.mem_append_left _ hx)

theorem Reporting.not_failsOutside (h : Reporting path) : ¬FailsOutside span c path := by
  intro hfails
  obtain ⟨e, hx⟩ := mem_failedCalls.mp hfails.mem
  exact h _ hx

end

end SpoolIndex
