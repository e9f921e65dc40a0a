import SpoolIndex.Proofs.Interleaving.Faults
import SpoolIndex.Proofs.Operation.Transcripts

/-!
# Attempts that fail whole

An attempt gives up if a store call that fails always ends it, with the error of
the call (`Attempt.GivesUp`). If moreover it fails only while it has written
nothing, it is all or nothing: a store whose calls fail without effect is then as
it was after any failure (`Store.Undergoes.unchanged`).
-/

namespace SpoolIndex

-- ---------------------------------------------------------------------------
-- Failures on a path
-- ---------------------------------------------------------------------------

def FailedIn (e : Error) (path : List Exchange) : Prop := ∃ c, ⟨.store c, .error e⟩ ∈ path

theorem failedIn_append : FailedIn e (path ++ path') ↔ FailedIn e path ∨ FailedIn e path' := by
  simp only [FailedIn, List.mem_append, exists_or]

def failedCalls (path : List Exchange) : List StoreCall :=
  path.filterMap fun
    | ⟨.store c, .error _⟩ => some c
    | _ => none

theorem failedCalls_nil : failedCalls [] = [] := rfl

theorem failedCalls_append (path path' : List Exchange) :
    failedCalls (path ++ path') = failedCalls path ++ failedCalls path' := List.filterMap_append

theorem mem_failedCalls : c ∈ failedCalls path ↔ ∃ e, ⟨.store c, .error e⟩ ∈ path := by
  simp only [failedCalls, List.mem_filterMap]
  constructor
  · rintro ⟨⟨action, reply⟩, hx, hc⟩
    cases action with
    | store c' =>
      cases reply with
      | error e =>
        cases hc
        exact ⟨e, hx⟩
      | ok => cases hc
    | _ => cases hc
  · rintro ⟨e, hx⟩
    exact ⟨_, hx, rfl⟩

def ReadsOnly (path : List Exchange) : Prop := ∀ c reply, ⟨.store c, .ok reply⟩ ∈ path → c.IsRead

theorem readsOnly_append : ReadsOnly (path ++ path') ↔ ReadsOnly path ∧ ReadsOnly path' := by
  simp only [ReadsOnly, List.mem_append]
  constructor
  · exact fun h => ⟨fun c reply hx => h c reply (.inl hx), fun c reply hx => h c reply (.inr hx)⟩
  · rintro ⟨h, h'⟩ c reply (hx | hx)
    · exact h c reply hx
    · exact h' c reply hx

namespace Operation

def Storeless (op : Operation α) : Prop := op.Calls fun _ => False

theorem Storeless.not_failed {op : Operation α} (h : op.Storeless) (he : op.Ends path value) :
    ¬FailedIn e path := fun ⟨_, hx⟩ => h.ends he hx

theorem Storeless.failedCalls {op : Operation α} (h : op.Storeless) (he : op.Ends path value) :
    failedCalls path = [] := by
  refine List.eq_nil_iff_forall_not_mem.mpr fun c hc => ?_
  obtain ⟨e, hx⟩ := mem_failedCalls.mp hc
  exact h.not_failed he ⟨c, hx⟩

theorem Storeless.readsOnly {op : Operation α} (h : op.Storeless) (he : op.Ends path value) :
    ReadsOnly path := fun _ _ hx => (h.ends he hx).elim

theorem Calls.readsOnly {op : Operation α} (h : op.Calls StoreCall.IsRead)
    (he : op.Ends path value) : ReadsOnly path := fun _ _ hx => h.ends he hx

end Operation

-- ---------------------------------------------------------------------------
-- Attempts
-- ---------------------------------------------------------------------------

namespace Attempt

open Operation

/-- Whichever store call fails, the attempt ends in the error of the call. -/
def GivesUp (x : Attempt α) : Prop :=
  ∀ path result e, x.run.Ends path result → FailedIn e path → result = .error e

theorem givesUp_call : (call c).GivesUp := by
  rintro path result e h ⟨c', hx⟩
  obtain rfl := Ends.of_perform h
  cases List.mem_singleton.mp hx
  rfl

theorem givesUp_of_storeless {x : Attempt α} (h : x.run.Storeless) : x.GivesUp :=
  fun _ _ _ he hf => absurd hf (h.not_failed he)

theorem givesUp_pure : (pure value : Attempt α).GivesUp := givesUp_of_storeless trivial

theorem givesUp_throw : (throw e : Attempt α).GivesUp := givesUp_of_storeless trivial

theorem givesUp_lift {op : Operation α} (h : op.Storeless) : (liftM op : Attempt α).GivesUp :=
  givesUp_of_storeless (calls_lift h)

theorem GivesUp.bind {x : Attempt α} {f : α → Attempt β} (hx : x.GivesUp)
    (hf : ∀ value, (f value).GivesUp) : (x >>= f).GivesUp := by
  intro path result e h hfailed
  obtain ⟨e', hend, rfl⟩ | ⟨before, after, value, rfl, hend, hend'⟩ := ends_bind_cases h
  · cases hx path _ e hend hfailed
    rfl
  · obtain hfailed | hfailed := failedIn_append.mp hfailed
    · cases hx before _ e hend hfailed
    · exact hf value after result e hend' hfailed

structure AllOrNothing (x : Attempt α) : Prop where
  givesUp : x.GivesUp
  readsOnly : ∀ path e, x.run.Ends path (.error e) → ReadsOnly path

end Attempt

-- ---------------------------------------------------------------------------
-- The store after a failure
-- ---------------------------------------------------------------------------

namespace Store

theorem perform_of_error {s : Store} (h : (s.perform c).1 = .error e) : (s.perform c).2 = s := by
  cases c with
  | appendItem | putTombstone => cases h
  | swapStart q condition slice =>
    simp only [perform] at h
    split at h <;> cases h
  | _ => rfl

theorem Undergoes.unchanged {s s' : Store} (h : s.Undergoes Store.Tries path s')
    (hreads : ReadsOnly path) : s' = s := by
  refine h.keeps (R := fun s s' => s' = s) (fun _ => rfl) (fun h h' => h'.trans h) ?_
  rintro ⟨action, reply⟩ hx s s' htries
  cases htries with
  | fails c e => rfl
  | answers h =>
    cases h with
    | other hne => rfl
    | store c =>
      cases hr : (s.perform c).1 with
      | error e => exact perform_of_error hr
      | ok reply =>
        have hx : ⟨.store c, .ok reply⟩ ∈ path := by
          rw [← hr]
          exact hx
        exact (hreads c reply hx).perform s

end Store

end SpoolIndex
