import SpoolIndex.Proofs.Operation.Failures
import SpoolIndex.Proofs.Operation.Hosting
import SpoolIndex.Proofs.Operation.Serving

/-!
# Operations on a faltering store

The calls of a faltering store may fail, with or without effect, while nobody else
writes it and the clock stands still. As long as an operation only reads, what it is
told is the truth or a failure (`Store.Undergoes.falters`), and if it was told
nothing but the truth, then what it keeps to when it is alone holds of its path
(`Operation.Keeps.told`).
-/

namespace SpoolIndex

def Store.Tells (s : Store) (t : Instant) : Exchange → Prop
  | ⟨.store c, reply⟩ => reply = (s.perform c).1
  | ⟨.now, moment⟩ => moment = t
  | _ => True

def Store.Told (s : Store) (t : Instant) (path : List Exchange) : Prop := ∀ x ∈ path, s.Tells t x

def Store.Falters (s : Store) (t : Instant) (path : List Exchange) : Prop :=
  ∀ x ∈ path, s.Tells t x ∨ ∃ c e, x = ⟨.store c, .error e⟩

def Exchange.AtClock (t : Instant) : Exchange → Prop
  | ⟨.now, moment⟩ => moment = t
  | _ => True

/-- What becomes of a store whose calls may fail, with or without effect, while the clock stands
still. -/
def Fate.faltering (t : Instant) : Fate := fun s action reply s' =>
  s.Suffers action reply s' ∧ Exchange.AtClock t ⟨action, reply⟩

def Fate.Truthful (fate : Fate) (t : Instant) : Prop :=
  ∀ s action reply s', fate s action reply s' → s.Tells t ⟨action, reply⟩

/-- What becomes of a store that nobody else writes and that never fails, while the clock stands
still. -/
def Fate.serving (t : Instant) : Fate := fun s action reply s' =>
  s.Answers action reply s' ∧ Exchange.AtClock t ⟨action, reply⟩

section
variable {s s' : Store} {t : Instant} {path before after : List Exchange}

theorem Fate.serving_truthful : (Fate.serving t).Truthful t := by
  rintro s action reply s' ⟨h, hclock⟩
  cases action with
  | store c => exact h.store_eq.1
  | now => exact hclock
  | _ => trivial

theorem Fate.faltering_of_serving (s : Store) (action : Action) (reply : action.Reply) (s' : Store)
    (h : Fate.serving t s action reply s') : Fate.faltering t s action reply s' :=
  ⟨.tries (.answers h.1), h.2⟩

theorem Hosts.faltering {answer : (action : Action) → σ → action.Reply × σ} {store : σ → Store}
    (hw : Hosts answer store Eq) (hclock : ∀ w, (answer .now w).1 = t) (action : Action) (w : σ) :
    Fate.faltering t (store w) action (answer action w).1 (store (answer action w).2) := by
  obtain ⟨_, rfl, hsuffers⟩ := hw action w
  refine ⟨hsuffers, ?_⟩
  cases action with
  | now => exact hclock w
  | _ => trivial

theorem Operation.keeps_of_ends {op : Operation α} (h : ∀ path value s', op.Ends path value →
    s.Undergoes (.serving t) path s' → post value s') :
    op.Keeps (.alone (fun _ => True) t) post s := by
  induction op generalizing s with
  | done value => exact h [] value s (.done value) (.nil s)
  | act action next ih =>
    have hnext (reply : action.Reply) (s₁ : Store) (hs : Fate.serving t s action reply s₁) :
        (next reply).Keeps (.alone (fun _ => True) t) post s₁ :=
      ih reply fun path value s' he hs' =>
        h (⟨action, reply⟩ :: path) value s' (.act he) (.cons hs hs')
    have hother (reply : action.Reply) (hne : ∀ c, action ≠ .store c)
        (hclock : Exchange.AtClock t ⟨action, reply⟩) := hnext reply s ⟨.other hne reply, hclock⟩
    cases action with
    | store c =>
      rintro _ rfl -
      exact ⟨fun _ => trivial, hnext _ _ ⟨.store c, trivial⟩⟩
    | now =>
      rintro moment rfl
      exact hother moment (fun _ h => nomatch h) rfl
    | _ => exact fun reply => hother reply (fun _ h => nomatch h) trivial

namespace Store

theorem falters_append : s.Falters t (before ++ after) ↔ s.Falters t before ∧ s.Falters t after :=
  List.forall_mem_append

theorem Falters.told_or_failed (h : s.Falters t path) : s.Told t path ∨ ∃ e, FailedIn e path := by
  by_cases ht : s.Told t path
  · exact .inl ht
  · obtain ⟨x, hx⟩ := Classical.not_forall.mp ht
    obtain ⟨hx, hne⟩ := Classical.not_imp.mp hx
    obtain ht | ⟨c, e, rfl⟩ := h x hx
    · exact absurd ht hne
    · exact .inr ⟨e, c, hx⟩

theorem Falters.told (h : s.Falters t path) (hf : failedCalls path = []) : s.Told t path := by
  refine h.told_or_failed.resolve_right fun ⟨e, c, hx⟩ => ?_
  have hc : c ∈ failedCalls path := mem_failedCalls.mpr ⟨e, hx⟩
  rw [hf] at hc
  cases hc

theorem tells_or_failed {action : Action} {reply : action.Reply}
    (h : Fate.faltering t s action reply s') :
    s.Tells t ⟨action, reply⟩ ∨ ∃ c e, (⟨action, reply⟩ : Exchange) = ⟨.store c, .error e⟩ := by
  obtain ⟨h, hclock⟩ := h
  cases action with
  | store c =>
    obtain ⟨hreply, -⟩ | ⟨e, rfl, -⟩ := h.of_call
    · exact .inl hreply
    · exact .inr ⟨c, e, rfl⟩
  | now => exact .inl hclock
  | _ => exact .inl trivial

theorem Suffers.of_other {action : Action} {reply : action.Reply} (h : s.Suffers action reply s')
    (hne : ∀ c, action ≠ .store c) : s' = s := by
  cases h with
  | lost c => exact absurd rfl (hne c)
  | tries h =>
    cases h with
    | answers h => exact h.of_other hne
    | fails c => exact absurd rfl (hne c)

/-- Reads leave a faltering store alone. -/
theorem Undergoes.falters (h : s.Undergoes (.faltering t) path s')
    (hreads : ∀ x ∈ path, x.action.Allowed StoreCall.IsRead) : s' = s ∧ s.Falters t path := by
  induction h with
  | nil s => exact ⟨rfl, fun _ hx => nomatch hx⟩
  | @cons s s₁ s' action reply path h hs ih =>
    obtain ⟨hread, hreads⟩ := List.forall_mem_cons.mp hreads
    obtain rfl : s₁ = s := by
      cases action with
      | store c => exact h.1.of_read hread
      | _ => exact h.1.of_other fun _ => nofun
    obtain ⟨rfl, hfalters⟩ := ih hreads
    exact ⟨rfl, List.forall_mem_cons.mpr ⟨tells_or_failed h, hfalters⟩⟩

theorem Undergoes.told {fate : Fate} (h : s.Undergoes fate path s')
    (hf : ∀ s action reply s', fate s action reply s' → Fate.faltering t s action reply s')
    (ht : fate.Truthful t)
    (hreads : ∀ x ∈ path, x.action.Allowed StoreCall.IsRead) : s.Told t path := by
  induction h with
  | nil s => exact fun _ hx => nomatch hx
  | cons h hs ih =>
    obtain ⟨hread, hreads⟩ := List.forall_mem_cons.mp hreads
    obtain ⟨rfl, -⟩ := (Undergoes.cons (hf _ _ _ _ h) (.nil _)).falters
      (List.forall_mem_singleton.mpr hread)
    exact List.forall_mem_cons.mpr ⟨ht _ _ _ _ h, ih hreads⟩

end Store

/-- What a reader keeps to when it is alone holds of what it was told. -/
theorem Operation.Keeps.told {op : Operation α} {I : Store → Prop}
    (h : op.Keeps (.alone I t) post s) (hI : I s) (hc : op.Calls StoreCall.IsRead)
    (he : op.Ends path value) (ht : s.Told t path) : post value s := by
  induction he with
  | done value => exact h
  | @act action next reply path value he ih =>
    obtain ⟨htells, htold⟩ := List.forall_mem_cons.mp ht
    cases action with
    | store c =>
      obtain ⟨-, hnext⟩ := h s rfl hI
      obtain rfl : reply = (s.perform c).1 := htells
      rw [StoreCall.IsRead.perform hc.1] at hnext
      exact ih hnext (hc.2 _) htold
    | now => exact ih (h reply htells) (hc.2 _) htold
    | _ => exact ih (h reply) (hc.2 _) htold

end

end SpoolIndex
