import SpoolIndex.Proofs.Operation.Paths

/-!
# Transcripts of operations

Whoever answers an operation, its transcript is the path that it takes
(`Operation.ends_transcript`). The store may be a part of what answers, and be
written by others and fail at times: a `Fate` says what may become of it when an
action gets a reply, and the store undergoes one exchange of the path after the
other (`Operation.undergoes_transcript`).
-/

namespace SpoolIndex

def callsOf (path : List Exchange) : List StoreCall :=
  path.filterMap fun x => match x.action with
    | .store c => some c
    | _ => none

theorem callsOf_append (path path' : List Exchange) :
    callsOf (path ++ path') = callsOf path ++ callsOf path' := List.filterMap_append

/-- What may become of a store when an action gets a reply. -/
abbrev Fate := Store → (action : Action) → action.Reply → Store → Prop

namespace Store

inductive Undergoes (fate : Fate) : Store → List Exchange → Store → Prop
  | nil (s : Store) : Undergoes fate s [] s
  | cons {s s₁ s' : Store} {action : Action} {reply : action.Reply} {path : List Exchange}
    (h : fate s action reply s₁) (hs : Undergoes fate s₁ path s') :
    Undergoes fate s (⟨action, reply⟩ :: path) s'

variable {fate : Fate} {s s' : Store} {path path' : List Exchange}

theorem undergoes_append : s.Undergoes fate (path ++ path') s' ↔
    ∃ s₁, s.Undergoes fate path s₁ ∧ s₁.Undergoes fate path' s' := by
  induction path generalizing s with
  | nil =>
    refine ⟨fun h => ⟨s, .nil s, h⟩, ?_⟩
    rintro ⟨s₁, h, h'⟩
    cases h
    exact h'
  | cons x path ih =>
    constructor
    · intro h
      cases h with
      | cons h hs =>
        obtain ⟨s₁, hp, hp'⟩ := ih.mp hs
        exact ⟨s₁, .cons h hp, hp'⟩
    · rintro ⟨s₁, h, h'⟩
      cases h with
      | cons h hs => exact .cons h (ih.mpr ⟨s₁, hs, h'⟩)

theorem Undergoes.mono_of_mem {fate' : Fate} (h : s.Undergoes fate path s')
    (hf : ∀ x ∈ path, ∀ s s', fate s x.action x.reply s' → fate' s x.action x.reply s') :
    s.Undergoes fate' path s' := by
  induction h with
  | nil s => exact .nil s
  | cons h hs ih =>
    obtain ⟨hx, hpath⟩ := List.forall_mem_cons.mp hf
    exact .cons (hx _ _ h) (ih hpath)

theorem Undergoes.mono {fate' : Fate} (h : s.Undergoes fate path s')
    (hf : ∀ s action reply s', fate s action reply s' → fate' s action reply s') :
    s.Undergoes fate' path s' := h.mono_of_mem fun _ _ _ _ hx => hf _ _ _ _ hx

theorem Undergoes.of_mem (h : s.Undergoes fate path s') (hx : x ∈ path) :
    ∃ s₁ s₂, fate s₁ x.action x.reply s₂ := by
  induction h with
  | nil s => cases hx
  | @cons s s₁ s' action reply path h hs ih =>
    obtain rfl | hx := List.mem_cons.mp hx
    · exact ⟨s, s₁, h⟩
    · exact ih hx

theorem Undergoes.keeps {R : Store → Store → Prop} (hrefl : ∀ s, R s s)
    (htrans : ∀ {s₁ s₂ s₃}, R s₁ s₂ → R s₂ s₃ → R s₁ s₃) (h : s.Undergoes fate path s')
    (hstep : ∀ x ∈ path, ∀ s s', fate s x.action x.reply s' → R s s') : R s s' := by
  induction h with
  | nil s => exact hrefl s
  | cons h hs ih =>
    obtain ⟨hx, hpath⟩ := List.forall_mem_cons.mp hstep
    exact htrans (hx _ _ h) (ih hpath)

theorem Undergoes.of_reporting (hp : Reporting path)
    (hf : ∀ s r reply s', fate s (.report r) reply s' → s' = s) (h : s.Undergoes fate path s') :
    s' = s := by
  refine h.keeps (R := fun s s' => s' = s) (fun _ => rfl) (fun h h' => h'.trans h) ?_
  rintro ⟨action, reply⟩ hx s s' hs
  have hreport := hp _ hx
  cases action with
  | report r => exact hf s r reply s' hs
  | _ => exact hreport.elim

end Store

namespace Operation

def transcript (answer : (action : Action) → σ → action.Reply × σ) : Operation α → σ → List Exchange
  | done _, _ => []
  | act action next, w =>
    ⟨action, (answer action w).1⟩ ::
      (next (answer action w).1).transcript answer (answer action w).2

theorem ends_transcript (answer : (action : Action) → σ → action.Reply × σ) (op : Operation α)
    (w : σ) : op.Ends (op.transcript answer w) (op.run answer w).1 := by
  induction op generalizing w with
  | done value => exact .done value
  | act action next ih => exact .act (ih _ _)

theorem transcript_bind (answer : (action : Action) → σ → action.Reply × σ) (op : Operation α)
    (f : α → Operation β) (w : σ) : (op >>= f).transcript answer w =
      op.transcript answer w ++
        (f (op.run answer w).1).transcript answer (op.run answer w).2 := by
  induction op generalizing w with
  | done value => rfl
  | act action next ih => exact congrArg (_ :: ·) (ih _ _)

theorem undergoes_transcript {fate : Fate} {answer : (action : Action) → σ → action.Reply × σ}
    {store : σ → Store} (op : Operation α) (w : σ)
    (hw : ∀ action w, fate (store w) action (answer action w).1 (store (answer action w).2)) :
    (store w).Undergoes fate (op.transcript answer w) (store (op.run answer w).2) := by
  induction op generalizing w with
  | done value => exact .nil _
  | act action next ih => exact .cons (hw action w) (ih _ _)

end Operation

end SpoolIndex
