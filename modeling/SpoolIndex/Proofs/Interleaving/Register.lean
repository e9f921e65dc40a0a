import SpoolIndex.Proofs.Interleaving.Faults

/-!
# The browse start is a register that only grows

Tasks of any kind share a store, and its calls may fail. Whatever they propose for
the browse start of a queue, and in which order, it is set once, by an open, and
from then on is the largest of what was proposed (`Scene.monotone_register`).
-/

namespace SpoolIndex

-- ---------------------------------------------------------------------------
-- What the operations on a browse start answer
-- ---------------------------------------------------------------------------

def RaisedIn (q : QueueName) (path : List Exchange) : Prop :=
  ∃ slice, ⟨.store (.swapStart q .below slice), .ok true⟩ ∈ path

theorem raisedIn_append : RaisedIn q (path ++ path') ↔ RaisedIn q path ∨ RaisedIn q path' := by
  simp only [RaisedIn, List.mem_append, exists_or]

theorem BrowseStart.advanced_iff
    (h : (BrowseStart.advanceTo q slice).run.Ends path (.ok answer)) :
    answer = .advanced ↔ RaisedIn q path := by
  obtain ⟨applied, rfl, hanswer⟩ := advances_of_ends h
  rcases applied with e | _ | _ <;> cases hanswer <;> simp [RaisedIn]

theorem View.maintain_advanced_iff {v : View} (h : (v.maintain q).run.Ends path (.ok m)) :
    m.result = .advanced ↔ RaisedIn q path := by
  obtain ⟨hreads, hunchanged⟩ | ⟨_, _, _, target, applied, hsearch, -, rfl, hresult⟩ :=
    (maintains_of_ends h).reads_or_raises
  · rw [hunchanged m rfl]
    exact iff_of_false nofun fun ⟨slice, hx⟩ => hreads _ hx
  · have hlooked : ¬RaisedIn q (looked q _ _ _) := fun ⟨slice, hx⟩ => hsearch.looked_reads _ hx
    rw [raisedIn_append, or_iff_right hlooked]
    rcases applied with e | _ | _ <;> cases hresult <;> simp [RaisedIn]

theorem View.advanceBrowseStart_advanced_iff {v : View}
    (h : (v.advanceBrowseStart q).run.Ends path (.ok answer)) :
    answer = .advanced ↔ RaisedIn q path := by
  obtain ⟨middle, m, told, outcome, rfl, hmaintain, htold, hresult⟩ := advanceBrowseStart_ends h
  have hraised : RaisedIn q (overseen q middle told outcome) ↔ RaisedIn q middle := by
    constructor
    · rintro ⟨slice, hx⟩
      exact ⟨slice, (mem_overseen htold hx).resolve_right id⟩
    · rintro ⟨slice, hx⟩
      exact ⟨slice, by simp [overseen, hx]⟩
  rw [hraised]
  cases m with
  | error e => cases hresult
  | ok m =>
    cases hresult
    exact maintain_advanced_iff hmaintain

-- ---------------------------------------------------------------------------
-- What an event does to a browse start
-- ---------------------------------------------------------------------------

/-- All that can become of the browse start of a queue at an event. -/
inductive Moves (q : QueueName) : Option Slice → Event ι → Option Slice → Prop
  | opens (i : ι) (slice : Slice) :
    Moves q none ⟨i, .store (.swapStart q .absent slice), .ok true⟩ (some slice)
  | raises (i : ι) {old slice : Slice} (h : old < slice) :
    Moves q (some old) ⟨i, .store (.swapStart q .below slice), .ok true⟩ (some slice)
  | open (i : ι) (slice old : Slice) :
    Moves q (some old) ⟨i, .store (.swapStart q .absent slice), .ok false⟩ (some old)
  | low (i : ι) {old slice : Slice} (h : slice ≤ old) :
    Moves q (some old) ⟨i, .store (.swapStart q .below slice), .ok false⟩ (some old)
  | early (i : ι) (slice : Slice) :
    Moves q none ⟨i, .store (.swapStart q .below slice), .ok false⟩ none
  | read (i : ι) (start : Option Slice) :
    Moves q start ⟨i, .store (.readStart q), .ok start⟩ start
  | other (start : Option Slice) {e : Event ι}
    (hs : ∀ i condition slice applied,
      e ≠ ⟨i, .store (.swapStart q condition slice), .ok applied⟩)
    (hr : ∀ i start, e ≠ ⟨i, .store (.readStart q), .ok start⟩) : Moves q start e start

def Event.Opens (q : QueueName) (slice : Slice) (e : Event ι) : Prop :=
  ∃ i, e = ⟨i, .store (.swapStart q .absent slice), .ok true⟩

/-- What an event proposes for the browse start: the slice of a conditional advance that was carried
out. -/
def Event.proposal? (q : QueueName) : Event ι → Option Slice
  | ⟨_, .store (.swapStart queue .below slice), .ok _⟩ => if queue = q then some slice else none
  | _ => none

theorem Event.proposal?_eq_some {e : Event ι} (h : e.proposal? q = some slice) :
    ∃ i applied, e = ⟨i, .store (.swapStart q .below slice), .ok applied⟩ := by
  unfold proposal? at h
  split at h
  · rename_i i queue slice' applied
    split at h
    · rename_i hq
      cases hq
      cases h
      exact ⟨i, applied, rfl⟩
    · cases h
  · cases h

theorem Moves.of_swap (s : Store) (i : ι) (condition : SwapCondition) (slice : Slice) :
    Moves q (s.start q) ⟨i, .store (.swapStart q condition slice), (s.perform _).1⟩
      ((s.perform (.swapStart q condition slice)).2.start q) := by
  cases condition with
  | absent =>
    cases h : s.start q with
    | none =>
      simp only [Store.perform, Store.swapApplies, h, ↓reduceIte, Store.start_setStart_same]
      exact .opens i slice
    | some old =>
      simp only [Store.perform, Store.swapApplies, h, Bool.false_eq_true, ↓reduceIte]
      exact .open i slice old
  | below =>
    cases h : s.start q with
    | none =>
      simp only [Store.perform, Store.swapApplies, h, Bool.false_eq_true, ↓reduceIte]
      exact .early i slice
    | some old =>
      by_cases hlt : old < slice
      · simp only [Store.perform, Store.swapApplies, h, hlt, decide_true, ↓reduceIte,
          Store.start_setStart_same]
        exact .raises i hlt
      · simp only [Store.perform, Store.swapApplies, h, hlt, decide_false, Bool.false_eq_true,
          ↓reduceIte]
        exact .low i (Slice.not_lt.mp hlt)

theorem Moves.of_tries {s s' : Store} {action : Action} {reply : action.Reply}
    (h : s.Tries action reply s') (i : ι) :
    Moves q (s.start q) ⟨i, action, reply⟩ (s'.start q) := by
  cases h with
  | fails c e => exact .other _ (fun _ _ _ _ he => by cases he) fun _ _ he => by cases he
  | answers h =>
    cases h with
    | other hne =>
      refine .other _ (fun _ _ _ _ he => ?_) fun _ _ he => ?_ <;> cases he <;> exact hne _ rfl
    | store call =>
      cases call with
      | swapStart q' condition slice =>
        by_cases hq : q = q'
        · subst hq
          exact .of_swap s i condition slice
        · have hkept : (s.perform (.swapStart q' condition slice)).2.start q = s.start q := by
            simp only [Store.perform]
            split
            · exact Store.start_setStart_other s slice hq
            · rfl
          rw [hkept]
          refine .other _ (fun _ _ _ _ he => ?_) fun _ _ he => ?_
          · cases congrArg Event.action he
            exact hq rfl
          · cases congrArg Event.action he
      | readStart q' =>
        by_cases hq : q = q'
        · subst hq
          exact .read i (s.start q)
        · exact .other _ (fun _ _ _ _ he => by cases he) fun _ _ he => by cases he; exact hq rfl
      | _ => exact .other _ (fun _ _ _ _ he => by cases he) fun _ _ he => by cases he

@[simp]
theorem Event.proposal?_below {i : ι} {applied : Bool} :
    proposal? q ⟨i, .store (.swapStart q .below slice), .ok applied⟩ = some slice := if_pos rfl

theorem Moves.of_open {e : Event ι} (h : Moves q (some old) e start) :
    ∃ new, start = some new ∧ old ≤ new ∧ (new = old ∨ e.proposal? q = some new) ∧
      ∀ slice, e.proposal? q = some slice → slice ≤ new := by
  generalize hs : some old = first at h
  cases h with
  | opens | early => cases hs
  | raises i hlt =>
    cases hs
    refine ⟨_, rfl, Int.le_of_lt hlt, .inr Event.proposal?_below, fun slice hp => ?_⟩
    cases Event.proposal?_below.symm.trans hp
    exact Slice.le_refl _
  | low i hle =>
    cases hs
    refine ⟨_, rfl, Slice.le_refl _, .inl rfl, fun slice hp => ?_⟩
    cases Event.proposal?_below.symm.trans hp
    exact hle
  | «open» | read =>
    cases hs
    exact ⟨_, rfl, Slice.le_refl _, .inl rfl, fun _ hp => nomatch hp⟩
  | other _ hswap =>
    cases hs
    refine ⟨_, rfl, Slice.le_refl _, .inl rfl, fun slice hp => ?_⟩
    obtain ⟨i, applied, rfl⟩ := Event.proposal?_eq_some hp
    exact absurd rfl (hswap i .below slice applied)

theorem Moves.of_unopened {e : Event ι} (h : Moves q none e start)
    (he : ∀ slice, ¬e.Opens q slice) : start = none := by
  generalize hs : none = first at h
  cases h with
  | opens i slice => exact absurd ⟨i, rfl⟩ (he slice)
  | raises | low | «open» => cases hs
  | _ => rfl

theorem Moves.of_opens {e : Event ι} (h : Moves q first e start) (he : e.Opens q slice) :
    first = none ∧ start = some slice := by
  obtain ⟨i, rfl⟩ := he
  cases h with
  | opens => exact ⟨rfl, rfl⟩
  | other _ hswap => exact absurd rfl (hswap i .absent slice true)

theorem Moves.of_raised {e : Event ι} (h : Moves q (some old) e (some new)) (hlt : old < new) :
    ∃ i, e = ⟨i, .store (.swapStart q .below new), .ok true⟩ := by
  have hne : ¬old < old := Slice.not_lt.mpr (Slice.le_refl old)
  generalize hs : some old = first at h
  generalize hs' : some new = last at h
  cases h with
  | raises i =>
    cases hs'
    exact ⟨i, rfl⟩
  | opens | early => cases hs
  | «open» | low | read | other =>
    cases hs
    cases hs'
    exact absurd hlt hne

theorem Moves.of_refused {i : ι}
    (h : Moves q first ⟨i, .store (.swapStart q .absent slice), .ok false⟩ last) :
    ∃ old, last = some old := by
  cases h with
  | «open» _ _ old => exact ⟨old, rfl⟩
  | other _ hs => exact absurd rfl (hs i .absent slice false)

theorem Moves.of_read {i : ι} (h : Moves q first ⟨i, .store (.readStart q), .ok start⟩ last) :
    first = start := by
  cases h with
  | read => rfl
  | other _ _ hr => exact absurd rfl (hr i start)

structure Largest (slice : Slice) (slices : List Slice) : Prop where
  mem : slice ∈ slices
  le : ∀ other ∈ slices, other ≤ slice

theorem Largest.unique (h : Largest slice slices) (h' : Largest slice' slices')
    (hm : ∀ s, s ∈ slices ↔ s ∈ slices') : slice = slice' :=
  Slice.ext_index (Int.le_antisymm (h'.le _ ((hm _).mp h.mem)) (h.le _ ((hm _).mpr h'.mem)))

theorem Largest.cons {mid : Slice} {slices : List Slice} {p : Option Slice}
    (h : Largest new (mid :: slices)) (hle : old ≤ mid) (hmid : mid = old ∨ p = some mid)
    (hp : ∀ slice, p = some slice → slice ≤ mid) : Largest new (old :: (p.toList ++ slices)) := by
  have hnew : mid ≤ new := h.le mid List.mem_cons_self
  constructor
  · rcases List.mem_cons.mp h.mem with rfl | hmem
    · rcases hmid with rfl | rfl
      · exact List.mem_cons_self
      · exact List.mem_cons_of_mem _ List.mem_cons_self
    · exact List.mem_cons_of_mem _ (List.mem_append_right _ hmem)
  · intro other ho
    rcases List.mem_cons.mp ho with rfl | ho
    · exact Slice.le_trans hle hnew
    rcases List.mem_append.mp ho with ho | ho
    · exact Slice.le_trans (hp other (Option.mem_toList.mp ho)) hnew
    · exact h.le other (List.mem_cons_of_mem _ ho)

def proposals (q : QueueName) (trace : List (Event ι)) : List Slice :=
  trace.filterMap (Event.proposal? q)

theorem proposals_cons (e : Event ι) (trace : List (Event ι)) :
    proposals q (e :: trace) = (e.proposal? q).toList ++ proposals q trace := by
  rw [proposals, List.filterMap_cons]
  cases e.proposal? q <;> rfl

namespace Scene

section
variable [DecidableEq ι] {c c' c₁ c₂ : Scene ι} {e : Event ι} {before after trace : List (Event ι)}

theorem FaultyStep.moves (h : c.FaultyStep e c') (q : QueueName) :
    Moves q (c.store.start q) e (c'.store.start q) := .of_tries h.tries e.task

/-- Once set, the browse start becomes the largest of itself and of what is proposed. -/
theorem FaultySteps.largest (h : FaultySteps c trace c') (hs : c.store.start q = some old) :
    ∃ new, c'.store.start q = some new ∧ Largest new (old :: proposals q trace) := by
  induction h generalizing old with
  | refl c =>
    refine ⟨old, hs, List.mem_cons_self, fun other ho => ?_⟩
    cases List.mem_singleton.mp ho
    exact Slice.le_refl _
  | @step c c' c'' e trace h _ ih =>
    obtain ⟨mid, hmid, hle, hor, hp⟩ := (hs ▸ h.moves q).of_open
    obtain ⟨new, hnew, hl⟩ := ih hmid
    exact ⟨new, hnew, by rw [proposals_cons]; exact hl.cons hle hor hp⟩

theorem FaultySteps.unopened (h : FaultySteps c trace c') (hs : c.store.start q = none)
    (he : ∀ e ∈ trace, ∀ slice, ¬e.Opens q slice) : c'.store.start q = none := by
  induction h with
  | refl c => exact hs
  | step h _ ih =>
    refine ih ((hs ▸ h.moves q).of_unopened (he _ List.mem_cons_self)) fun e' hmem => ?_
    exact he e' (List.mem_cons_of_mem _ hmem)

theorem FaultySteps.opens_once (h : FaultySteps c (before ++ e :: after) c') (he : e.Opens q slice)
    (hmem : e' ∈ before ++ after) : ¬e'.Opens q slice' := by
  obtain ⟨c₁, c₂, hb, hstep, ha⟩ := h.split_at
  obtain ⟨hnone, hsome⟩ := (hstep.moves q).of_opens he
  intro he'
  rcases List.mem_append.mp hmem with hmem | hmem
  · obtain ⟨first, second, rfl⟩ := List.append_of_mem hmem
    obtain ⟨c₃, c₄, -, hstep', hrest⟩ := hb.split_at
    obtain ⟨-, hopen⟩ := (hstep'.moves q).of_opens he'
    exact Store.open_grows (by rw [hopen]; exact nofun) hrest.store_grows hnone
  · obtain ⟨first, second, rfl⟩ := List.append_of_mem hmem
    obtain ⟨c₃, c₄, hrest, hstep', -⟩ := ha.split_at
    obtain ⟨hnone', -⟩ := (hstep'.moves q).of_opens he'
    exact Store.open_grows (by rw [hsome]; exact nofun) hrest.store_grows hnone'

/-- In the course of a run, an action of a task raised the browse start. -/
def Raises (q : QueueName) (i : ι) (c : Scene ι) (trace : List (Event ι)) (c' : Scene ι) : Prop :=
  ∃ before e after c₁ c₂ old new, trace = before ++ e :: after ∧ e.task = i ∧
    FaultySteps c before c₁ ∧ c₁.FaultyStep e c₂ ∧ FaultySteps c₂ after c' ∧
    c₁.store.start q = some old ∧ c₂.store.start q = some new ∧ old < new

def Held (q : QueueName) (c : Scene ι) (trace : List (Event ι)) (c' : Scene ι) (slice : Slice) :
    Prop :=
  ∃ before after c₁, trace = before ++ after ∧ FaultySteps c before c₁ ∧ FaultySteps c₁ after c' ∧
    c₁.store.start q = some slice

theorem raises_iff (h : FaultySteps c trace c') :
    Raises q i c trace c' ↔ RaisedIn q (exchanges i trace) := by
  constructor
  · rintro ⟨before, e, after, c₁, c₂, old, new, rfl, rfl, hb, hstep, ha, hold, hnew, hlt⟩
    have hmoves := hstep.moves q
    rw [hold, hnew] at hmoves
    obtain ⟨i, rfl⟩ := Moves.of_raised hmoves hlt
    exact ⟨new, mem_exchanges.mpr (List.mem_append_right _ List.mem_cons_self)⟩
  · rintro ⟨slice, hx⟩
    obtain ⟨before, after, rfl⟩ := List.append_of_mem (mem_exchanges.mp hx)
    obtain ⟨c₁, c₂, hb, hstep, ha⟩ := h.split_at
    have hmoves := hstep.moves q
    generalize hold : c₁.store.start q = first at hmoves
    generalize hnew : c₂.store.start q = last at hmoves
    cases hmoves with
    | raises _ hlt =>
      exact ⟨before, _, after, c₁, c₂, _, _, rfl, rfl, hb, hstep, ha, hold, hnew, hlt⟩
    | other _ hs => exact absurd rfl (hs i .below slice true)

theorem Performs.answers_iff {op : Operation α} (h : Performs i op c trace c' value)
    (hop : ∀ path, op.Ends path value → (P ↔ RaisedIn q path)) : P ↔ Raises q i c trace c' :=
  (hop _ h.ends).trans (raises_iff h.steps).symm

theorem held_refl (h : c.store.start q = some slice) : Held q c [] c slice :=
  ⟨[], [], c, rfl, .refl c, .refl c, h⟩

theorem Held.extend (h : Held q c₁ trace c₂ slice) (hb : FaultySteps c before c₁)
    (ha : FaultySteps c₂ after c') : Held q c (before ++ trace ++ after) c' slice := by
  obtain ⟨first, second, c₃, rfl, hf, hs, hstart⟩ := h
  exact ⟨before ++ first, second ++ after, c₃, by simp only [List.append_assoc], hb.trans hf,
    hs.trans ha, hstart⟩

theorem establish_held
    (h : Performs i (BrowseStart.establish q slice).run c trace c' (.ok value)) :
    Held q c trace c' value := by
  obtain ⟨before, after, c₁, applied, rfl, hswap, hrest⟩ := h.of_attempt_bind
  obtain ⟨first, second, c₂, c₃, rfl, hfirst, hstep, hsecond, -, -⟩ := hswap.of_perform
  have hmoves := hstep.moves q
  cases applied with
  | true =>
    obtain ⟨-, hvalue⟩ := hrest.ends.of_done
    cases hvalue
    have hheld := (held_refl (hmoves.of_opens ⟨i, rfl⟩).2).extend
      (hfirst.trans (.step hstep (.refl c₃))) (hsecond.trans hrest.steps)
    simpa using hheld
  | false =>
    obtain ⟨old, hold⟩ := hmoves.of_refused
    obtain ⟨early, late, c₄, start, rfl, hread, hdone⟩ := hrest.of_attempt_bind
    obtain ⟨-, hvalue⟩ := hdone.ends.of_done
    cases hvalue
    obtain ⟨third, fourth, c₅, c₆, rfl, hthird, hstep', hfourth, -, -⟩ := hread.of_perform
    have hstart := (hstep'.moves q).of_read
    obtain ⟨now, hnow, -⟩ := (hsecond.trans hthird).store_grows.start q old hold
    obtain rfl := hstart.symm.trans hnow
    have hheld := (held_refl hnow).extend ((hfirst.trans (.step hstep hsecond)).trans hthird)
      (.step hstep' (hfourth.trans hdone.steps))
    simpa using hheld

theorem openQueue_held {v : View}
    (h : Performs i (v.openQueue q).run c trace c' (.ok value)) : Held q c trace c' value := by
  obtain ⟨before, after, c₁, t, rfl, hnow, hrest⟩ := h.of_attempt_bind
  obtain ⟨middle, last, c₂, start, rfl, hopen, hrest⟩ := hrest.of_attempt_bind
  obtain ⟨_, _, _, _, rfl, _, hdone⟩ := hrest.of_attempt_bind
  obtain ⟨-, hvalue⟩ := hdone.ends.of_done
  cases hvalue
  have hheld := (establish_held hopen).extend hnow.steps hrest.steps
  rwa [List.append_assoc] at hheld

theorem advance_early (h : c.FaultyStep ⟨i, .store (.swapStart q .below slice), .ok applied⟩ c')
    (hs : c.store.start q = none) : applied = false ∧ c'.store = c.store := by
  have ht := h.tries
  generalize c'.store = s' at ht
  cases ht with
  | answers ha =>
    obtain ⟨hreply, rfl⟩ := ha.store_eq
    simp only [Store.perform, Store.swapApplies, hs, Bool.false_eq_true, ↓reduceIte] at hreply ⊢
    cases hreply
    trivial

end

/-- The browse start of a queue as a register that only grows, whatever tasks of a type do. -/
structure MonotoneRegister (ι : Type) [DecidableEq ι] (q : QueueName) : Prop where
  /-- Once set, it is never unset and never decreases. -/
  grows {c c' : Scene ι} {trace : List (Event ι)} {old : Slice} : FaultySteps c trace c' →
    c.store.start q = some old → ∃ new, c'.store.start q = some new ∧ old ≤ new
  /-- Only an open sets it. -/
  unopened {c c' : Scene ι} {trace : List (Event ι)} : FaultySteps c trace c' →
    c.store.start q = none → (∀ e ∈ trace, ∀ slice, ¬e.Opens q slice) → c'.store.start q = none
  /-- It is the largest of the slice that it was opened at and of all that was proposed since. -/
  largest {c c' : Scene ι} {before after : List (Event ι)} {e : Event ι} {slice : Slice} :
    FaultySteps c (before ++ e :: after) c' → e.Opens q slice →
      ∃ final, c'.store.start q = some final ∧ Largest final (slice :: proposals q after)
  /-- At most one open takes effect. -/
  opens_once {c c' : Scene ι} {before after : List (Event ι)} {e e' : Event ι}
    {slice slice' : Slice} : FaultySteps c (before ++ e :: after) c' → e.Opens q slice →
      e' ∈ before ++ after → ¬e'.Opens q slice'
  /-- Before any open, an advance changes nothing. -/
  early {c c₁ c₂ : Scene ι} {trace : List (Event ι)} {i : ι} {slice : Slice} {applied : Bool} :
    FaultySteps c trace c₁ → c.store.start q = none → (∀ e ∈ trace, ∀ slice, ¬e.Opens q slice) →
      c₁.FaultyStep ⟨i, .store (.swapStart q .below slice), .ok applied⟩ c₂ →
      applied = false ∧ c₂.store = c₁.store
  early_answer {c c' : Scene ι} {trace : List (Event ι)} {i : ι} {slice : Slice}
    {answer : Advance} : Performs i (BrowseStart.advanceTo q slice).run c trace c' (.ok answer) →
      c.store.start q = none → (∀ e ∈ trace, ∀ slice, ¬e.Opens q slice) → answer = .unchanged
  /-- An advance proposes its slice, once, and makes no other call. -/
  proposed {c c' : Scene ι} {trace : List (Event ι)} {i : ι} {slice : Slice}
    {result : Except Error Advance} :
    Performs i (BrowseStart.advanceTo q slice).run c trace c' result →
      ∃ applied, exchanges i trace = [⟨.store (.swapStart q .below slice), applied⟩]
  /-- An advance tells whether it raised the value. -/
  advanced {c c' : Scene ι} {trace : List (Event ι)} {i : ι} {slice : Slice} {answer : Advance} :
    Performs i (BrowseStart.advanceTo q slice).run c trace c' (.ok answer) →
      (answer = .advanced ↔ Raises q i c trace c')
  maintained {c c' : Scene ι} {trace : List (Event ι)} {i : ι} {v : View} {answer : Advance} :
    Performs i (v.advanceBrowseStart q).run c trace c' (.ok answer) →
      (answer = .advanced ↔ Raises q i c trace c')
  /-- An open gives a value that was held meanwhile. -/
  opened {c c' : Scene ι} {trace : List (Event ι)} {i : ι} {slice value : Slice} :
    Performs i (BrowseStart.establish q slice).run c trace c' (.ok value) → Held q c trace c' value
  initialized {c c' : Scene ι} {trace : List (Event ι)} {i : ι} {v : View} {value : Slice} :
    Performs i (v.openQueue q).run c trace c' (.ok value) → Held q c trace c' value
  /-- The order of what is proposed after the open is of no account. -/
  order {c c' d d' : Scene ι} {before after before' after' : List (Event ι)} {e e' : Event ι}
    {slice : Slice} : FaultySteps c (before ++ e :: after) c' → e.Opens q slice →
      FaultySteps d (before' ++ e' :: after') d' → e'.Opens q slice →
      (proposals q after').Perm (proposals q after) → d'.store.start q = c'.store.start q

theorem largest_of_opens [DecidableEq ι] {c c' : Scene ι} {e : Event ι}
    (h : FaultySteps c (before ++ e :: after) c') (he : e.Opens q slice) :
    ∃ final, c'.store.start q = some final ∧ Largest final (slice :: proposals q after) := by
  obtain ⟨c₁, c₂, -, hstep, ha⟩ := h.split_at
  exact ha.largest ((hstep.moves q).of_opens he).2

theorem monotone_register (ι : Type) [DecidableEq ι] (q : QueueName) : MonotoneRegister ι q where
  grows h hs := h.store_grows.start q _ hs
  unopened h hs he := h.unopened hs he
  largest h he := largest_of_opens h he
  opens_once h he hmem := h.opens_once he hmem
  early h hs he hstep := advance_early hstep (h.unopened hs he)
  early_answer := by
    intro c c' trace i slice answer h hs he
    obtain ⟨before, after, c₁, applied, rfl, hcall, hdone⟩ := h.of_attempt_bind
    obtain ⟨first, second, c₂, c₃, rfl, hfirst, hstep, -, -, -⟩ := hcall.of_perform
    have hnone := hfirst.unopened hs fun e hmem => he e (by simp [hmem])
    obtain ⟨rfl, -⟩ := advance_early hstep hnone
    obtain ⟨-, hanswer⟩ := hdone.ends.of_done
    cases hanswer
    rfl
  proposed h := by
    obtain ⟨applied, hpath, -⟩ := BrowseStart.advances_of_ends h.ends
    exact ⟨applied, hpath⟩
  advanced h := h.answers_iff fun _ => BrowseStart.advanced_iff
  maintained h := h.answers_iff fun _ => View.advanceBrowseStart_advanced_iff
  opened := establish_held
  initialized := openQueue_held
  order := by
    intro c c' d d' before after before' after' e e' slice h he h' he' hperm
    obtain ⟨final, hfinal, hl⟩ := largest_of_opens h he
    obtain ⟨final', hfinal', hl'⟩ := largest_of_opens h' he'
    rw [hfinal, hfinal', hl'.unique hl fun s => (hperm.cons slice).mem_iff]

def proposing (slice : Slice) : Attempt Response := do
  return .maintained (← BrowseStart.advanceTo Sample.spool slice)

/-- Two opens, the first of which fails, and three advances, the first of which comes too early. -/
def contenders : Fin 5 → Attempt Response
  | 0 => proposing (.clamp 9)
  | 1 => do return .opened (← BrowseStart.establish Sample.spool (.clamp 7))
  | 2 => (Request.openQueue Sample.spool).perform Sample.view
  | 3 => proposing (.clamp 5)
  | 4 => proposing (.clamp 4)

def contended : List (Event (Fin 5)) × Scene (Fin 5) :=
  playFaulty Sample.twoHours
    [(0, none), (1, some (.unavailable "")), (2, none), (2, none), (3, none), (4, none), (2, none)]
    ⟨.empty, fun i => (contenders i).run⟩

theorem contended_largest : ∃ final, contended.2.store.start Sample.spool = some final ∧
    Largest final [.clamp 1, .clamp 5, .clamp 4] := by
  have htrace : contended.1 = contended.1.take 3 ++
    ⟨2, .store (.swapStart Sample.spool .absent (.clamp 1)), .ok true⟩ :: contended.1.drop 4 := rfl
  have h : FaultySteps _ contended.1 contended.2 := playFaulty_steps _ _ _
  exact (monotone_register (Fin 5) Sample.spool).largest (htrace ▸ h) ⟨2, rfl⟩

end Scene

end SpoolIndex
