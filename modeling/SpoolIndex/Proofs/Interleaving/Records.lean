import SpoolIndex.Proofs.Interleaving.Steps

/-!
# Records among others

Whoever appends an item is a record, and has the queue open and the bucket right
(`Scene.append_of_record`). If it is acknowledged in the end, then browses
reached the item at its second look at the browse start
(`Scene.reaches_of_acknowledged`), and so all the way back to the append.
-/

namespace SpoolIndex

def Contract.shared (found : StoreCall → Store → Prop) (clock : Instant → Prop)
    (own : StoreCall → Store → Prop) : Contract :=
  ⟨Store.Grows, fun c s => s.Proper ∧ found c s, clock, own⟩

section
variable {found : StoreCall → Store → Prop} {clock : Instant → Prop}
  {own : StoreCall → Store → Prop}

theorem Contract.shared_orderly : (Contract.shared found clock own).Orderly := ⟨id, And.left⟩

namespace Scene

variable {c c' : Scene ι} {e : Event ι} {post : Except Error Response → Store → Prop}

theorem Keeps.done (h : c.Keeps i k post) (hd : c.rest i = .done result) :
    ∃ s, post result s ∧ s.Grows c.store := by
  obtain ⟨s, hs, hg⟩ := h
  rw [hd] at hs
  exact ⟨s, hs, hg⟩

variable [DecidableEq ι]

theorem Steps.proper (h : Steps c trace c') (hc : c.store.Proper) : c'.store.Proper :=
  h.store_grows.proper hc

theorem Step.keeps_shared (hstep : c.Step e c') (hs : c.store.Proper)
    (h : c.Keeps i (.shared found clock own) post)
    (hf : ∀ call reply, e = ⟨i, .store call, reply⟩ → found call c.store)
    (hc : ∀ t, e = ⟨i, .now, t⟩ → clock t) :
    c'.Keeps i (.shared found clock own) post ∧
      ∀ call reply, e = ⟨i, .store call, reply⟩ → own call c.store := by
  have hmeets : e.task = i → e.Meets (.shared found clock own) c.store := by
    obtain ⟨j, action, reply⟩ := e
    rintro rfl
    cases action with
    | store call => exact ⟨hs, hf call reply rfl⟩
    | now => exact hc reply rfl
    | _ => trivial
  obtain ⟨hkeeps, hown⟩ := hstep.keeps (fun _ _ hg => hg) h hmeets
  refine ⟨hkeeps, ?_⟩
  rintro call reply rfl
  exact hown call rfl rfl

theorem Steps.keeps_shared (h : Steps c trace c') (hs : c.store.Proper)
    (hk : c.Keeps i (.shared found clock own) post)
    (hf : ∀ (c₁ : Scene ι) call reply, c.store.Grows c₁.store → c₁.store.Grows c'.store →
      ⟨i, .store call, reply⟩ ∈ trace → found call c₁.store)
    (hc : ∀ t, ⟨i, .now, t⟩ ∈ trace → clock t) : c'.Keeps i (.shared found clock own) post := by
  refine (h.invariant (fun c₁ => c.store.Grows c₁.store ∧
    c₁.Keeps i (.shared found clock own) post) ?_ ⟨.refl _, hk⟩).2
  intro c₁ e c₂ hmem hstep hlater ⟨hg, hk₁⟩
  refine ⟨hg.trans hstep.store_grows, (hstep.keeps_shared (hg.proper hs) hk₁ ?_ ?_).1⟩
  · rintro call reply rfl
    exact hf c₁ call reply hg (hstep.store_grows.trans hlater) hmem
  · rintro t rfl
    exact hc t hmem

end Scene

end

namespace Scene

def Sparing (p : Partition) (key : Key) (c : StoreCall) (s : Store) : Prop :=
  s.Spares p key → (s.perform c).2.Spares p key

variable [DecidableEq ι] {views : ι → View} {requests : ι → Request} {s₀ : Store}

theorem Step.spares {c c' : Scene ι} (hstep : c.Step e c') (h : c.store.Spares p key)
    (hc : ∀ i call reply, e = ⟨i, .store call, reply⟩ → Sparing p key call c.store) :
    c'.store.Spares p key := by
  have ha := hstep.answers
  generalize c'.store = s' at ha ⊢
  obtain ⟨i, action, reply⟩ := e
  cases ha with
  | store call => exact hc i call _ rfl h
  | other => exact h

theorem Step.tombstones {c c' : Scene ι} (hstep : c.Step e c')
    (hc : ∀ i call reply, e = ⟨i, .store call, reply⟩ → ∀ q key, call ≠ .putTombstone q key) :
    c'.store.tombstones = c.store.tombstones := by
  have ha := hstep.answers
  generalize c'.store = s' at ha ⊢
  obtain ⟨i, action, reply⟩ := e
  cases ha with
  | store call => exact Store.tombstones_perform (hc i call _ rfl)
  | other => rfl

def recording (r : Request) (v : View) : Contract :=
  .shared (fun _ _ => True) (fun _ => True) fun c s =>
    ∀ x, c = .appendItem x → r.IsRecord ∧ s.start x.queue ≠ none ∧ v.Places x

theorem recording_keeps (r : Request) (v : View) (s : Store) :
    (r.perform v).run.Keeps (recording r v) (fun _ _ => True) s := by
  by_cases hr : r.IsRecord
  · refine Request.keeps_record ⟨Contract.shared_orderly, ?_⟩ hr
    exact fun _ hx x hc => ⟨hr, hx x hc⟩
  · have hreads : (recording r v).AllowsReads := by
      refine ⟨Contract.shared_orderly, ?_⟩
      rintro c s hc x rfl
      exact hc.elim
    refine Request.keeps_upkeep (fun q => ⟨hreads, (fun _ _ h => nomatch h), (fun _ h => nomatch h),
      ?_⟩) hr
    intro s
    refine View.maintain_calls.keeps ?_
    rintro c s (hc | ⟨_, slice, rfl, -⟩) -
    · exact hreads.own_read hc
    · exact fun _ h => nomatch h

section
variable {before : List (Event ι)} {c₁ c₂ : Scene ι}

theorem append_of_record (hs : s₀.Proper) (hb : Steps (opening s₀ views requests) before c₁)
    (ha : c₁.Step ⟨r, .store (.appendItem x), reply⟩ c₂) :
    (requests r).IsRecord ∧ c₁.store.start x.queue ≠ none ∧ (views r).Places x := by
  have hk : c₁.Keeps r (recording (requests r) (views r)) fun _ _ => True :=
    hb.keeps_shared hs ⟨s₀, recording_keeps _ _ s₀, .refl s₀⟩ (fun _ _ _ _ _ _ => trivial)
      fun _ _ => trivial
  have hown := (ha.keeps_shared (hb.proper hs) hk (fun _ _ _ => trivial) fun _ _ => trivial).2
  exact hown _ _ rfl x rfl

theorem keeps_append (hs : s₀.Proper) (hb : Steps (opening s₀ views requests) before c₁)
    (ha : c₁.Step ⟨r, .store (.appendItem x), reply⟩ c₂) (hk : k.AllowsRecords (views r)) :
    (c₂.rest r).Keeps k (fun result s => Reported k x (Request.acknowledged result) s)
      c₂.store := by
  obtain ⟨hr, hopen, -⟩ := append_of_record hs hb ha
  have hrest : (c₁.rest r).AfterAppend k
      fun x result s => Reported k x (Request.acknowledged result) s := by
    refine hb.invariant (fun c => (c.rest r).AfterAppend k _) ?_ (Request.afterAppend hk hr)
    intro c e c' _ hstep _ hc
    by_cases hi : r = e.task
    · obtain ⟨next, hrest, hnext⟩ := hstep.rest_own
      rw [hi] at hc ⊢
      rw [hnext]
      exact (hrest ▸ hc).answered e.reply
    · rw [hstep.rest_other hi]
      exact hc
  obtain ⟨next, hact, hnext⟩ := ha.rest_own
  dsimp only at hact hnext
  rw [hact] at hrest
  obtain ⟨he, hs'⟩ := ha.answers.store_eq
  dsimp only at he
  rw [hnext, he, hs']
  exact hrest.2 x c₁.store rfl hopen

theorem reaches_of_acknowledged {c' : Scene ι} (hs : s₀.Proper)
    (hb : Steps (opening s₀ views requests) before c₁)
    (ha : c₁.Step ⟨r, .store (.appendItem x), reply⟩ c₂) (hl : Steps c₂ later c')
    (hd : c'.rest r = .done result) (hok : Request.acknowledged result) :
    ∃ s, c₂.store.Grows s ∧ s.Reaches x.queue x.slice := by
  have hp : c₂.store.Proper := ha.store_grows.proper (hb.proper hs)
  let k := Contract.shared (fun _ _ => True) (fun _ => True) fun _ _ => True
  have hk : k.Orderly := Contract.shared_orderly
  have hkeeps := keeps_append hs hb ha (k := k) ⟨hk, fun _ _ => trivial⟩
  have hends := hl.keeps_shared hp ⟨c₂.store, hkeeps.grows hk, .refl _⟩
    (fun _ _ _ _ _ _ => trivial) fun _ _ => trivial
  obtain ⟨s, ⟨hr, hg⟩, -⟩ := hends.done hd
  exact ⟨s, hg, hr.reaches.mp hok⟩

end

end Scene

end SpoolIndex
