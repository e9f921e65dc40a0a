import SpoolIndex.Proofs.Interleaving.Records

/-!
# Settled records are not overtaken

A maintenance run that began before an append has perhaps looked into the
partition already and may raise the browse start past the item later on. If
every such run has its limit at the item's slice or before it, an acknowledged
record stays within reach until its key has a tombstone
(`Scene.settled_record_reached`). Runs that begin after the append see the item,
whatever their limits.
-/

namespace SpoolIndex

/-- A maintenance run of the task looked up the browse start in `before`, and raises it in
`after`. A request makes one run at most, but for a bulk delete, whose runs count as one. -/
structure Straddles (m : ι) (q : QueueName) (before after : List (Event ι)) : Prop where
  began : ∃ reply, ⟨m, .store (.readStart q), reply⟩ ∈ before
  raises : ∃ slice reply, ⟨m, .store (.swapStart q .below slice), reply⟩ ∈ after

namespace Scene

variable {p : Partition} {key : Key} {s₀ : Store} {views : ι → View} {requests : ι → Request}

def settled (v : View) (p : Partition) (key : Key) : Contract :=
  .shared (fun _ _ => True) (fun t => v.settleLimit t ≤ p.slice) (Sparing p key)

def late (p : Partition) (key : Key) : Contract :=
  .shared (fun c s => c = .readStart p.queue → s.Spares p key ∧ s.Holds p key) (fun _ => True)
    (Sparing p key)

theorem settled_keeps (r : Request) (v : View) (s : Store) :
    (r.perform v).run.Keeps (settled v p key) (fun _ _ => True) s := by
  have hk : (settled v p key).Settled v p key := ⟨⟨Contract.shared_orderly, id⟩, id⟩
  exact Request.keeps hk.toProtects fun s => View.maintain_settled hk

theorem late_keeps (r : Request) {v : View} (hl : 0 < v.pageSize)
    (hb : p.bucket.id < v.allocator.bucketCount) (s : Store) :
    (r.perform v).run.Keeps (late p key) (fun _ _ => True) s := by
  have hk : (late p key).Spares p key (Store.Holds · p key) :=
    ⟨⟨Contract.shared_orderly, id⟩, fun hf _ => hf.2 rfl, fun h hg => h.grows hg, fun h _ => h⟩
  exact Request.keeps hk.toProtects fun s => View.maintain_keeps hk hl hb

/-- Every task keeps to the contract that its place in the run gives it: settled if its run
straddles the append, late if no run of it began before the append. -/
def Guarded (views : ι → View) (p : Partition) (key : Key) (before between : List (Event ι))
    (c : Scene ι) : Prop :=
  ∀ m, (Straddles m p.queue before between → c.Keeps m (settled (views m) p key) fun _ _ => True) ∧
    ((∀ reply, ⟨m, .store (.readStart p.queue), reply⟩ ∉ before) →
      c.Keeps m (late p key) fun _ _ => True)

theorem opening_guarded (hl : ∀ i, 0 < (views i).pageSize)
    (hb : ∀ i, p.bucket.id < (views i).allocator.bucketCount) :
    Guarded views p key before between (opening s₀ views requests) := fun m =>
  ⟨fun _ => ⟨s₀, settled_keeps _ _ s₀, .refl s₀⟩,
    fun _ => ⟨s₀, late_keeps _ (hl m) (hb m) s₀, .refl s₀⟩⟩

variable [DecidableEq ι] {before between : List (Event ι)} {c c' : Scene ι}

theorem Guarded.step (h : Guarded views p key before between c)
    (hstep : c.Step e c') (hs : c.store.Proper)
    (hclock : ∀ m t, Straddles m p.queue before between → e = ⟨m, .now, t⟩ →
      (views m).settleLimit t ≤ p.slice)
    (hfound : ∀ m reply, (∀ reply, ⟨m, .store (.readStart p.queue), reply⟩ ∉ before) →
      e = ⟨m, .store (.readStart p.queue), reply⟩ → c.store.Spares p key ∧ c.store.Holds p key) :
    Guarded views p key before between c' ∧
      ∀ m call reply, e = ⟨m, .store call, reply⟩ → (Straddles m p.queue before between ∨
        ∀ reply, ⟨m, .store (.readStart p.queue), reply⟩ ∉ before) →
          Sparing p key call c.store := by
  have hsettled {m : ι} (hm : Straddles m p.queue before between) :=
    hstep.keeps_shared hs ((h m).1 hm) (fun _ _ _ => trivial) fun t => hclock m t hm
  have hlate {m : ι} (hm : ∀ reply, ⟨m, .store (.readStart p.queue), reply⟩ ∉ before) := by
    refine hstep.keeps_shared hs ((h m).2 hm) ?_ fun _ _ => trivial
    rintro _ reply he rfl
    exact hfound m reply hm he
  refine ⟨fun m => ⟨fun hm => (hsettled hm).1, fun hm => (hlate hm).1⟩, ?_⟩
  rintro m call reply he (hm | hm)
  · exact (hsettled hm).2 call reply he
  · exact (hlate hm).2 call reply he

theorem Guarded.until_append (h : Guarded views p key before between c) (hsteps : Steps c before c')
    (hs : c.store.Proper)
    (hclock : ∀ m t, Straddles m p.queue before between → ⟨m, .now, t⟩ ∈ before →
      (views m).settleLimit t ≤ p.slice) : Guarded views p key before between c' := by
  refine (hsteps.invariant (fun c => c.store.Proper ∧ Guarded views p key before between c)
    ?_ ⟨hs, h⟩).2
  intro c e c' hmem hstep _ ⟨hs, hg⟩
  refine ⟨hstep.store_grows.proper hs, (hg.step hstep hs ?_ ?_).1⟩
  · rintro m t hm rfl
    exact hclock m t hm hmem
  · rintro m reply hm rfl
    exact absurd hmem (hm reply)

theorem Guarded.spares (h : Guarded views p key before between c) (hsteps : Steps c between c')
    (hs : c.store.Proper) (hx : c.store.Holds p key) (hspares : c.store.Spares p key)
    (hclock : ∀ m t, Straddles m p.queue before between → ⟨m, .now, t⟩ ∈ between →
      (views m).settleLimit t ≤ p.slice) : c'.store.Spares p key := by
  refine (hsteps.invariant (fun c => (c.store.Proper ∧ c.store.Holds p key ∧ c.store.Spares p key) ∧
    Guarded views p key before between c) ?_ ⟨⟨hs, hx, hspares⟩, h⟩).1.2.2
  intro c e c' hmem hstep _ ⟨⟨hs, hx, hspares⟩, hg⟩
  have hgrows := hstep.store_grows
  obtain ⟨hg', hown⟩ := hg.step hstep hs (fun m t hm he => hclock m t hm (he ▸ hmem))
    fun _ _ _ _ => ⟨hspares, hx⟩
  refine ⟨⟨hgrows.proper hs, hx.grows hgrows, ?_⟩, hg'⟩
  refine hstep.spares hspares ?_
  rintro m call reply rfl
  by_cases hbegan : ∃ reply, ⟨m, .store (.readStart p.queue), reply⟩ ∈ before
  · by_cases hraises : ∃ slice reply,
        ⟨m, .store (.swapStart p.queue .below slice), reply⟩ ∈ between
    · exact hown m call reply rfl (.inl ⟨hbegan, hraises⟩)
    · refine fun h => Store.spares_perform h fun slice he => ?_
      subst he
      exact absurd ⟨slice, reply, hmem⟩ hraises
  · exact hown m call reply rfl (.inr (not_exists.mp hbegan))

/-- An acknowledged item stays within reach of browses while its key has no tombstone, if every
maintenance run that straddles its append has its limit at the item's slice or before it. -/
theorem settled_record_reached {configs : ι → Config} {later : List (Event ι)}
    {c₁ c₂ c c' : Scene ι}
    (hs : s₀.Proper) (hbuckets : ∀ i j, (configs i).bucketCount = (configs j).bucketCount)
    (hbefore : Steps (opening s₀ (fun i => .ofConfig (configs i)) requests) before c₁)
    (happend : c₁.Step ⟨r, .store (.appendItem x), reply⟩ c₂)
    (hbetween : Steps c₂ between c) (hlater : Steps c later c')
    (hsettled : ∀ m t, Straddles m x.queue before between →
      ⟨m, .now, t⟩ ∈ before ++ between → (View.ofConfig (configs m)).settleLimit t ≤ x.slice)
    (hdone : c'.rest r = .done result) (hok : Request.acknowledged result)
    (hlive : x.key ∉ c.store.tombstones x.queue) :
    c.store.Reaches x.queue x.slice := by
  obtain ⟨-, hopen, hplaces⟩ := append_of_record hs hbefore happend
  have hopening : Guarded (fun i => .ofConfig (configs i)) x.partition x.key before between
      (opening s₀ (fun i => .ofConfig (configs i)) requests) :=
    opening_guarded (fun i => View.ofConfig_pageSize_pos (configs i))
      fun i => hplaces.bucket_lt_of_count (hbuckets r i)
  have hguard := (hopening.until_append hbefore hs fun m t hm ht =>
    hsettled m t hm (List.mem_append_left _ ht)).step happend (hbefore.proper hs)
      (fun _ _ _ h => nomatch h) fun _ _ _ h => nomatch h
  have hgrows := happend.store_grows
  have hx : c₂.store.Holds x.partition x.key := by
    rw [happend.answers.store_eq.2]
    exact Store.holds_append c₁.store x
  obtain ⟨s, hg, hreach⟩ := reaches_of_acknowledged hs hbefore happend (hbetween.trans hlater) hdone
    hok
  have hspares := hguard.1.spares hbetween (hgrows.proper (hbefore.proper hs)) hx
    (.inr (hreach.of_grows hg (Store.open_grows hopen hgrows)))
    fun m t hm ht => hsettled m t hm (List.mem_append_right _ ht)
  exact hspares.resolve_left hlive

/-- Maintenance is about to raise the browse start of the queue and a record about to append. -/
def settledBefore : List (Event Bool) × Scene Bool :=
  (opening Sample.opened (fun _ => .ofConfig .default) fun
    | true => .record Sample.spool Sample.mail
    | false => .advance Sample.spool).play Sample.twoHours (.replicate 5 false ++ .replicate 6 true)

def settledAppend : List (Event Bool) × Scene Bool := settledBefore.2.play Sample.twoHours [true]

/-- Maintenance ends before the record looks at the browse start. -/
def settledBetween : List (Event Bool) × Scene Bool :=
  settledAppend.2.play Sample.twoHours (.replicate 8 false)

def settledItem : Item := Sample.view.itemOf Sample.spool Sample.mail default Sample.twoHours

theorem settledBetween_reached :
    Straddles false Sample.spool settledBefore.1 settledBetween.1 ∧
      settledBetween.2.store.start Sample.spool = some (.clamp 1) ∧
      settledBetween.2.store.Reaches Sample.spool settledItem.slice := by
  refine ⟨⟨⟨.ok (some (.clamp 0)), List.mem_of_getElem? (i := 2) rfl⟩, .clamp 1, .ok true,
    List.mem_of_getElem? (i := 0) rfl⟩, rfl, ?_⟩
  have happend : settledBefore.2.Step ⟨true, .store (.appendItem settledItem), .ok ()⟩
      settledAppend.2 := (play_steps Sample.twoHours [true] settledBefore.2).single
  have hdone : (settledBetween.2.play Sample.twoHours (.replicate 7 true)).2.rest true =
      .done (.ok (.recorded default)) := rfl
  refine settled_record_reached Sample.opened_proper (fun _ _ => rfl) (play_steps _ _ _) happend
    (play_steps _ _ _) (play_steps _ _ _) ?_ hdone rfl fun h => nomatch h
  intro m t _ ht
  have ht : t = Sample.twoHours := by
    rcases List.mem_append.mp ht with ht | ht <;> exact play_now ht
  subst ht
  decide

end Scene

end SpoolIndex
