import SpoolIndex.Proofs.Interleaving.Records

/-!
# Late records that are overtaken

A record and a maintenance run of the same queue race, and the record is
acknowledged. `Scene.overtaken_iff` tells when its item ends up behind the browse
start all the same: maintenance looked whether the partition has items before
the append, and raises the browse start past the item after the record took its
second look at it.
-/

namespace SpoolIndex

inductive Racer where
  | writer
  | keeper
deriving DecidableEq

namespace Scene

def race (s : Store) (configs : Racer → Config) (r : Request) (q : QueueName) : Scene Racer :=
  opening s (fun i => .ofConfig (configs i)) fun
    | .writer => r
    | .keeper => .advance q

variable {p : Partition} {key : Key} {s₀ : Store} {configs : Racer → Config} {r : Request}

def sparing (p : Partition) (key : Key) : Contract :=
  .shared (fun _ _ => True) (fun _ => True) (Sparing p key)

def looking (p : Partition) (key : Key) : Contract :=
  .shared (fun c s => (c = .readStart p.queue → s.start p.queue ≠ none → s.Spares p key) ∧
    (c = .hasItems p → s.Holds p key)) (fun _ => True) (Sparing p key)

theorem writer_keeps (p : Partition) (key : Key) (hr : r.IsRecord) :
    (race s₀ configs r p.queue).Keeps .writer (sparing p key) fun _ _ => True := by
  have hk : (sparing p key).Protects p key := ⟨Contract.shared_orderly, id⟩
  exact ⟨s₀, Request.keeps_record hk.allowsRecords hr, .refl s₀⟩

theorem keeper_keeps (key : Key)
    (hb : p.bucket.id < (View.ofConfig (configs .keeper)).allocator.bucketCount) :
    (race s₀ configs r p.queue).Keeps .keeper (looking p key) fun _ _ => True := by
  have hk : (looking p key).Spares p key fun _ => True :=
    ⟨⟨Contract.shared_orderly, id⟩, fun hf ho => ⟨hf.2.1 rfl ho, trivial⟩, fun _ _ => trivial,
      fun _ hf => hf.2.2 rfl⟩
  have hl := View.ofConfig_pageSize_pos (configs .keeper)
  have hkeeps := Request.keeps (r := .advance p.queue) (s := s₀) hk.toProtects fun s =>
    View.maintain_keeps hk hl hb
  exact ⟨s₀, hkeeps, .refl s₀⟩

section
variable {before after trace : List (Event Racer)} {c c₁ c₂ c' : Scene Racer}

theorem spares_of_looking (h : Steps c trace c') (hs : c.store.Proper)
    (hw : c.Keeps .writer (sparing p key) fun _ _ => True)
    (hk : c.Keeps .keeper (looking p key) fun _ _ => True)
    (hx : c.store.Holds p key) (hspares : c.store.Spares p key) : c'.store.Spares p key := by
  refine (h.invariant (fun c => (c.store.Proper ∧ c.store.Holds p key ∧ c.store.Spares p key) ∧
    c.Keeps .writer (sparing p key) (fun _ _ => True) ∧
    c.Keeps .keeper (looking p key) fun _ _ => True) ?_ ⟨⟨hs, hx, hspares⟩, hw, hk⟩).1.2.2
  intro c₁ e c₂ _ hstep _ ⟨⟨hs, hx, hspares⟩, hw, hk⟩
  have hg := hstep.store_grows
  have hw := hstep.keeps_shared hs hw (fun _ _ _ => trivial) fun _ _ => trivial
  have hk := hstep.keeps_shared hs hk (fun _ _ _ => ⟨fun _ _ => hspares, fun _ => hx⟩)
    fun _ _ => trivial
  refine ⟨⟨hg.proper hs, hx.grows hg, hstep.spares hspares fun i call reply he => ?_⟩, hw.1, hk.1⟩
  cases i with
  | writer => exact hw.2 call reply he
  | keeper => exact hk.2 call reply he

theorem raise_of_lost {e : Event Racer} (hstep : c.Step e c') (h : c.store.Spares p key)
    (h' : ¬c'.store.Spares p key) : ∃ target, p.slice < target ∧
      e = ⟨e.task, .store (.swapStart p.queue .below target), .ok true⟩ ∧
      ¬Sparing p key (.swapStart p.queue .below target) c.store := by
  have ha := hstep.answers
  generalize c'.store = s' at ha h'
  obtain ⟨i, action, reply⟩ := e
  cases ha with
  | other => exact absurd h h'
  | store call =>
    by_cases hcall : ∃ target, call = .swapStart p.queue .below target
    · obtain ⟨target, rfl⟩ := hcall
      have hadmits : ¬c.store.Admits p key target := fun ha =>
        h' (Store.spares_perform h fun slice he => by cases he; exact ha)
      refine ⟨target, Slice.not_le.mp fun hle => hadmits (.inr hle), ?_, fun hs => h' (hs h)⟩
      simp only [Store.perform] at h' ⊢
      split at h'
      · rename_i happ
        simp only [happ, ↓reduceIte]
      · exact absurd h h'
    · exact absurd (Store.spares_perform h fun slice he => absurd ⟨slice, he⟩ hcall) h'

theorem race_tombstones (h : Steps (race s₀ configs r q) trace c) (hs : s₀.Proper)
    (hr : r.IsRecord) : c.store.tombstones = s₀.tombstones := by
  let k := Contract.shared (fun _ _ => True) (fun _ => True)
    fun c _ => ∀ q key, c ≠ .putTombstone q key
  have hreads : k.AllowsReads := by
    refine ⟨Contract.shared_orderly, ?_⟩
    rintro c s hc q key rfl
    exact hc
  have hkeeper {s : Store} : ((View.ofConfig (configs .keeper)).maintain q).run.Keeps k
      (fun _ _ => True) s := by
    refine View.maintain_calls.keeps ?_
    rintro c s (hc | ⟨_, slice, rfl, -⟩) -
    · exact hreads.own_read hc
    · exact fun _ _ h => nomatch h
  have hopening (i : Racer) : (race s₀ configs r q).Keeps i k fun _ _ => True := by
    refine ⟨s₀, ?_, .refl s₀⟩
    cases i with
    | writer =>
      refine Request.keeps_record ⟨Contract.shared_orderly, ?_⟩ hr
      rintro c s hc - q key rfl
      exact hc
    | keeper => exact Request.keeps_then (View.advanceBrowseStart_keeps hkeeper)
  refine (h.invariant (fun c => c.store.Proper ∧ c.store.tombstones = s₀.tombstones ∧
    ∀ i, c.Keeps i k fun _ _ => True) ?_ ⟨hs, rfl, hopening⟩).2.1
  intro c₁ e c₂ _ hstep _ ⟨hs, ht, hk⟩
  have hk' (i : Racer) := hstep.keeps_shared hs (hk i) (fun _ _ _ => trivial) fun _ _ => trivial
  refine ⟨hstep.store_grows.proper hs, ?_, fun i => (hk' i).1⟩
  rw [← ht]
  exact hstep.tombstones fun i call reply he => (hk' i).2 call reply he

variable {x : Item} {reply : Except Error Unit}

theorem spares_of_not_looked (hs : s₀.Proper)
    (hb : Steps (race s₀ configs r x.queue) before c₁)
    (ha : c₁.Step ⟨.writer, .store (.appendItem x), reply⟩ c₂) (hl : Steps c₂ after c)
    (hbuckets : (configs .writer).bucketCount = (configs .keeper).bucketCount)
    (hreach : c₂.store.Reaches x.queue x.slice)
    (hno : ∀ reply, ⟨.keeper, .store (.hasItems x.partition), reply⟩ ∉ before) :
    c.store.Spares x.partition x.key := by
  obtain ⟨hr, hopen, hplaces⟩ := append_of_record hs hb ha
  have hgrows := ha.store_grows
  have hbucket : x.bucket.id < (View.ofConfig (configs .keeper)).allocator.bucketCount :=
    hplaces.bucket_lt_of_count hbuckets
  have hsteps := hb.trans (.step ha (.refl c₂))
  have hw := hsteps.keeps_shared hs (writer_keeps x.partition x.key hr)
    (fun _ _ _ _ _ _ => trivial) fun _ _ => trivial
  have hk : c₂.Keeps .keeper (looking x.partition x.key) fun _ _ => True := by
    refine hsteps.keeps_shared hs (keeper_keeps x.key hbucket) ?_ fun _ _ => trivial
    intro c call reply _ hlater hmem
    refine ⟨fun _ ho => .inr (hreach.of_grows hlater ho), ?_⟩
    rintro rfl
    rcases List.mem_append.mp hmem with hmem | hmem
    · exact absurd hmem (hno reply)
    · cases List.mem_singleton.mp hmem
  refine spares_of_looking hl (hgrows.proper (hb.proper hs)) hw hk ?_ (.inr hreach)
  rw [ha.answers.store_eq.2]
  exact Store.holds_append c₁.store x

theorem reread_of_acknowledged {e : Event Racer} {c₃ c₄ : Scene Racer} (hs : s₀.Proper)
    (hb : Steps (race s₀ configs r x.queue) before c₁)
    (ha : c₁.Step ⟨.writer, .store (.appendItem x), reply⟩ c₂) (hl : Steps c₂ between c₃)
    (he : c₃.Step e c₄) (ht : e.task = .keeper) (hlater : Steps c₄ after c)
    (hdone : c.rest .writer = .done result) (hok : Request.acknowledged result)
    (hlost : ¬c₄.store.Reaches x.queue x.slice) :
    ∃ reply, ⟨.writer, .store (.readStart x.queue), reply⟩ ∈ between := by
  by_cases hread : ∃ reply, ⟨.writer, .store (.readStart x.queue), reply⟩ ∈ between
  · exact hread
  -- otherwise every look at the browse start finds it behind the item
  let k := Contract.shared (fun c s => c = .readStart x.queue → ¬s.Reaches x.queue x.slice)
    (fun _ => True) fun _ _ => True
  have hp₂ := ha.store_grows.proper (hb.proper hs)
  have hp₄ := he.store_grows.proper (hl.proper hp₂)
  have hopen : c₄.store.start x.queue ≠ none := Store.open_grows (append_of_record hs hb ha).2.1
    (ha.store_grows.trans (hl.store_grows.trans he.store_grows))
  let post (result : Except Error Response) := Reported k x (Request.acknowledged result)
  have h₂ : c₂.Keeps .writer k post :=
    ⟨_, keeps_append hs hb ha ⟨Contract.shared_orderly, fun _ _ => trivial⟩, .refl _⟩
  have h₃ : c₃.Keeps .writer k post := by
    refine hl.keeps_shared hp₂ h₂ ?_ fun _ _ => trivial
    rintro c _ reply _ _ hmem rfl
    exact absurd ⟨reply, hmem⟩ hread
  have h₄ : c₄.Keeps .writer k post := by
    refine (he.keeps_shared (hl.proper hp₂) h₃ ?_ fun _ _ => trivial).1
    rintro call reply rfl
    cases ht
  have h₅ := hlater.keeps_shared hp₄ h₄
    (fun _ _ _ hg _ _ _ h => hlost (h.of_grows hg hopen)) fun _ _ => trivial
  obtain ⟨s, hr, -⟩ := h₅.done hdone
  exact absurd (hr.reaches.mp hok) (hr.found.2 rfl)

/-- When the item of an acknowledged record is behind the browse start in the end. -/
theorem overtaken_iff (hs : s₀.Proper)
    (hbuckets : (configs .writer).bucketCount = (configs .keeper).bucketCount)
    (hrace : Steps (race s₀ configs r x.queue) trace c)
    (happend : ⟨.writer, .store (.appendItem x), reply⟩ ∈ trace)
    (hlive : x.key ∉ s₀.tombstones x.queue)
    (hdone : c.rest .writer = .done result) (hok : Request.acknowledged result) :
    ¬c.store.Reaches x.queue x.slice ↔ ∃ target found start, x.slice < target ∧
      [⟨.keeper, .store (.hasItems x.partition), found⟩,
        ⟨.writer, .store (.appendItem x), reply⟩,
        ⟨.writer, .store (.readStart x.queue), start⟩,
        ⟨.keeper, .store (.swapStart x.queue .below target), .ok true⟩].Sublist trace := by
  constructor
  · intro hlost
    obtain ⟨before, after, rfl⟩ := List.append_of_mem happend
    obtain ⟨c₁, c₂, hb, ha, hl⟩ := hrace.split
    obtain ⟨hr, hopen, -⟩ := append_of_record hs hb ha
    have hlost' : ¬c.store.Spares x.partition x.key := by
      rintro (ht | hreach)
      · rw [race_tombstones hrace hs hr] at ht
        exact hlive ht
      · exact hlost hreach
    obtain ⟨s, hg, hreach⟩ := reaches_of_acknowledged hs hb ha hl hdone hok
    have hreach := hreach.of_grows hg (Store.open_grows hopen ha.store_grows)
    have hlook : ∃ found, ⟨.keeper, .store (.hasItems x.partition), found⟩ ∈ before :=
      Classical.byContradiction fun hno => hlost' <|
        spares_of_not_looked hs hb ha hl hbuckets hreach (not_exists.mp hno)
    obtain ⟨between, e, rest, c₃, c₄, rfl, hbetween, he, hrest, hsp, hnsp⟩ :=
      hl.exists_step (P := fun c => c.store.Spares x.partition x.key) (.inr hreach) hlost'
    obtain ⟨target, hlt, heq, hraise⟩ := raise_of_lost he hsp hnsp
    have hkeeper : e.task = .keeper := by
      cases ht : e.task with
      | keeper => rfl
      | writer =>
        have hsteps := hb.trans (.step ha hbetween)
        have hw := hsteps.keeps_shared hs (writer_keeps x.partition x.key hr)
          (fun _ _ _ _ _ _ => trivial) fun _ _ => trivial
        have hown := (he.keeps_shared (hsteps.proper hs) hw (fun _ _ _ => trivial)
          fun _ _ => trivial).2
        rw [ht] at heq
        exact absurd (hown _ _ heq) hraise
    have hread := reread_of_acknowledged hs hb ha hbetween he hkeeper hrest hdone hok
      fun h => hnsp (.inr h)
    obtain ⟨found, hlook⟩ := hlook
    obtain ⟨start, hread⟩ := hread
    refine ⟨target, found, start, hlt, (List.singleton_sublist.mpr hlook).append (.cons_cons _ ?_)⟩
    rw [heq, hkeeper]
    exact (List.singleton_sublist.mpr hread).append (.cons_cons _ (List.nil_sublist rest))
  · rintro ⟨target, found, start, hlt, hsub⟩ ⟨last, hlast, hle⟩
    have hmem := hsub.subset (List.mem_cons_of_mem _ (List.mem_cons_of_mem _
      (List.mem_cons_of_mem _ List.mem_cons_self)))
    obtain ⟨before, after, rfl⟩ := List.append_of_mem hmem
    obtain ⟨c₁, c₂, -, he, hl⟩ := hrace.split
    obtain ⟨hreply, hstore⟩ := he.answers.store_eq
    obtain ⟨new, hnew, hge⟩ := hl.store_grows.start x.queue target
      (hstore ▸ Store.start_of_swapped hreply.symm)
    obtain rfl : new = last := Option.some.inj (hnew.symm.trans hlast)
    exact absurd (Slice.le_trans hge hle) (Slice.not_le.mpr hlt)

end

/-- An item of the first hour is recorded when the settle window has passed it. -/
def lateRace : Scene Racer :=
  race Sample.opened (fun _ => .default) (.recordAt Sample.spool Sample.mail .epoch) Sample.spool

/-- The record runs whole between maintenance's look into the partition and its write. -/
def lateRun : List (Event Racer) × Scene Racer :=
  lateRace.play Sample.twoHours
    (.replicate 5 .keeper ++ .replicate 13 .writer ++ .replicate 8 .keeper)

def lateItem : Item := Sample.view.itemOf Sample.spool Sample.mail default .epoch

/-- The record is acknowledged, and browses never come to its item. -/
theorem lateRun_overtaken : lateRun.2.rest .writer = .done (.ok (.recorded default)) ∧
    lateRun.2.rest .keeper = .done (.ok (.maintained .advanced)) ∧
    lateItem.slice < Sample.view.settleLimit Sample.twoHours ∧
    ¬lateRun.2.store.Reaches Sample.spool lateItem.slice ∧
    ∃ target found start, lateItem.slice < target ∧
      [⟨.keeper, .store (.hasItems lateItem.partition), found⟩,
        ⟨.writer, .store (.appendItem lateItem), .ok ()⟩,
        ⟨.writer, .store (.readStart Sample.spool), start⟩,
        ⟨.keeper, .store (.swapStart Sample.spool .below target), .ok true⟩].Sublist lateRun.1 := by
  have hlost : ¬lateRun.2.store.Reaches Sample.spool lateItem.slice := by
    rintro ⟨start, hs, hle⟩
    have hstart : lateRun.2.store.start Sample.spool = some (.clamp 1) := rfl
    obtain rfl : .clamp 1 = start := Option.some.inj (hstart.symm.trans hs)
    exact absurd hle (by decide)
  refine ⟨rfl, rfl, by decide, hlost, ?_⟩
  have happend : ⟨.writer, .store (.appendItem lateItem), .ok ()⟩ ∈ lateRun.1 :=
    List.mem_of_getElem? (i := 10) rfl
  have hdone : lateRun.2.rest .writer = .done (.ok (.recorded default)) := rfl
  have hrace : Steps (race Sample.opened (fun _ => .default)
      (.recordAt Sample.spool Sample.mail .epoch) lateItem.queue) lateRun.1 lateRun.2 :=
    play_steps _ _ _
  have hlive : lateItem.key ∉ [] := List.not_mem_nil
  exact (overtaken_iff Sample.opened_proper rfl hrace happend hlive hdone rfl).mp hlost

end Scene

end SpoolIndex
