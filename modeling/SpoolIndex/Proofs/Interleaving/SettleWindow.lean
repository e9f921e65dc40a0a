import SpoolIndex.Proofs.Allocation
import SpoolIndex.Proofs.Interleaving.Records

/-!
# Browse starts stay the settle window behind

Views with one settle window share a store that is empty at first. Whatever
writes the browse start of a queue, the start stays that window behind the latest
slice that the requests to the queue have told of, by their clocks or by the
moments that their items were enqueued at. A record within the window is
therefore never refused (`Scene.settled_never_refused`).
-/

namespace SpoolIndex

namespace Request

def queue : Request → QueueName
  | openQueue q | record q _ | recordAt q _ _ | enqueue q _ | delete q _ _ | deleteMatching q _
  | advance q | browse q _ | size q => q
  | deleteItem x => x.queue

def IsSingle : Request → Prop
  | deleteMatching .. => False
  | _ => True

def IsDirectRecord : Request → Prop
  | record .. | recordAt .. => True
  | _ => False

/-- The moment that a reply tells a request of: the one its item was enqueued at, or else the
reading of a clock, unless the request only reads. -/
def moment? : Request → (action : Action) → action.Reply → Option Instant
  | recordAt _ _ moment, _, _ => some moment
  | browse .., _, _ | size _, _, _ => none
  | _, .now, t => some t
  | _, _, _ => none

end Request

-- ---------------------------------------------------------------------------
-- What a single request proposes
-- ---------------------------------------------------------------------------

/-- The contract of a request that is told of moments of a kind, and proposes for the browse start
of the queue only what is bounded. -/
def Contract.bounding (r : Request) (told : Instant → Prop) (q : QueueName)
    (bounded : Slice → Prop) : Contract :=
  .shared (fun _ _ => True) (fun t => ∀ moment, r.moment? .now t = some moment → told moment)
    fun c _ => ∀ condition slice, c = .swapStart q condition slice → bounded slice

section
variable {told : Instant → Prop} {bounded : Slice → Prop} {v : View} {q : QueueName} {r : Request}
  {s : Store}

theorem Contract.bounding_allowsReads : (bounding r told q bounded).AllowsReads := by
  refine ⟨shared_orderly, ?_⟩
  rintro c s hc condition slice rfl
  exact hc.elim

theorem Request.keeps_bounding (hr : r.IsSingle)
    (hbounded : r.queue = q → ∀ t target, told t → target ≤ v.settleLimit t → bounded target)
    (hdated : ∀ q new moment, r = .recordAt q new moment → told moment) :
    (r.perform v).run.Keeps (.bounding r told q bounded) (fun _ _ => True) s := by
  have hreads : (Contract.bounding r told q bounded).AllowsReads := Contract.bounding_allowsReads
  have hown {t : Instant} {target : Slice} {condition : SwapCondition} {s : Store} (ht : told t)
      (hle : target ≤ v.settleLimit t) :
      (Contract.bounding r told q bounded).own (.swapStart r.queue condition target) s := by
    intro condition' slice he
    cases he
    exact hbounded rfl t target ht hle
  have hupkeep (hclock : ∀ t, (Contract.bounding r told q bounded).clock t → told t) :
      (Contract.bounding r told q bounded).AllowsUpkeep v r.queue := by
    refine ⟨hreads, fun ht => hown (hclock _ ht) (Slice.le_refl _), (fun _ _ h => nomatch h), ?_⟩
    exact View.maintain_bounded (P := fun target => ∃ t, told t ∧ target ≤ v.settleLimit t) hreads
      (fun ⟨t, ht, hle⟩ => hown ht hle) fun t target ht hle => ⟨t, hclock t ht, hle⟩
  have hrecord {new : NewItem} {t : Instant} {s : Store} (ht : told t) :
      (v.recordAt r.queue new t).run.Keeps (.bounding r told q bounded) (fun _ _ => True) s := by
    refine (View.recordAt_keeps_open hreads (fun s => hown ht (Slice.le_refl _)) ?_).mono ?_
    · exact fun _ _ _ _ _ h => nomatch h
    · exact fun _ _ _ => trivial
  cases r with
  | openQueue q => exact keeps_then (View.openQueue_keeps (hupkeep fun t ht => ht t rfl))
  | record q new =>
    refine keeps_then (Attempt.keeps_bind.mpr (Attempt.keeps_lift.mpr fun t ht => ?_))
    exact hrecord (ht t rfl)
  | recordAt q new moment => exact keeps_then (hrecord (hdated q new moment rfl))
  | enqueue q new =>
    exact keeps_then (View.enqueue_of_record fun t key s ht => hrecord (ht t rfl))
  | delete q key slice =>
    exact keeps_then (f := fun _ => .deleted) (View.delete_keeps (hupkeep fun t ht => ht t rfl))
  | deleteItem x =>
    exact keeps_then (f := fun _ => .deleted) (View.delete_keeps (hupkeep fun t ht => ht t rfl))
  | deleteMatching q filter => exact hr.elim
  | advance q =>
    exact keeps_then (View.advanceBrowseStart_keeps (hupkeep fun t ht => ht t rfl).maintain)
  | browse q limit => exact browse_keeps hreads
  | size q => exact keeps_then (size_keeps hreads)

def Contract.looking (r : Request) (told : Instant → Prop) (found : Store → Prop) : Contract :=
  .shared (fun c s => c = .readStart r.queue → found s)
    (fun t => ∀ moment, r.moment? .now t = some moment → told moment) fun _ _ => True

theorem Request.keeps_looking {found : Store → Prop} (hr : r.IsDirectRecord)
    (hreaches : ∀ t s, told t → found s → s.start r.queue ≠ none →
      s.Reaches r.queue (v.allocator.sliceOf t))
    (hdated : ∀ q new moment, r = .recordAt q new moment → told moment) :
    (r.perform v).run.Keeps (.looking r told found)
      (fun result _ => ∃ key, result = .ok (.recorded key)) s := by
  have hrecord {new : NewItem} {t : Instant} {s : Store} (ht : told t) :
      (v.recordAt r.queue new t).run.Keeps (.looking r told found)
        (fun result _ => ∃ key, result = .ok key) s := by
    have hreads : (Contract.looking r told found).AllowsReads :=
      ⟨Contract.shared_orderly, fun _ => trivial⟩
    refine (View.recordAt_keeps_open hreads (fun _ => trivial) fun _ _ _ => trivial).mono ?_
    rintro (e | key) s' ⟨hopen, ⟨-, hfound⟩, hok⟩
    · exact nomatch hok.mpr (hreaches t s' ht (hfound rfl) hopen)
    · exact ⟨key, rfl⟩
  have hthen {x : Attempt Key} {s : Store}
      (h : x.run.Keeps (.looking r told found) (fun result _ => ∃ key, result = .ok key) s) :
      (do return .recorded (← x) : Attempt Response).run.Keeps (.looking r told found)
        (fun result _ => ∃ key, result = .ok (.recorded key)) s := by
    refine Attempt.keeps_bind.mpr (h.mono ?_)
    rintro _ s' ⟨key, rfl⟩
    exact ⟨key, rfl⟩
  cases r with
  | record q new =>
    refine hthen (Attempt.keeps_bind.mpr (Attempt.keeps_lift.mpr fun t ht => ?_))
    exact hrecord (ht t rfl)
  | recordAt q new moment => exact hthen (hrecord (hdated q new moment rfl))
  | _ => exact hr.elim

end

namespace Scene

section
variable (configs : ι → Config) (requests : ι → Request)

def Tells (i : ι) (trace : List (Event ι)) (slice : Slice) : Prop :=
  ∃ e ∈ trace, e.task = i ∧ ∃ t, (requests i).moment? e.action e.reply = some t ∧
    slice = (View.ofConfig (configs i)).allocator.sliceOf t

structure Latest (q : QueueName) (trace : List (Event ι)) (slice : Slice) : Prop where
  told : ∃ i, (requests i).queue = q ∧ Tells configs requests i trace slice
  le : ∀ i m, (requests i).queue = q → Tells configs requests i trace m → m ≤ slice

/-- A slice leaves a window to one that a request to the queue told of. -/
def Behind (window : UInt32) (q : QueueName) (trace : List (Event ι)) (slice : Slice) : Prop :=
  ∃ i m, (requests i).queue = q ∧ Tells configs requests i trace m ∧
    slice.index + window.toNat ≤ m.index

end

section
variable {configs : ι → Config} {requests : ι → Request} {q : QueueName} {trace : List (Event ι)}
  {window : UInt32}

theorem exists_latest (h : Tells configs requests i trace slice) (hq : (requests i).queue = q) :
    ∃ m, Latest configs requests q trace m := by
  by_cases hle : ∀ j m, (requests j).queue = q → Tells configs requests j trace m → m ≤ slice
  · exact ⟨slice, ⟨i, hq, h⟩, hle⟩
  · simp only [Classical.not_forall] at hle
    obtain ⟨j, m, hj, hm, hlater⟩ := hle
    have hlt : slice.index < m.index := Slice.not_le.mp hlater
    exact exists_latest hm hj
termination_by (Slice.highest - slice.index).toNat
decreasing_by
  have hhigh := m.le_highest
  omega

theorem Behind.latest (h : Behind configs requests window q trace slice) :
    ∃ m, Latest configs requests q trace m ∧ slice.index ≤ m.index - window.toNat := by
  obtain ⟨i, told, hq, ht, hle⟩ := h
  obtain ⟨m, hm⟩ := exists_latest ht hq
  have hlater := Slice.le_def.mp (hm.le i told hq ht)
  exact ⟨m, hm, by omega⟩

theorem behind_of_settleLimit (hw : (configs i).settleSlices = window)
    (hq : (requests i).queue = q)
    (ht : Tells configs requests i trace ((View.ofConfig (configs i)).allocator.sliceOf t))
    (hle : target ≤ (View.ofConfig (configs i)).settleLimit t) :
    Behind configs requests window q trace target := by
  refine ⟨i, _, hq, ht, ?_⟩
  have hsettle : (View.ofConfig (configs i)).settleSlices = window := hw
  rw [View.settleLimit, hsettle, Slice.le_def, Allocator.index_back_sliceOf] at hle
  omega

/-- The moment of an item is told by whatever its record does first. -/
theorem tells_recordAt (hr : requests i = .recordAt q new moment) (he : ∃ e ∈ trace, e.task = i) :
    Tells configs requests i trace ((View.ofConfig (configs i)).allocator.sliceOf moment) := by
  obtain ⟨e, he, hi⟩ := he
  exact ⟨e, he, hi, moment, by rw [hr]; rfl, rfl⟩

theorem told_keeps_behind {s : Store} (hw : ∀ i, (configs i).settleSlices = window)
    (hr : (requests i).IsSingle) (he : ∃ e ∈ trace, e.task = i) :
    ((requests i).perform (.ofConfig (configs i))).run.Keeps
      (.bounding (requests i)
        (fun t => Tells configs requests i trace ((View.ofConfig (configs i)).allocator.sliceOf t))
        q (Behind configs requests window q trace)) (fun _ _ => True) s := by
  refine Request.keeps_bounding hr ?_ fun q new moment h => tells_recordAt h he
  exact fun hq t target ht hle => behind_of_settleLimit (hw i) hq ht hle

variable [DecidableEq ι] {c : Scene ι}

theorem start_behind (hw : ∀ i, (configs i).settleSlices = window)
    (hr : ∀ i, (requests i).IsSingle)
    (h : Steps (opening .empty (fun i => .ofConfig (configs i)) requests) trace c)
    (hs : c.store.start q = some start) : Behind configs requests window q trace start := by
  let kept (c : Scene ι) : Prop := ∀ i, (∃ e ∈ trace, e.task = i) →
    c.Keeps i (.bounding (requests i)
      (fun t => Tells configs requests i trace ((View.ofConfig (configs i)).allocator.sliceOf t))
      q (Behind configs requests window q trace)) fun _ _ => True
  refine (h.invariant (fun c => c.store.Proper ∧ kept c ∧ ∀ start, c.store.start q = some start →
    Behind configs requests window q trace start) ?_ ?_).2.2 start hs
  · intro c₁ e c₂ hmem hstep _ ⟨hp, hkept, hstart⟩
    have hkeeps (i : ι) (hi : ∃ e ∈ trace, e.task = i) := by
      refine hstep.keeps_shared hp (hkept i hi) (fun _ _ _ => trivial) ?_
      rintro t rfl moment hm
      exact ⟨_, hmem, rfl, moment, hm, rfl⟩
    refine ⟨hstep.store_grows.proper hp, fun i hi => (hkeeps i hi).1, fun start hs => ?_⟩
    obtain ⟨i, action, reply⟩ := e
    have ha := hstep.answers
    generalize c₂.store = s' at ha hs
    cases ha with
    | store call =>
      rcases Store.start_perform hs with hs | ⟨condition, rfl⟩
      · exact hstart start hs
      · exact (hkeeps i ⟨_, hmem, rfl⟩).2 _ _ rfl condition start rfl
    | other => exact hstart start hs
  · refine ⟨Store.proper_empty, fun i hi => ?_, fun _ h => nomatch h⟩
    exact ⟨_, told_keeps_behind hw (hr i) hi, .refl _⟩

omit [DecidableEq ι] in
theorem opening_record {result : Except Error Response} {s : Store} {views : ι → View}
    (hr : (requests i).IsDirectRecord) : (opening s views requests).rest i ≠ .done result := by
  intro hdone
  change ((requests i).perform (views i)).run = _ at hdone
  cases h : requests i with
  | record q new =>
    rw [h] at hdone
    cases hdone
  | recordAt q new moment =>
    rw [h] at hdone
    cases hkey : new.key <;>
      simp only [Request.perform, View.recordAt, hkey] at hdone <;> cases hdone
  | _ => exact (h ▸ hr).elim

theorem record_acknowledged {before after : List (Event ι)} {result : Except Error Response}
    (hw : ∀ i, (configs i).settleSlices = window) (hr : ∀ i, (requests i).IsSingle)
    (h : Steps (opening .empty (fun i => .ofConfig (configs i)) requests) (before ++ after) c)
    (hrecord : (requests r).IsDirectRecord)
    (hlast : ∀ call reply, ⟨r, .store call, reply⟩ ∉ after)
    (hslice : ∀ start slice, Behind configs requests window (requests r).queue before start →
      Tells configs requests r (before ++ after) slice → start ≤ slice)
    (hdone : c.rest r = .done result) : ∃ key, result = .ok (.recorded key) := by
  obtain ⟨c₁, hb, ha⟩ := h.split_append
  have hbegan : ∃ e ∈ before ++ after, e.task = r := by
    refine Classical.byContradiction fun hidle => ?_
    have hrest := h.rest_idle fun e he hi => hidle ⟨e, he, hi⟩
    exact opening_record hrecord (hrest.symm.trans hdone)
  let found (s : Store) : Prop := ∀ start, s.start (requests r).queue = some start →
    Behind configs requests window (requests r).queue before start
  let told (t : Instant) : Prop :=
    Tells configs requests r (before ++ after) ((View.ofConfig (configs r)).allocator.sliceOf t)
  have hkeeps : ((requests r).perform (.ofConfig (configs r))).run.Keeps
      (.looking (requests r) told found)
      (fun result _ => ∃ key, result = .ok (.recorded key)) Store.empty := by
    refine Request.keeps_looking hrecord ?_ fun q new moment h => tells_recordAt h hbegan
    intro t s ht hfound hopen
    obtain ⟨start, hs⟩ := Option.ne_none_iff_exists'.mp hopen
    exact ⟨start, hs, hslice start _ (hfound start hs) ht⟩
  have hclock (t : Instant) (ht : ⟨r, .now, t⟩ ∈ before ++ after) (moment : Instant)
      (hm : (requests r).moment? .now t = some moment) : told moment :=
    ⟨_, ht, rfl, moment, hm, rfl⟩
  -- a look in `before` finds no more than the start after `before`
  have hbefore := hb.keeps_shared Store.proper_empty ⟨_, hkeeps, .refl _⟩ (by
    rintro c₀ call reply - hg - rfl start hs
    obtain ⟨final, hfinal, hle⟩ := hg.start _ start hs
    obtain ⟨i, m, hi, hm, hmle⟩ := start_behind hw hr hb hfinal
    have hle := Slice.le_def.mp hle
    exact ⟨i, m, hi, hm, by omega⟩)
    fun t ht => hclock t (List.mem_append_left _ ht)
  have hafter := ha.keeps_shared (hb.proper Store.proper_empty) hbefore
    (fun _ call reply _ _ hmem => absurd hmem (hlast call reply))
    fun t ht => hclock t (List.mem_append_right _ ht)
  obtain ⟨_, hok, -⟩ := hafter.done hdone
  exact hok

/-- Every browse start is the settle window behind the latest slice that the requests to its queue
have told of. A record is acknowledged if its slice is at most the window behind the latest slice
that was told of up to its last store call. If a queue is only recorded to, and all its slices lie
within the window of each other, then every record to it is acknowledged. -/
theorem settled_never_refused (hw : ∀ i, (configs i).settleSlices = window)
    (hr : ∀ i, (requests i).IsSingle)
    (h : Steps (opening .empty (fun i => .ofConfig (configs i)) requests) trace c) :
    (∀ q start, c.store.start q = some start →
      ∃ latest, Latest configs requests q trace latest ∧
        start.index ≤ latest.index - window.toNat) ∧
    (∀ r before after latest result, trace = before ++ after → (requests r).IsDirectRecord →
      (∀ call reply, ⟨r, .store call, reply⟩ ∉ after) →
      Latest configs requests (requests r).queue before latest →
      (∀ slice, Tells configs requests r trace slice →
        latest.index - window.toNat ≤ slice.index) →
      c.rest r = .done result → ∃ key, result = .ok (.recorded key)) ∧
    (∀ q, (∀ i, (requests i).queue = q → (requests i).IsDirectRecord) →
      (∀ i j m n, (requests i).queue = q → (requests j).queue = q →
        Tells configs requests i trace m → Tells configs requests j trace n →
        m.index - n.index ≤ window.toNat) →
      ∀ r result, (requests r).queue = q → c.rest r = .done result →
        ∃ key, result = .ok (.recorded key)) := by
  refine ⟨fun q start hs => (start_behind hw hr h hs).latest, ?_, ?_⟩
  · rintro r before after latest result rfl hrecord hlast hlatest hwithin hdone
    refine record_acknowledged hw hr h hrecord hlast ?_ hdone
    rintro start slice ⟨i, m, hi, hm, hle⟩ hslice
    have hm := Slice.le_def.mp (hlatest.le i m hi hm)
    have hwithin := hwithin slice hslice
    exact Slice.le_def.mpr (by omega)
  · rintro _ hrecords hwithin r result rfl hdone
    rw [← List.append_nil trace] at h
    refine record_acknowledged hw hr h (hrecords r rfl) (fun _ _ h => nomatch h) ?_ hdone
    rintro start slice ⟨i, m, hi, hm, hle⟩ hslice
    have hwithin := hwithin i r m slice hi rfl hm (by simpa using hslice)
    exact Slice.le_def.mpr (by omega)

end

def oneHour : Instant := .startOf 3600 (by decide) (by decide)

def racing : Bool → Request
  | true => .record Sample.spool Sample.mail
  | false => .recordAt Sample.spool Sample.mail oneHour

/-- The later item opens the queue while the record of the older one is under way. -/
def racingRun : List (Event Bool) × Scene Bool :=
  (opening .empty (fun _ => .ofConfig .default) racing).play Sample.twoHours
    (.replicate 2 false ++ .replicate 6 true ++ .replicate 12 false ++ .replicate 12 true)

theorem racingRun_acknowledged : racingRun.2.store.start Sample.spool = some (.clamp 1) ∧
    ∀ i, ∃ result, racingRun.2.rest i = .done result ∧ ∃ key, result = .ok (.recorded key) := by
  refine ⟨rfl, ?_⟩
  have htold (i : Bool) (m : Slice) (h : Tells (fun _ => .default) racing i racingRun.1 m) :
      m.index = 1 ∨ m.index = 2 := by
    obtain ⟨⟨j, action, reply⟩, he, rfl, t, ht, rfl⟩ := h
    cases j with
    | false =>
      cases ht
      exact .inl (show (Sample.view.allocator.sliceOf oneHour).index = 1 from rfl)
    | true =>
      cases action with
      | now =>
        cases ht
        obtain rfl := play_now he
        exact .inr rfl
      | _ => cases ht
  have hsingle (i : Bool) : (racing i).IsSingle := by cases i <;> trivial
  have hsteps : Steps (opening .empty _ racing) racingRun.1 racingRun.2 := play_steps _ _ _
  have hrecords := (settled_never_refused (fun _ => rfl) hsingle hsteps).2.2 Sample.spool
    (fun i _ => by cases i <;> trivial) (fun i j m n _ _ hm hn => by
      have hm := htold i m hm
      have hn := htold j n hn
      change m.index - n.index ≤ 1
      omega)
  intro i
  cases i with
  | false => exact ⟨_, rfl, hrecords false _ rfl rfl⟩
  | true => exact ⟨_, rfl, hrecords true _ rfl rfl⟩

end Scene

end SpoolIndex
