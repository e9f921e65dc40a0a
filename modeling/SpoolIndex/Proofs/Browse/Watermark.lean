import SpoolIndex.Proofs.Browse.Search
import SpoolIndex.Proofs.Installation.Runs
import SpoolIndex.Proofs.Operation.Failures

/-!
# Maintenance is exact, all or nothing, and not to be seen

Maintenance takes the browse start to where it belongs and changes nothing else.
If a store call fails, nothing is changed at all. Browses yield the same before
and after, and more maintenance has nothing to do (`View.maintenance_exact`).
-/

namespace SpoolIndex

-- ---------------------------------------------------------------------------
-- Store calls that fail
-- ---------------------------------------------------------------------------

section
open Attempt

theorem Rows.pull_failed {fetch : Option Token → Attempt (Page α)} {rows : Rows α}
    (hfetch : ∀ after, (fetch after).GivesUp) (h : (rows.pull fetch).Ends path value)
    (hfailed : FailedIn e path) : value = (some (.error e), finished) := by
  have hnone {value value' : Option (Except Error α) × Rows α}
      (h : (pure value : Operation _).Ends path value') : value' = (some (.error e), finished) := by
    have hstoreless : (pure value : Operation (Option (Except Error α) × Rows α)).Storeless :=
      trivial
    exact absurd hfailed (hstoreless.not_failed h)
  obtain ⟨ready, next⟩ := rows
  cases ready with
  | cons row ready => exact hnone h
  | nil =>
    cases next with
    | none => exact hnone h
    | some after =>
      obtain ⟨fetching, rest, page, rfl, hpage, h⟩ := Operation.Ends.of_bind h
      have hrest : rest = [] := by
        rcases page with e | ⟨_ | _, _⟩ <;> exact h.of_done.1
      obtain rfl := hrest
      rw [List.append_nil] at hfailed
      obtain rfl := hfetch after fetching page e hpage hfailed
      rw [h.of_done.2]

theorem anyLive_givesUp {fetch : Option Token → Attempt (Page Item)} {rows : Rows Item}
    (hfetch : ∀ after, (fetch after).GivesUp) : (anyLive fetch limit rows).GivesUp := by
  induction limit generalizing rows with
  | zero => exact givesUp_pure
  | succ limit ih =>
    intro path result e h hfailed
    -- a pull itself never fails: the error of a page is the row it gives
    obtain ⟨before, after, value, rfl, hpull, h⟩ := ends_lift_bind h
    obtain hfailed | hfailed := failedIn_append.mp hfailed
    · obtain rfl := Rows.pull_failed hfetch hpull hfailed
      exact h.of_done.2
    · obtain ⟨_ | e' | x, rows'⟩ := value
      · exact givesUp_pure after result e h hfailed
      · exact givesUp_throw after result e h hfailed
      · refine (givesUp_call.bind fun buried => ?_) after result e h hfailed
        cases buried with
        | true => exact ih
        | false => exact (givesUp_lift Operation.calls_event).bind fun _ => givesUp_pure

namespace View

variable {v : View} {q : QueueName}

theorem partitionIsLive_givesUp : (v.partitionIsLive p).GivesUp := by
  refine givesUp_call.bind fun any => ?_
  cases any with
  | true => exact anyLive_givesUp fun _ => givesUp_call
  | false => exact givesUp_pure

theorem sliceIsLive_givesUp : (v.sliceIsLive q slice left bucket).GivesUp := by
  induction left generalizing bucket with
  | zero => exact givesUp_pure
  | succ left ih =>
    refine partitionIsLive_givesUp.bind fun live => ?_
    cases live with
    | true => exact givesUp_pure
    | false => exact ih

theorem firstLiveSlice_givesUp : (v.firstLiveSlice q left slice).GivesUp := by
  induction left generalizing slice with
  | zero => exact givesUp_pure
  | succ left ih =>
    refine sliceIsLive_givesUp.bind fun live => ?_
    cases live with
    | true => exact givesUp_pure
    | false => exact ih

theorem maintain_allOrNothing : (v.maintain q).AllOrNothing where
  givesUp path result e he := by
    rintro ⟨c, hx⟩
    have hlater {start : Slice} {t : Instant} {search : List Exchange}
        (hx : ⟨.store c, .error e⟩ ∈ looked q start t search) : ⟨.store c, .error e⟩ ∈ search := by
      obtain _ | ⟨_, _ | ⟨_, hx⟩⟩ := hx
      exact hx
    have hlooked {start : Slice} {t : Instant} {search : List Exchange} {found : Except Error Slice}
        (h : v.Searches q start t search found)
        (hx : ⟨.store c, .error e⟩ ∈ looked q start t search) : found = .error e :=
      firstLiveSlice_givesUp search found e h.2 ⟨c, hlater hx⟩
    cases maintains_of_ends he with
    | unread =>
      cases List.mem_singleton.mp hx
      rfl
    | unopened => cases List.mem_singleton.mp hx
    | settled => cases List.mem_singleton.mp (hlater hx)
    | unfound hsearch =>
      cases hlooked hsearch hx
      rfl
    | standing hsearch => cases hlooked hsearch hx
    | raising hsearch =>
      obtain hx | hx := List.mem_append.mp hx
      · cases hlooked hsearch hx
      · cases List.mem_singleton.mp hx
        rfl
  readsOnly path e he := by
    obtain ⟨hreads, -⟩ | ⟨_, _, _, _, applied, hsearch, -, rfl, hresult⟩ :=
      (maintains_of_ends he).reads_or_raises
    · exact fun c reply hx => hreads _ hx
    · cases applied <;> cases hresult
      refine readsOnly_append.mpr ⟨fun c reply hx => hsearch.looked_reads _ hx, ?_⟩
      intro c reply hx
      cases List.mem_singleton.mp hx

theorem advanceBrowseStart_allOrNothing : (v.advanceBrowseStart q).AllOrNothing where
  givesUp path result e he := by
    rintro ⟨c, hx⟩
    obtain ⟨middle, m, told, outcome, rfl, hmaintain, htold, rfl⟩ := advanceBrowseStart_ends he
    have hfailed : FailedIn e middle := ⟨c, (mem_overseen htold hx).resolve_right id⟩
    rw [maintain_allOrNothing.givesUp middle m e hmaintain hfailed]
    rfl
  readsOnly path e he := by
    obtain ⟨middle, m, told, outcome, rfl, hmaintain, htold, hresult⟩ := advanceBrowseStart_ends he
    intro c reply hx
    cases m with
    | ok => cases hresult
    | error e' =>
      exact maintain_allOrNothing.readsOnly middle e' hmaintain c reply
        ((mem_overseen htold hx).resolve_right id)

end View

end

-- ---------------------------------------------------------------------------
-- Browses from a later start
-- ---------------------------------------------------------------------------

namespace Outage

variable {s : Store} {t : Instant} {v : View} {q : QueueName}

theorem calm_error? (p : Partition) : (calm s t).error? v p = none := by
  refine List.findSome?_eq_none_iff.mpr fun visit _ => ?_
  cases visit <;> rfl

theorem calm_untilFailure (ps : List Partition) :
    (calm s t).untilFailure v ps = (ps.flatMap ((calm s t).items v)).map .ok := by
  induction ps with
  | nil => rfl
  | cons p ps ih =>
    rw [untilFailure, calm_error?, List.flatMap_cons, List.map_append, ih]

theorem calm_failures (ps : List Partition) : (calm s t).failures v ps = [] := by
  refine List.filterMap_eq_nil_iff.mpr fun p _ => ?_
  rw [calm_error?]
  rfl

theorem drained_calm (hs : s.Proper) (config : Config) (q : QueueName) :
    (Browse.drained (.ofConfig config) q).run.run (calm s t).answer s =
      (.ok (((((calm s t).partitions (.ofConfig config) q).flatMap fun p =>
        (calm s t).live (s.items p)).map .ok, true), []), s) := by
  have hl := View.ofConfig_pageSize_pos config
  have hfan := View.ofConfig_fanOut_pos config
  have hitems : (calm s t).items (.ofConfig config) = fun p => (calm s t).live (s.items p) :=
    funext fun p => items_eq (calm_error? p)
  rw [← hitems]
  cases hp : config.failurePolicy with
  | skipAndContinue =>
    have hrun := drained_skipping (w := calm s t) hs hl hfan hp q
    rw [calm_failures] at hrun
    exact hrun
  | failFast =>
    have hrun := drained_failFast (w := calm s t) hs hl hfan hp q
    rw [calm_untilFailure] at hrun
    exact hrun

theorem live_of_dead (hs : s.Proper) (h : View.hasLive s p = false) :
    (calm s t).live (s.items p) = [] := by
  refine List.filter_eq_nil_iff.mpr fun x hx => ?_
  have hq : x.queue = p.queue := congrArg Partition.queue (hs.placed p x hx)
  have hdead := List.any_eq_false.mp h x hx
  rw [← hq] at hdead
  exact hdead

theorem live_range {start target : Slice} (hs : s.Proper) (last : Slice) (hle : start ≤ target)
    (hdead : ∀ slice, start ≤ slice → slice < target → v.isLive s q slice = false) :
    ((v.range q start last).flatMap fun p => (calm s t).live (s.items p)) =
      (v.range q target last).flatMap fun p => (calm s t).live (s.items p) := by
  rw [Slice.le_def] at hle
  obtain ⟨n, hn⟩ : ∃ n : Nat, start.index + n = target.index :=
    ⟨(target.index - start.index).toNat, by omega⟩
  -- the browse from `start` loses one slice at a time, and with it nothing live
  induction n generalizing start with
  | zero =>
    have he : start = target := Slice.ext_index (by omega)
    rw [he]
  | succ n ih =>
    have hlt : start < target := by
      rw [Slice.lt_def]
      omega
    by_cases hlast : last < start
    · have hlast' : last < target := Int.lt_trans hlast hlt
      rw [View.range, View.range, Slice.upTo_of_lt hlast, Slice.upTo_of_lt hlast']
    · have hmax : start < Slice.max := Int.lt_of_lt_of_le hlt target.le_max
      have hnext := Slice.index_next hmax
      have hskip := ih (by omega : start.next.index ≤ target.index) ?_ (by omega)
      · have hnone : (v.buckets q start).flatMap (fun p => (calm s t).live (s.items p)) = [] := by
          refine List.flatMap_eq_nil_iff.mpr fun p hp => live_of_dead hs ?_
          simpa using List.any_eq_false.mp (hdead start start.le_refl hlt) p hp
        rw [View.range, Slice.upTo_of_le (Slice.not_lt.mp hlast), if_pos hmax, List.flatMap_cons,
          List.flatMap_append, hnone, List.nil_append]
        exact hskip
      · intro slice hslice
        refine hdead slice (Int.le_trans ?_ hslice)
        omega

theorem partitions_of_start (h : s.start q = some start) :
    (calm s t).partitions v q = v.range q start (v.allocator.sliceOf t) := by
  unfold partitions
  simp only [calm, h]

/-- A browse that begins where the browse start belongs yields what it would have yielded before. -/
theorem drained_watermark {reader : Config} {start target : Slice} (t' : Instant) (hs : s.Proper)
    (hstart : s.start q = some start) (htarget : target.index = v.watermark s q t start)
    (hcount : (View.ofConfig reader).allocator.bucketCount = v.allocator.bucketCount) :
    ((Browse.drained (.ofConfig reader) q).run.run (calm s t').answer (s.setStart q target)).1 =
      ((Browse.drained (.ofConfig reader) q).run.run (calm s t').answer s).1 := by
  have hs' : (s.setStart q target).Proper := ⟨hs.sorted, hs.placed⟩
  have hle : start ≤ target := View.le_watermark htarget
  have hlive : (View.ofConfig reader).isLive s q = v.isLive s q := by
    funext slice
    simp only [View.isLive, View.buckets, hcount]
  have hafter := drained_calm (t := t') hs' reader q
  have hanswer : (calm (s.setStart q target) t').answer = (calm s t').answer := by
    rw [calm_answer, calm_answer]
  have hitems : (fun p => (calm (s.setStart q target) t').live ((s.setStart q target).items p)) =
    fun p => (calm s t').live (s.items p) := rfl
  rw [hanswer, partitions_of_start (Store.start_setStart_same s q target), hitems] at hafter
  have hbefore := drained_calm (t := t') hs reader q
  rw [partitions_of_start hstart, live_range hs _ hle] at hbefore
  · rw [hafter, hbefore]
  · intro slice hslice hlt
    rw [hlive]
    exact View.dead_below_watermark htarget hslice hlt

end Outage

-- ---------------------------------------------------------------------------
-- Maintenance
-- ---------------------------------------------------------------------------

namespace View

variable {v : View} {s : Store} {q : QueueName} {t : Instant}

theorem advance_unopened (h : s.start q = none) :
    (v.advanceBrowseStart q).run.run (fun action s => s.answer t action) s =
      (.ok .unchanged, s) := by
  rw [← Outage.calm_answer s t]
  exact Outage.advanceBrowseStart_run (Outage.maintain_unopened h)

theorem advance_open (hs : s.Proper) (hl : 0 < v.pageSize) (h : s.start q = some start) :
    ∃ answer target, (v.advanceBrowseStart q).run.run (fun action s => s.answer t action) s =
        (.ok answer, s.setStart q target) ∧ (answer = .advanced ↔ start < target) ∧
      target.index = v.watermark s q t start := by
  obtain ⟨m, target, hrun, hresult, htarget⟩ := Outage.maintain_run (t := t) hs hl h
  refine ⟨m.result, target, ?_, hresult, htarget⟩
  rw [← Outage.calm_answer s t]
  exact Outage.advanceBrowseStart_run hrun

theorem advance_again (hs : s.Proper) (hl : 0 < v.pageSize)
    (htarget : target.index = v.watermark s q t start) :
    (v.advanceBrowseStart q).run.run (fun action s => s.answer t action) (s.setStart q target) =
      (.ok .unchanged, s.setStart q target) := by
  have hs' : (s.setStart q target).Proper := ⟨hs.sorted, hs.placed⟩
  obtain ⟨answer, last, hrun, hanswer, hlast⟩ :=
    advance_open (v := v) (t := t) hs' hl (Store.start_setStart_same s q target)
  -- neither rows nor tombstones have changed
  have hlast : last.index = v.watermark s q t target := hlast
  have hstays : v.watermark s q t target = target.index := by
    by_cases hlt : start < target
    · exact watermark_again htarget hlt
    · obtain rfl : start = target :=
        Slice.ext_index (Int.le_antisymm (le_watermark htarget) (Int.not_lt.mp hlt))
      exact htarget.symm
  obtain rfl : last = target := Slice.ext_index (hlast.trans hstays)
  cases answer with
  | advanced => exact absurd (hanswer.mp rfl) (Int.lt_irrefl _)
  | unchanged => rw [hrun, Store.setStart_self (Store.start_setStart_same s q last)]

/-- Whatever store call fails, the store stays as it is. -/
theorem advance_failed {answer : (action : Action) → σ → action.Reply × σ} {store : σ → Store}
    {w : σ}
    (hw : ∀ action w, (store w).Tries action (answer action w).1 (store (answer action w).2))
    (hfailed : FailedIn e ((v.advanceBrowseStart q).run.transcript answer w)) :
    ((v.advanceBrowseStart q).run.run answer w).1 = .error e ∧
      store ((v.advanceBrowseStart q).run.run answer w).2 = store w := by
  have hatomic : (v.advanceBrowseStart q).AllOrNothing := advanceBrowseStart_allOrNothing
  have hends := Operation.ends_transcript answer (v.advanceBrowseStart q).run w
  have herror := hatomic.givesUp _ _ e hends hfailed
  have hundergoes := Operation.undergoes_transcript (v.advanceBrowseStart q).run w hw
  rw [herror] at hends
  exact ⟨herror, hundergoes.unchanged (hatomic.readsOnly _ e hends)⟩

/-- Maintenance of an unopened queue does nothing. Otherwise it moves the browse start to where it
belongs, says whether that was further, and changes nothing else; a store call that fails without
effect fails it, and then nothing is changed at all. No browse of the same buckets can tell whether
maintenance was done, and a second run under the same clock has nothing to do. -/
theorem maintenance_exact (config : Config) (past : List StoreCall) (q : QueueName) (t : Instant) :
    let v := View.ofConfig config
    let s := Store.empty.after past
    let op := (v.advanceBrowseStart q).run
    ∃ answer s', op.run (fun action s => s.answer t action) s = (.ok answer, s') ∧
      (s.start q = none → answer = .unchanged ∧ s' = s) ∧
      (∀ start, s.start q = some start → ∃ target, target.index = v.watermark s q t start ∧
        s' = s.setStart q target ∧ (answer = .advanced ↔ start < target)) ∧
      (∀ reader t', reader.bucketCount = config.bucketCount →
        let browse := (Browse.drained (.ofConfig reader) q).run.run fun action s => s.answer t' action
        (browse s').1 = (browse s).1) ∧
      op.run (fun action s => s.answer t action) s' = (.ok .unchanged, s') ∧
      ∀ {σ : Type} (answer : (action : Action) → σ → action.Reply × σ) (store : σ → Store) (w : σ),
        store w = s →
        (∀ action w, (store w).Tries action (answer action w).1 (store (answer action w).2)) →
        ∀ e, FailedIn e (op.transcript answer w) →
          (op.run answer w).1 = .error e ∧ store (op.run answer w).2 = s := by
  intro v s op
  have hs : s.Proper := (Store.grows_after .empty past).proper Store.proper_empty
  have hl : 0 < v.pageSize := ofConfig_pageSize_pos config
  have hfaulty {σ : Type} (answer : (action : Action) → σ → action.Reply × σ) (store : σ → Store)
      (w : σ) (hstore : store w = s)
      (hw : ∀ action w, (store w).Tries action (answer action w).1 (store (answer action w).2))
      (e : Error) (hfailed : FailedIn e (op.transcript answer w)) :
      (op.run answer w).1 = .error e ∧ store (op.run answer w).2 = s := by
    rw [← hstore]
    exact advance_failed hw hfailed
  cases hstart : s.start q with
  | none =>
    have hrun : op.run (fun action s => s.answer t action) s = (.ok .unchanged, s) :=
      advance_unopened hstart
    exact ⟨.unchanged, s, hrun, fun _ => ⟨rfl, rfl⟩, fun _ h => (nomatch h), fun _ _ _ => rfl, hrun,
      hfaulty⟩
  | some start =>
    obtain ⟨answer, target, hrun, hanswer, htarget⟩ := advance_open (v := v) (t := t) hs hl hstart
    refine ⟨answer, s.setStart q target, hrun, fun h => (nomatch h), ?_, ?_,
      advance_again hs hl htarget, hfaulty⟩
    · rintro _ ⟨⟩
      exact ⟨target, htarget, rfl, hanswer⟩
    · intro reader t' hcount
      have hcount : (ofConfig reader).allocator.bucketCount = v.allocator.bucketCount := by
        simp only [v, ofConfig, Allocator.new, hcount]
      have hsame := Outage.drained_watermark t' hs hstart htarget hcount
      rw [Outage.calm_answer] at hsame
      exact hsame

end View

namespace Sample

def deletedMail : List StoreCall :=
  [.putTombstone spool lostItem.key, .appendItem lostItem, .swapStart spool .absent (.clamp 0)]

def unreadable : (action : Action) → Store → action.Reply × Store
  | .store (.hasItems _), s => (.error (.unavailable "down"), s)
  | action, s => s.answer twoHours action

theorem deletedMail_passed :
    let s := Store.empty.after deletedMail
    let op := (view.advanceBrowseStart spool).run
    (∃ s', op.run (fun action s => s.answer twoHours action) s = (.ok .advanced, s') ∧
      s'.start spool = some (.clamp 1) ∧
      ((Browse.drained view spool).run.run (fun action s => s.answer twoHours action) s').1 =
        ((Browse.drained view spool).run.run (fun action s => s.answer twoHours action) s).1 ∧
      op.run (fun action s => s.answer twoHours action) s' = (.ok .unchanged, s')) ∧
    op.run unreadable s = (.error (.unavailable "down"), s) := by
  intro s op
  obtain ⟨answer, s', hrun, -, -, hbrowse, hagain, hfaulty⟩ :=
    View.maintenance_exact .default deletedMail spool twoHours
  have hanswer : Except.ok answer = (.ok .advanced : Except Error Advance) :=
    (congrArg Prod.fst hrun).symm
  have hstart : s'.start spool = some (.clamp 1) :=
    (congrArg (fun result => result.2.start spool) hrun).symm
  cases hanswer
  refine ⟨⟨s', hrun, hstart, hbrowse .default twoHours rfl, hagain⟩, ?_⟩
  have htries : ∀ action s,
      Store.Tries s action (unreadable action s).1 (unreadable action s).2 := by
    intro action s
    unfold unreadable
    split
    · exact .fails _ _
    · exact .answers (Store.answers_answer s twoHours action)
  have hfailed : FailedIn (.unavailable "down")
      ((view.advanceBrowseStart spool).run.transcript unreadable (Store.empty.after deletedMail)) :=
    ⟨.hasItems ⟨spool, .clamp 0, ⟨0⟩⟩, .tail _ (.tail _ (.tail _ (.tail _ (.head _))))⟩
  obtain ⟨herror, hstore⟩ := hfaulty unreadable id s rfl htries _ hfailed
  exact Prod.ext herror hstore

end Sample

end SpoolIndex
