import SpoolIndex.Proofs.Browse.Cuts
import SpoolIndex.Proofs.View.BulkDeletion

/-!
# Bulk operations under skip-and-continue

Under skip-and-continue a page or a tombstone that is not to be had never fails a size
or a bulk delete. It cuts its partition, and the operation succeeds with what no cut
hides (`View.skipAndContinue_reaches`): the size counts these live items only, and the
delete leaves the others without a tombstone. Neither result tells that anything was
skipped.
-/

namespace SpoolIndex

section
variable {v : View} {q : QueueName} {filter : ItemFilter} {s s₁ s' : Store} {t : Instant}
  {keys : List Key} {b : Browse} {cuts : List Cut} {x : Item} {path : List Exchange}

-- ---------------------------------------------------------------------------
-- Opening
-- ---------------------------------------------------------------------------

theorem Browse.ofQueue_falters (hs : s.Proper)
    (he : (Browse.ofQueue q).run.Ends path result) (hp : s.Falters t path) :
    (∃ e, result = .error e) ∧ .readStart q ∈ failedCalls path ∨
      failedCalls path = [] ∧ result = .ok (opened q (s.start q)) := by
  cases hf : failedCalls path with
  | nil =>
    have hkeeps : (Browse.ofQueue q).run.Keeps (.alone (Eq s) t) _ s :=
      ofQueue_keeps (Contract.alone_same hs)
    have hreads : (Browse.ofQueue q).run.Calls StoreCall.IsRead :=
      ofQueue_takes trivial fun _ => trivial
    exact .inr ⟨rfl, (hkeeps.told rfl hreads he (hp.told hf)).1⟩
  | cons c rest =>
    have hc : c ∈ failedCalls path := hf ▸ List.mem_cons_self
    obtain ⟨e, hx⟩ := mem_failedCalls.mp hc
    obtain rfl : c = .readStart q := ofQueue_calls.ends he hx
    exact .inl ⟨⟨e, ofQueue_givesUp path result e he ⟨_, hx⟩⟩, List.mem_cons_self⟩

theorem Browsable.sighted (h : Browsable v q s (v.allocator.sliceOf t) x) :
    Browse.Sighted v q (· ≤ v.allocator.sliceOf t) s (Browse.floor v (s.start q)) x where
  stored := h.stored
  visited := ⟨h.queue, h.bucket, h.timely⟩
  live := h.live
  low_le := by
    obtain ⟨start, hstart, hle⟩ := h.reached
    rw [hstart]
    exact View.le_spot_iff.mpr (View.rank_first_le hle)

theorem Browse.due_opened : Due v q t s cuts (floor v (s.start q)) x ↔
    Browsable v q s (v.allocator.sliceOf t) x ∧ ∀ cut ∈ cuts, ¬cut.Hides x :=
  ⟨fun h => ⟨h.sighted.browsable, h.seen⟩, fun h => ⟨h.1.sighted, h.2⟩⟩

-- ---------------------------------------------------------------------------
-- Sizes
-- ---------------------------------------------------------------------------

theorem View.size_skipping (hv : v.failurePolicy = .skipAndContinue) (hl : 0 < v.pageSize)
    (hfan : 0 < v.fanOut) (hs : s.Proper) (he : (v.size q).run.Ends path result)
    (hp : s.Falters t path) :
    (∃ e, result = .error e) ∧ .readStart q ∈ failedCalls path ∨
      ∃ cuts, Browse.Cuts v q t s (Browse.floor v (s.start q)) (· ∈ failedCalls path) cuts ∧
        ∃ items : List Item, result = .ok items.length ∧ items.Nodup ∧ ∀ x, x ∈ items ↔
          Browsable v q s (v.allocator.sliceOf t) x ∧ ∀ cut ∈ cuts, ¬cut.Hides x := by
  obtain ⟨e, hopen, rfl⟩ | ⟨opening, counting, b, rfl, hopen, hcount⟩ :=
    Attempt.ends_bind_cases he
  · obtain ⟨-, hfailed⟩ | ⟨-, hr⟩ := Browse.ofQueue_falters hs hopen hp
    · exact .inl ⟨⟨e, rfl⟩, hfailed⟩
    · cases hr
  · obtain ⟨hopening, hcounting⟩ := Store.falters_append.mp hp
    obtain ⟨⟨_, hr⟩, -⟩ | ⟨hcalm, hr⟩ := Browse.ofQueue_falters hs hopen hopening
    · cases hr
    obtain rfl := Except.ok.inj hr
    obtain ⟨cuts, hcuts, items, rfl, hnodup, hitems⟩ := countItems_skipping hv hs hl hfan
      (Browse.opened_skipping v q t s _) (Nat.le_refl _) (Nat.le_refl _) hcount hcounting
    rw [failedCalls_append, hcalm, List.nil_append]
    refine .inr ⟨cuts, hcuts, items, by rw [Nat.zero_add], hnodup, fun x => ?_⟩
    rw [hitems, List.nil_append, Browse.due_opened]

-- ---------------------------------------------------------------------------
-- Deletes
-- ---------------------------------------------------------------------------

theorem Store.Tended.due_iff (h : s.Tended v q keys s') :
    Browse.Due v q t s' cuts low x ↔ Browse.Due v q t s cuts low x ∧ x.key ∉ keys := by
  constructor
  · intro hx
    refine ⟨⟨hx.sighted.sooner h.grows h.items (Nat.le_refl _), hx.seen⟩, fun hkey => ?_⟩
    exact hx.sighted.live ((h.buried _).mpr (.inl hkey))
  · rintro ⟨⟨⟨hx, hvisited, hlive, hlow⟩, hseen⟩, hkey⟩
    refine ⟨⟨h.items ▸ hx, hvisited, fun hdead => ?_, hlow⟩, hseen⟩
    exact ((h.buried _).mp hdead).elim hkey hlive

/-- A bulk delete fails only if a tombstone cannot be written, and otherwise has buried the keys of
all that is due and accepted. -/
theorem View.deleteAccepted_skipping (hv : v.failurePolicy = .skipAndContinue)
    (hl : 0 < v.pageSize) (hfan : 0 < v.fanOut) (hs : s.Proper)
    (h : b.Skipping v q t s m cuts low) (hm : m ≤ limit) (hpatience : m ≤ Browse.patience)
    (he : (v.deleteAccepted filter limit n b).run.Ends path result)
    (hs' : s.Undergoes (.faltering t) path s') :
    ∃ keys, s.Swept v q t filter low keys s' ∧
      ((∃ e, result = .error e) ∧
          (∃ key, FailsOutside "view.maintenance" (.putTombstone q key) path) ∨
        result = .ok (n + keys.length) ∧ ∃ new,
          Browse.Cuts v q t s low (FailsOutside "view.maintenance" · path) new ∧
          ∀ key, key ∈ keys ↔
            ∃ x, Browse.Due v q t s (cuts ++ new) low x ∧ filter.accepts x ∧ x.key = key) := by
  induction limit generalizing s b m n cuts low path with
  | zero => exact absurd h.pos (Nat.not_lt.mpr hm)
  | succ limit ih =>
    obtain ⟨pulling, rest, r, rfl, hpull, hrest⟩ := Attempt.ends_lift_bind he
    have hquiet := (Browse.pull_takes Action.browses_outside).ends hpull
    have hreads := (Browse.pull_takes (v := v) (b := b) Action.browses_isBrowsing).reads
    obtain ⟨s₁, hpulling, hresting⟩ := Store.undergoes_append.mp hs'
    obtain ⟨rfl, hfalters⟩ := hpulling.falters (Operation.Takes.ends hreads hpull)
    have hopen : ¬Within "view.maintenance" pulling := not_within_of_mem hquiet
    obtain ⟨new, hnew, hpulled⟩ := h.pull hv hs hl hfan hpatience hpull hfalters
    obtain ⟨_ | e | x, b'⟩ := r
    · obtain ⟨rfl, rfl⟩ := hrest.of_done
      cases hresting
      rw [List.append_nil]
      refine ⟨[], .refl _, .inr ⟨rfl, new, hnew.congr fun c => failsOutside_iff hquiet,
        fun key => ⟨(fun hkey => nomatch hkey), ?_⟩⟩⟩
      rintro ⟨x, hx, -⟩
      exact absurd hx (hpulled x)
    · exact hpulled.elim
    · obtain ⟨hx, ⟨m', hlt, hb'⟩, hall⟩ := hpulled
      have hlow := hx.sighted.low_le
      obtain ⟨e, keys, rfl, hswept, hfails⟩ |
          ⟨before, after, s₂, keys, rfl, hclosed, hcalm, hswept, hkeys, hafter, hends⟩ :=
        accepted_falters (v.deleteAccepted filter limit · b') (fun _ _ _ _ h => h) hl hx.sighted
          hrest hresting
      · exact ⟨keys, hswept, .inl ⟨⟨e, rfl⟩, x.key,
          hfails.later hopen⟩⟩
      · obtain ⟨keys', hswept', hr⟩ := ih (hswept.grows.proper hs)
          (hb'.later hswept.items hswept.grows) (by omega) (by omega) hends hafter
        refine ⟨keys ++ keys', hswept.trans hswept' (by omega), hr.imp ?_ ?_⟩
        · rintro ⟨he, key, hfails⟩
          exact ⟨he, key, (hfails.later hclosed).later hopen⟩
        · rintro ⟨rfl, new', hnew', hdue⟩
          refine ⟨by rw [List.length_append, Nat.add_assoc], new ++ new',
            hnew.append hnew' hswept.items (by omega) fun c => ?_, fun key => ?_⟩
          · rw [failsOutside_append hopen, failsOutside_iff hquiet, failsOutside_append hclosed]
            exact or_congr_right (or_iff_right (hcalm c))
          · have hleft {y : Item} :
                Browse.Due v q t s₂ (cuts ++ new ++ new') (v.spot x + 1) y ↔ _ :=
              hswept.toTended.due_iff
            have hnext {y : Item} := Browse.due_cons (y := y) hx hall hnew'
            rw [List.mem_append, hkeys, hdue, ← List.append_assoc]
            constructor
            · rintro (⟨ha, rfl⟩ | ⟨y, hy, ha, rfl⟩)
              · exact ⟨x, hnext.mpr (.inl rfl), ha, rfl⟩
              · exact ⟨y, hnext.mpr (.inr (hleft.mp hy).1), ha, rfl⟩
            · rintro ⟨y, hy, ha, rfl⟩
              obtain rfl | hy := hnext.mp hy
              · exact .inl ⟨ha, rfl⟩
              · by_cases hkey : y.key ∈ keys
                · exact .inl ((hkeys _).mp hkey)
                · exact .inr ⟨y, hleft.mpr ⟨hy, hkey⟩, ha, rfl⟩

/-- A bulk delete fails only if a call fails that is no lookup, and otherwise has buried the keys of
the accepted live items that no cut hides. -/
theorem View.deleteMatching_skipping (hv : v.failurePolicy = .skipAndContinue)
    (hl : 0 < v.pageSize) (hfan : 0 < v.fanOut) (hs : s.Proper)
    (he : (v.deleteMatching q filter).run.Ends path result)
    (hs' : s.Undergoes (.faltering t) path s') :
    ∃ keys, s.Cleared v q t filter keys s' ∧
      ((∃ e, result = .error e) ∧
          (∃ c, ¬c.IsLookup ∧ FailsOutside "view.maintenance" c path) ∨
        result = .ok keys.length ∧ ∃ cuts,
          Browse.Cuts v q t s (Browse.floor v (s.start q))
            (FailsOutside "view.maintenance" · path) cuts ∧
          ∀ key, key ∈ keys ↔ ∃ x, Browsable v q s (v.allocator.sliceOf t) x ∧
            filter.accepts x ∧ x.key = key ∧ ∀ cut ∈ cuts, ¬cut.Hides x) := by
  have hreads : (Browse.ofQueue q).run.Calls StoreCall.IsRead :=
    Browse.ofQueue_takes trivial fun _ => trivial
  obtain ⟨e, hopen, rfl⟩ | ⟨opening, rest, b, rfl, hopen, hrest⟩ := Attempt.ends_bind_cases he
  · obtain ⟨rfl, hfalters⟩ := hs'.falters (Operation.Takes.ends hreads hopen)
    obtain ⟨-, hfailed⟩ | ⟨-, hr⟩ := Browse.ofQueue_falters hs hopen hfalters
    · exact ⟨[], (Store.Swept.refl _).cleared, .inl ⟨⟨e, rfl⟩, .readStart q, id,
        (failsOutside_iff (Browse.ofQueue_quiet.ends hopen)).mpr hfailed⟩⟩
    · cases hr
  obtain ⟨s₁, hopening, hresting⟩ := Store.undergoes_append.mp hs'
  obtain ⟨rfl, hfalters⟩ := hopening.falters (Operation.Takes.ends hreads hopen)
  obtain ⟨⟨_, hr⟩, -⟩ | ⟨hcalm, hr⟩ := Browse.ofQueue_falters hs hopen hfalters
  · cases hr
  obtain rfl := Except.ok.inj hr
  have hquiet := Browse.ofQueue_quiet.ends hopen
  have hclosed : ¬Within "view.maintenance" opening := not_within_of_mem hquiet
  have hskipping := Browse.opened_skipping v q t s₁ (s₁.start q)
  obtain ⟨e, hdelete, rfl⟩ | ⟨deleting, last, n, rfl, hdelete, hlast⟩ :=
    Attempt.ends_bind_cases hrest
  · obtain ⟨keys, hswept, ⟨-, key, hfails⟩ | ⟨hr, -⟩⟩ := deleteAccepted_skipping hv hl hfan hs
      hskipping (Nat.le_refl _) (Nat.le_refl _) hdelete hresting
    · exact ⟨keys, hswept.cleared, .inl ⟨⟨e, rfl⟩, .putTombstone q key, id,
        hfails.later hclosed⟩⟩
    · cases hr
  · obtain ⟨s₂, hdeleting, hlasting⟩ := Store.undergoes_append.mp hresting
    obtain ⟨keys, hswept, ⟨⟨_, hr⟩, -⟩ | ⟨hr, cuts, hcuts, hkeys⟩⟩ := deleteAccepted_skipping hv hl
      hfan hs hskipping (Nat.le_refl _) (Nat.le_refl _) hdelete hdeleting
    · cases hr
    obtain ⟨_, _, _, rfl, hevent, hdone⟩ := Attempt.ends_lift_bind hlast
    obtain ⟨rfl, rfl⟩ := hdone.of_done
    rw [List.append_nil] at hlasting ⊢
    obtain ⟨rfl, -⟩ := hlasting.falters (Operation.Takes.ends Operation.calls_event hevent)
    have hquiet' := Operation.Storeless.failedCalls Operation.calls_event hevent
    refine ⟨keys, hswept.cleared, .inr ⟨?_, cuts, hcuts.congr fun c => ?_, fun key => ?_⟩⟩
    · rw [Except.ok.inj hr, Nat.zero_add]
    · constructor
      · intro hfails
        obtain hfails | hfails := hfails.of_append
        · exact absurd hfails.mem (hcalm ▸ List.not_mem_nil)
        obtain hfails | hfails := hfails.of_append
        · exact hfails
        · exact absurd hfails.mem (hquiet' ▸ List.not_mem_nil)
      · exact fun hfails => hfails.earlier.later hclosed
    · rw [hkeys]
      constructor
      · rintro ⟨x, hx, ha, rfl⟩
        obtain ⟨hx, hseen⟩ := Browse.due_opened.mp hx
        exact ⟨x, hx, ha, rfl, hseen⟩
      · rintro ⟨x, hx, ha, rfl, hseen⟩
        exact ⟨x, Browse.due_opened.mpr ⟨hx, hseen⟩, ha, rfl⟩

end

/-- While store calls fail, with or without effect, and nobody else writes, a failed lookup never
fails a size or a bulk delete under skip-and-continue. Each of them is a cut, and if nothing else
fails, both succeed with the live items in range that no cut hides: the size is their number, and
the delete has buried the keys of those that are accepted and no others. So a size is right, and a
bulk delete complete, just if no cut hides what it should have come to. -/
theorem View.skipAndContinue_reaches (config : Config)
    (hpolicy : config.failurePolicy = .skipAndContinue) (q : QueueName) (filter : ItemFilter)
    (t : Instant) (answer : (action : Action) → σ → action.Reply × σ) (store : σ → Store) (w : σ)
    (hw : Hosts answer store Eq) (hclock : ∀ w, (answer .now w).1 = t) (hs : (store w).Proper) :
    let v := View.ofConfig config
    let live := Browsable v q (store w) (v.allocator.sliceOf t)
    let start := Browse.floor v ((store w).start q)
    let size := (v.size q).run
    let deletion := (v.deleteMatching q filter).run
    let failed := failedCalls (size.transcript answer w)
    let failedOutside := fun c => FailsOutside "view.maintenance" c (deletion.transcript answer w)
    let last := store (deletion.run answer w).2
    ((∃ e, (size.run answer w).1 = .error e) ∧ .readStart q ∈ failed ∨
      ∃ cuts, Browse.Cuts v q t (store w) start (· ∈ failed) cuts ∧
        ∃ items : List Item, (size.run answer w).1 = .ok items.length ∧ items.Nodup ∧
          ∀ x, x ∈ items ↔ live x ∧ ∀ cut ∈ cuts, ¬cut.Hides x) ∧
    ∃ keys : List Key, keys.Nodup ∧
      (∀ key, key ∈ last.tombstones q ↔ key ∈ keys ∨ key ∈ (store w).tombstones q) ∧
      (∀ q', q' ≠ q → last.tombstones q' = (store w).tombstones q') ∧
      (∀ key ∈ keys, ∃ x, live x ∧ filter.accepts x ∧ x.key = key) ∧
      ((∃ e, (deletion.run answer w).1 = .error e) ∧ (∃ c, ¬c.IsLookup ∧ failedOutside c) ∨
        ∃ cuts, Browse.Cuts v q t (store w) start failedOutside cuts ∧
          (deletion.run answer w).1 = .ok keys.length ∧
          ∀ key, key ∈ keys ↔
            ∃ x, live x ∧ filter.accepts x ∧ x.key = key ∧ ∀ cut ∈ cuts, ¬cut.Hides x) := by
  intro v live start size deletion failed failedOutside last
  have hl := View.ofConfig_pageSize_pos config
  have hfan := View.ofConfig_fanOut_pos config
  have hfate := hw.faltering hclock
  have hends := Operation.ends_transcript answer size w
  have hreads : size.Calls StoreCall.IsRead := size_calls
  obtain ⟨-, hfalters⟩ := (Operation.undergoes_transcript size w hfate).falters
    (Operation.Takes.ends hreads hends)
  obtain ⟨keys, hcleared, hresult⟩ := deleteMatching_skipping hpolicy hl hfan hs
    (Operation.ends_transcript answer deletion w)
    (Operation.undergoes_transcript deletion w hfate)
  refine ⟨size_skipping hpolicy hl hfan hs hends hfalters, keys, hcleared.nodup, hcleared.buried,
    hcleared.others, hcleared.browsable, hresult.imp_right ?_⟩
  rintro ⟨hr, cuts, hcuts, hkeys⟩
  exact ⟨cuts, hcuts, hr, hkeys⟩

namespace Sample

def patientConfig : Config :=
  { eagerConfig with failurePolicy := .skipAndContinue }

def losesFirstSlice : (action : Action) → Store → action.Reply × Store
  | .store (.scanItems p after limit), s =>
    if p.slice = .clamp 0 then (.error (.unavailable "down"), s)
    else s.perform (.scanItems p after limit)
  | action, s => s.answer twoHours action

theorem losesFirstSlice_hosts : Hosts losesFirstSlice id Eq := by
  intro action s
  refine ⟨s, rfl, ?_⟩
  cases action with
  | store c =>
    cases c with
    | scanItems p after limit =>
      simp only [losesFirstSlice]
      split
      · exact .tries (.fails _ _)
      · exact .tries (.answers (.store _))
    | _ => exact .tries (.answers (.store _))
  | _ => exact .tries (.answers (Store.answers_answer s twoHours _))

def firstMail : Item := view.itemOf spool mail default .epoch

theorem firstMail_browsable : Browsable (View.ofConfig patientConfig) spool twoMails
    ((View.ofConfig patientConfig).allocator.sliceOf twoHours) firstMail where
  stored := by
    have hfirst : firstMail ∈ (opened.append firstMail).items firstMail.partition := by
      rw [Store.items_append_same]
      exact List.mem_cons_self
    exact (Store.grows_append _ _).items _ _ hfirst
  queue := rfl
  bucket := by decide +kernel
  live := by decide +kernel
  reached := ⟨.clamp 0, rfl, by decide +kernel⟩
  timely := by decide +kernel

/-- Two mails are counted as one and none is deleted, although one is to be: a page that failed
hides it. -/
theorem firstMail_hidden :
    let v := View.ofConfig patientConfig
    let size := (v.size spool).run
    let deletion := (v.deleteMatching spool (.name "mail")).run
    let calm := fun (action : Action) (s : Store) => s.answer twoHours action
    (size.run losesFirstSlice twoMails).1.toOption = some 1 ∧
      (size.run calm twoMails).1.toOption = some 2 ∧
      (deletion.run losesFirstSlice twoMails).1.toOption = some 0 ∧
      (deletion.run calm twoMails).1.toOption = some 1 ∧
      ∃ cut : Cut, cut.Hides firstMail ∧ FailsOutside "view.maintenance" cut.call
        (deletion.transcript losesFirstSlice twoMails) := by
  intro v size deletion calm
  have hdeleted : (deletion.run losesFirstSlice twoMails).1.toOption = some 0 := by decide +kernel
  refine ⟨by decide +kernel, by decide +kernel, hdeleted, by decide +kernel, ?_⟩
  obtain ⟨-, keys, -, -, -, -, ⟨⟨e, he⟩, -⟩ | ⟨cuts, hcuts, hr, hkeys⟩⟩ :=
    View.skipAndContinue_reaches patientConfig rfl spool (.name "mail") twoHours losesFirstSlice id
      twoMails losesFirstSlice_hosts (fun _ => rfl) twoMails_proper
  · rw [he] at hdeleted
    cases hdeleted
  rw [hr] at hdeleted
  obtain rfl : keys = [] := List.length_eq_zero_iff.mp (Option.some.inj hdeleted)
  -- nothing was deleted, so the mail is hidden
  have hseen : ¬∀ cut ∈ cuts, ¬cut.Hides firstMail := fun hseen => List.not_mem_nil
    ((hkeys firstMail.key).mpr ⟨firstMail, firstMail_browsable, by decide +kernel, rfl, hseen⟩)
  simp only [Classical.not_forall, Classical.not_not] at hseen
  obtain ⟨cut, hcut, hhides⟩ := hseen
  exact ⟨cut, hhides, (hcuts.calls _).mp ⟨cut, hcut, rfl⟩⟩

end Sample

end SpoolIndex
