import SpoolIndex.Proofs.Browse.Watermark
import SpoolIndex.Proofs.Installation.History
import SpoolIndex.Proofs.Operation.Faltering
import SpoolIndex.Proofs.Operation.Spans

/-!
# Upkeep on a faltering store

A delete writes its tombstone or fails, and only the write of the tombstone can make
it fail (`View.delete_ends`). The maintenance after it may move the browse start, but
past no row that is live, whichever of its calls fail and whether or not these take
effect (`View.maintain_advances`).
-/

namespace SpoolIndex

/-- Upkeep of the queue has led from one store to the other: it has buried these keys, and no row in
the buckets of the view has got out of reach while it was live. -/
structure Store.Tended (v : View) (q : QueueName) (keys : List Key) (s s' : Store) : Prop where
  grows : s.Grows s'
  items : s'.items = s.items
  buried : ∀ key, key ∈ s'.tombstones q ↔ key ∈ keys ∨ key ∈ s.tombstones q
  others : ∀ q', q' ≠ q → s'.tombstones q' = s.tombstones q'
  unopened : s.start q = none → s'.start q = none
  guards : ∀ p key, p.queue = q → p.bucket.id < v.allocator.bucketCount →
    s.Guards p key → s'.Guards p key

/-- The store is left as it is, or the browse start of the queue is raised, past no row in the
buckets of the view that is live. -/
def Store.Advances (v : View) (q : QueueName) (s s' : Store) : Prop :=
  s' = s ∨ ∃ start target, s.start q = some start ∧ start < target ∧ s' = s.setStart q target ∧
    ∀ p key, p.queue = q → p.bucket.id < v.allocator.bucketCount → s.Guards p key →
      s.Admits p key target

section
variable {v : View} {q : QueueName} {t : Instant} {s s₁ s' : Store} {keys keys' : List Key}
  {path : List Exchange}

namespace Store

theorem Tended.refl (s : Store) : s.Tended v q [] s :=
  ⟨.refl s, rfl, fun _ => by simp, fun _ _ => rfl, id, fun _ _ _ _ => id⟩

theorem Tended.trans (h : s.Tended v q keys s₁) (h' : s₁.Tended v q keys' s') :
    s.Tended v q (keys ++ keys') s' where
  grows := h.grows.trans h'.grows
  items := h'.items.trans h.items
  buried key := by
    rw [h'.buried, h.buried, List.mem_append, ← or_assoc, or_comm (a := key ∈ keys)]
  others q' hq := (h'.others q' hq).trans (h.others q' hq)
  unopened hs := h'.unopened (h.unopened hs)
  guards p key hq hb hg := h'.guards p key hq hb (h.guards p key hq hb hg)

theorem guards_perform (h : s.Guards p key)
    (hc : ∀ slice, c = .swapStart p.queue .below slice → s.Admits p key slice) :
    (s.perform c).2.Guards p key :=
  have hg := s.grows_perform c
  ⟨hg.proper h.1, h.2.1.grows hg, spares_perform h.2.2 hc⟩

theorem tended_bury (s : Store) (q : QueueName) (key : Key) :
    s.Tended v q [key] (s.bury q key) where
  grows := grows_bury s q key
  items := rfl
  buried k := by simp [mem_tombstones_bury]
  others q' hq := withValue_other _ _ hq
  unopened hs := hs
  guards _ _ _ _ hg := guards_perform (c := .putTombstone q key) hg fun _ h => nomatch h

theorem Advances.tended (h : s.Advances v q s') : s.Tended v q [] s' := by
  obtain rfl | ⟨start, target, hstart, hlt, rfl, hadmits⟩ := h
  · exact .refl s'
  have happlies : s.swapApplies q .below target := by simp [swapApplies, hstart, hlt]
  have hperform : (s.perform (.swapStart q .below target)).2 = s.setStart q target := by
    rw [perform_swapStart happlies]
  rw [← hperform]
  exact {
    grows := grows_perform s _
    items := items_perform fun _ => StoreCall.noConfusion
    buried := fun key => by
      rw [tombstones_perform (fun _ _ => StoreCall.noConfusion)]
      simp
    others := fun q' _ => by rw [tombstones_perform (fun _ _ => StoreCall.noConfusion)]
    unopened := fun hs => by
      rw [hstart] at hs
      cases hs
    guards := fun p key hq hb hg => guards_perform hg fun slice he => by
      cases he
      exact hadmits p key hq hb hg }

end Store

-- ---------------------------------------------------------------------------
-- Maintenance
-- ---------------------------------------------------------------------------

theorem Store.Undergoes.searched (h : s.Undergoes Store.Suffers path s')
    (hp : ∀ x ∈ path, x.action.IsSearching) (t : Instant) : s' = s ∧ s.Falters t path := by
  have hfaltering : s.Undergoes (.faltering t) path s' := by
    refine h.mono_of_mem ?_
    rintro ⟨action, reply⟩ hx s s' hsuffers
    refine ⟨hsuffers, ?_⟩
    cases action with
    | now => exact (hp _ hx).elim
    | _ => trivial
  refine hfaltering.falters fun x hx => ?_
  have hsearching := hp x hx
  cases ha : x.action with
  | store c =>
    rw [ha] at hsearching
    exact hsearching
  | _ => trivial

namespace View

/-- A search that was not cut short passes over no row that is live. -/
theorem admits_of_search (hl : 0 < v.pageSize) (hb : p.bucket.id < v.allocator.bucketCount)
    (hguards : s.Guards p key) (hstart : s.start p.queue = some start)
    (he : (v.firstLiveSlice p.queue left start).run.Ends path (.ok target))
    (hp : s.Falters t path) : s.Admits p key target := by
  have htold := hp.told_or_failed.resolve_right fun ⟨e, hfailed⟩ => by
    cases firstLiveSlice_givesUp path _ e he hfailed
  have hadmits : (v.firstLiveSlice p.queue left start).run.Keeps
      (.alone (Store.Guards p key) t) _ s :=
    firstLiveSlice_keeps Contract.alone_spares hl hb hguards.2.1 (hguards.2.2.admits hstart)
  exact hadmits.told hguards firstLiveSlice_calls he htold target rfl

theorem Searches.undergone (h : v.Searches q start t search found)
    (hs : s.Undergoes Store.Suffers (looked q start t search) s') :
    s' = s ∧ s.start q = some start ∧ s.Falters t search := by
  obtain _ | ⟨hread, hs⟩ := hs
  obtain _ | ⟨hnow, hs⟩ := hs
  have hstart : s.start q = some start := Except.ok.inj hread.of_ok.1
  obtain rfl := hread.of_read trivial
  obtain rfl := hnow.of_other fun _ => nofun
  obtain ⟨rfl, hfalters⟩ := hs.searched (firstLiveSlice_takes.ends h.2) t
  exact ⟨rfl, hstart, hfalters⟩

theorem maintain_advances (hl : 0 < v.pageSize) (he : (v.maintain q).run.Ends path result)
    (hs : s.Undergoes Store.Suffers path s') : s.Advances v q s' := by
  obtain ⟨hreads, -⟩ | ⟨start, t, search, target, applied, hsearch, hlt, rfl, -⟩ :=
    (maintains_of_ends he).reads_or_raises
  · left
    refine hs.keeps (R := fun s s' => s' = s) (fun _ => rfl) (fun h h' => h'.trans h) ?_
    rintro ⟨action, reply⟩ hx s s' hsuffers
    cases action with
    | store c => exact hsuffers.of_read (hreads _ hx)
    | _ => exact hsuffers.of_other fun _ => nofun
  · obtain ⟨s₁, hlooked, _ | ⟨hswap, hdone⟩⟩ := Store.undergoes_append.mp hs
    obtain ⟨rfl, hstart, hfalters⟩ := hsearch.undergone hlooked
    cases hdone
    have happlies : s₁.swapApplies q .below target := by simp [Store.swapApplies, hstart, hlt]
    have hraised : s' = s₁ ∨ s' = s₁.setStart q target := by
      obtain ⟨-, rfl⟩ | ⟨_, -, rfl | rfl⟩ := hswap.of_call
      · exact .inr (by rw [Store.perform_swapStart happlies])
      · exact .inl rfl
      · exact .inr (by rw [Store.perform_swapStart happlies])
    refine hraised.imp_right fun hs' => ⟨start, target, hstart, hlt, hs', ?_⟩
    rintro p key rfl hb hguards
    exact admits_of_search hl hb hguards hstart hsearch.2 hfalters

theorem advanceBrowseStart_advances (hl : 0 < v.pageSize)
    (he : (v.advanceBrowseStart q).run.Ends path result)
    (hs : s.Undergoes Store.Suffers path s') : s.Advances v q s' := by
  obtain ⟨middle, m, told, outcome, rfl, hmaintain, htold, -⟩ := advanceBrowseStart_ends he
  obtain _ | ⟨hspan, _ | ⟨henter, hs⟩⟩ := hs
  obtain ⟨s₁, hmiddle, _ | ⟨hleave, hs⟩⟩ := Store.undergoes_append.mp hs
  obtain ⟨s₂, htelling, _ | ⟨hcount, hdone⟩⟩ := Store.undergoes_append.mp hs
  obtain rfl := hspan.of_report
  obtain rfl := henter.of_report
  obtain rfl := hleave.of_report
  obtain rfl := htelling.of_reporting (reportMaintenance_reports.ends htold)
    fun _ _ _ _ h => h.of_report
  obtain rfl := hcount.of_report
  cases hdone
  exact maintain_advances hl hmaintain hmiddle

/-- What fails in a maintenance run fails inside of its span. -/
theorem advanceBrowseStart_shields (he : (v.advanceBrowseStart q).run.Ends path result) :
    ¬FailsOutside "view.maintenance" c path := by
  obtain ⟨middle, m, told, outcome, rfl, hmaintain, htold, -⟩ := advanceBrowseStart_ends he
  have hmiddle : ∀ x ∈ middle, x.action ≠ .report .leave := by
    intro x hx hleave
    have hmaintains := maintain_takes.ends hmaintain x hx
    rw [hleave] at hmaintains
    exact hmaintains
  have hafter : Reporting (⟨.report .leave, ()⟩ :: (told ++
      [⟨.report (.count .browseStartUpdates [("queue", q.text), ("result", outcome)]), ()⟩])) := by
    refine List.forall_mem_cons.mpr ⟨trivial, List.forall_mem_append.mpr ⟨?_, ?_⟩⟩
    · exact reportMaintenance_reports.ends htold
    · exact List.forall_mem_singleton.mpr trivial
  exact fun hfails => hafter.not_failsOutside (hfails.after_report.after_span hmiddle)

-- ---------------------------------------------------------------------------
-- Deletes
-- ---------------------------------------------------------------------------

theorem undergoes_buried {fate : Fate}
    (hf : ∀ s r reply s', fate s (.report r) reply s' → s' = s)
    (hs : s.Undergoes fate (buried q key slice written) s') :
    fate s (.store (.putTombstone q key)) written s' := by
  obtain ⟨s₁, hs, hcounted⟩ := Store.undergoes_append.mp hs
  obtain _ | ⟨hspan, _ | ⟨henter, _ | ⟨hput, _ | ⟨hleave, hdone⟩⟩⟩⟩ := hs
  obtain rfl := hf _ _ _ _ hspan
  obtain rfl := hf _ _ _ _ henter
  obtain rfl := hf _ _ _ _ hleave
  cases hdone
  rwa [hcounted.of_reporting (counted_reports q written) hf]

theorem Follows.advances (h : v.Follows q due rest) (hl : 0 < v.pageSize)
    (hs : s.Undergoes Store.Suffers rest s') : s.Advances v q s' := by
  cases h with
  | skipped =>
    cases hs
    exact .inl rfl
  | @maintained middle outcome hmiddle =>
    obtain _ | ⟨henter, hs⟩ := hs
    obtain ⟨s₁, hmaintain, _ | ⟨hleave, hs⟩⟩ := Store.undergoes_append.mp hs
    obtain rfl := henter.of_report
    obtain rfl := hleave.of_report
    obtain rfl := hs.of_reporting (warned_reports outcome) fun _ _ _ _ h => h.of_report
    exact advanceBrowseStart_advances hl hmiddle hmaintain

theorem Follows.not_within (h : v.Follows q due rest) : ¬Within "view.maintenance" rest := by
  cases h with
  | skipped => exact not_within_of_mem fun _ hx => nomatch hx
  | @maintained middle outcome _ =>
    have hsplit : ⟨.report (.enter "view.delete"), ()⟩ ::
        (middle ++ ⟨.report .leave, ()⟩ :: warned outcome) =
        (⟨.report (.enter "view.delete"), ()⟩ :: middle ++ [⟨.report .leave, ()⟩]) ++
          warned outcome := by simp
    rw [hsplit]
    refine fun hwithin => hwithin.of_append.elim not_within_left (not_within_of_mem ?_)
    cases outcome <;> simp [warned]

theorem Follows.shields (h : v.Follows q due rest) : ¬FailsOutside "view.maintenance" c rest := by
  cases h with
  | skipped => exact fun hfails => nomatch hfails.mem
  | @maintained middle outcome hmiddle =>
    have hafter : Reporting (⟨.report .leave, ()⟩ :: warned outcome) :=
      List.forall_mem_cons.mpr ⟨trivial, warned_reports outcome⟩
    exact fun hfails => hfails.after_report.of_append.elim (advanceBrowseStart_shields hmiddle)
      hafter.not_failsOutside

/-- A delete fails only if the write of its tombstone does, which may have taken effect. Otherwise
the tombstone is written, and upkeep is all that comes after it. -/
theorem delete_ends (hl : 0 < v.pageSize) (he : (v.delete q key slice).run.Ends path result)
    (hs : s.Undergoes (.faltering t) path s') :
    ¬Within "view.maintenance" path ∧
      ((∃ e keys, result = .error e ∧ (keys = [] ∨ keys = [key]) ∧ s.Tended v q keys s' ∧
          FailsOutside "view.maintenance" (.putTombstone q key) path) ∨
        result = .ok () ∧ s.Tended v q [key] s' ∧
          ∀ c, ¬FailsOutside "view.maintenance" c path) := by
  have hput {written : Except Error Unit} {s' : Store}
      (h : s.Undergoes (.faltering t) (buried q key slice written) s') :
      s.Suffers (.store (.putTombstone q key)) written s' :=
    (undergoes_buried (fun _ _ _ _ h => h.1.of_report) h).1
  cases deletes_of_ends he with
  | failed e =>
    have hburied : ∃ keys, (keys = [] ∨ keys = [key]) ∧ s.Tended v q keys s' := by
      obtain ⟨hreply, -⟩ | ⟨_, -, rfl | rfl⟩ := (hput hs).of_call
      · cases hreply
      · exact ⟨[], .inl rfl, .refl _⟩
      · exact ⟨[key], .inr rfl, Store.tended_bury s q key⟩
    obtain ⟨keys, hkeys, htended⟩ := hburied
    refine ⟨not_within_of_mem (by simp [buried, counted]), .inl ⟨e, keys, rfl, hkeys, htended, ?_⟩⟩
    have hfailed : .putTombstone q key ∈ failedCalls (buried q key slice (.error e)) :=
      mem_failedCalls.mpr ⟨e, by simp [buried, counted]⟩
    exact (failsOutside_iff (by simp [buried, counted])).mpr hfailed
  | written hasked hrest =>
    have hcounts := maintenanceIsDue_takes.ends hasked
    obtain ⟨s₁, hbury, hs⟩ := Store.undergoes_append.mp hs
    obtain ⟨s₂, hasking, hs⟩ := Store.undergoes_append.mp hs
    obtain rfl : s₁ = s.bury q key := (hput hbury).of_ok.2
    obtain ⟨rfl, -⟩ := hasking.falters (Operation.Takes.ends maintenanceIsDue_calls hasked)
    have htended := (hrest.advances hl (hs.mono fun _ _ _ _ h => h.1)).tended
    refine ⟨?_, .inr ⟨rfl, (Store.tended_bury s q key).trans htended, ?_⟩⟩
    · intro hwithin
      obtain hwithin | hwithin := hwithin.of_append
      · exact not_within_of_mem (by simp [buried, counted]) hwithin
      obtain hwithin | hwithin := hwithin.of_append
      · exact not_within_of_mem (fun x hx => by simp [hcounts x hx]) hwithin
      · exact hrest.not_within hwithin
    · intro c hfails
      obtain hfails | hfails := hfails.of_append
      · exact List.not_mem_nil hfails.mem
      obtain hfails | hfails := hfails.of_append
      · obtain ⟨e, hx⟩ := mem_failedCalls.mp hfails.mem
        cases hcounts _ hx
      · exact hrest.shields hfails

end View

end

end SpoolIndex
