import SpoolIndex.Proofs.View.BulkDeletion

/-!
# Bulk operations under fail-fast

Under fail-fast a size or a bulk delete that succeeds has seen the whole queue,
whichever store calls failed in its course, with or without effect. A bulk delete
that fails has deleted nothing that it should not, is not failed by its maintenance,
and may be made again as if nothing had happened (`View.failFast_sound`).
-/

namespace SpoolIndex

section
variable {v : View} {q : QueueName} {filter : ItemFilter} {s last s₁ s₂ : Store} {t : Instant}
  {keys keys₁ keys₂ : List Key} {path : List Exchange}

/-- A size under fail-fast that succeeds was told nothing but the truth. -/
theorem View.size_ends (hv : v.failurePolicy = .failFast) (hl : 0 < v.pageSize)
    (hfan : 0 < v.fanOut) (hs : s.Proper) (he : (v.size q).run.Ends path (.ok n))
    (hp : s.Falters t path) : ∃ items : List Item, n = items.length ∧ Listed v q s t items := by
  have hlisted : (v.size q).run.Keeps (.alone (Eq s) t) _ s := size_listed hl hfan hs
  obtain htold | ⟨e, hfailed⟩ := hp.told_or_failed
  · obtain ⟨items, hr, hlist⟩ := hlisted.told rfl size_calls he htold
    exact ⟨items, Except.ok.inj hr, hlist⟩
  · obtain ⟨opening, counting, b, rfl, hopen, hcount⟩ := Attempt.ends_bind he
    obtain ⟨hopening, hcounting⟩ := Store.falters_append.mp hp
    have hopened : ¬∃ e, FailedIn e opening := fun ⟨e, hf⟩ => by
      cases Browse.ofQueue_givesUp opening _ e hopen hf
    have hkeeps : (Browse.ofQueue q).run.Keeps (.alone (Eq s) t) _ s :=
      Browse.ofQueue_keeps (Contract.alone_same hs)
    obtain ⟨hr, -⟩ := hkeeps.told rfl (Browse.ofQueue_takes trivial fun _ => trivial) hopen
      (hopening.told_or_failed.resolve_right hopened)
    obtain rfl := Except.ok.inj hr
    have hlate := (failedIn_append.mp hfailed).resolve_left fun hf => hopened ⟨e, hf⟩
    obtain ⟨_, hr⟩ := countItems_failed hv hs hl hfan (Browse.from_opened v q _ s _)
      (Browse.lookahead_lt_patience v _) hcount hcounting ⟨e, hlate⟩
    cases hr

theorem Store.Cleared.again (h : s.Cleared v q t filter keys last) (hs : s.Proper)
    (h₁ : s.Cleared v q t filter keys₁ s₁)
    (hall₁ : ∀ x, filter.accepts x → Browsable v q s (v.allocator.sliceOf t) x → x.key ∈ keys₁)
    (h₂ : last.Cleared v q t filter keys₂ s₂)
    (hall₂ : ∀ x, filter.accepts x → Browsable v q last (v.allocator.sliceOf t) x → x.key ∈ keys₂)
    (q' : QueueName) (key : Key) : key ∈ s₂.tombstones q' ↔ key ∈ s₁.tombstones q' := by
  by_cases hq : q' = q
  · subst hq
    have hkeys : key ∈ keys₂ ∨ key ∈ keys ↔ key ∈ keys₁ := by
      constructor
      · rintro (hkey | hkey)
        · obtain ⟨x, hx, ha, rfl⟩ := h₂.browsable key hkey
          exact hall₁ x ha ((h.browsable_iff hs).mp hx).1
        · obtain ⟨x, hx, ha, rfl⟩ := h.browsable key hkey
          exact hall₁ x ha hx
      · intro hkey
        obtain ⟨x, hx, ha, rfl⟩ := h₁.browsable key hkey
        by_cases hbefore : x.key ∈ keys
        · exact .inr hbefore
        · exact .inl (hall₂ x ha ((h.browsable_iff hs).mpr ⟨hx, hbefore⟩))
    rw [h₂.buried, h.buried, h₁.buried, ← or_assoc, hkeys]
  · rw [h₂.others q' hq, h.others q' hq, h₁.others q' hq]

end

/-- While store calls fail, with or without effect, and nobody else writes, a size under fail-fast
gives the number of live items in range or an error. A bulk delete has buried all that were accepted
or gives an error, and in any case nothing else. It gives an error only if a call fails outside of
its maintenance, and made again without failures it ends with the tombstones of one without
failures. -/
theorem View.failFast_sound (config : Config) (hpolicy : config.failurePolicy = .failFast)
    (q : QueueName) (filter : ItemFilter) (t : Instant)
    (answer : (action : Action) → σ → action.Reply × σ) (store : σ → Store) (w : σ)
    (hw : Hosts answer store Eq) (hclock : ∀ w, (answer .now w).1 = t) (hs : (store w).Proper) :
    let v := View.ofConfig config
    let live := Browsable v q (store w) (v.allocator.sliceOf t)
    let size := (v.size q).run
    let deletion := (v.deleteMatching q filter).run
    let last := store (deletion.run answer w).2
    (∀ n, (size.run answer w).1 = .ok n →
      ∃ items : List Item, n = items.length ∧ items.Nodup ∧ ∀ x, x ∈ items ↔ live x) ∧
    (∀ n, (deletion.run answer w).1 = .ok n →
      ∀ x, live x → filter.accepts x → x.key ∈ last.tombstones q) ∧
    (∀ q' key, key ∈ last.tombstones q' → key ∈ (store w).tombstones q' ∨
      q' = q ∧ ∃ x, live x ∧ filter.accepts x ∧ x.key = key) ∧
    (∀ e, (deletion.run answer w).1 = .error e →
      FailedOutside "view.maintenance" (deletion.transcript answer w)) ∧
    ∀ (τ : Type) (calm : (action : Action) → τ → action.Reply × τ) (kept : τ → Store)
      (again once : τ), Serves calm kept t → kept again = last → kept once = store w →
      (∃ n, (deletion.run calm again).1 = .ok n) ∧
      ∀ q' key, key ∈ (kept (deletion.run calm again).2).tombstones q' ↔
        key ∈ (kept (deletion.run calm once).2).tombstones q' := by
  intro v live size deletion last
  have hl := View.ofConfig_pageSize_pos config
  have hfan := View.ofConfig_fanOut_pos config
  have hfate := hw.faltering hclock
  have hendures : v.Endures t (.faltering t) := ⟨fun _ _ _ _ h => h, .inl hpolicy⟩
  obtain ⟨keys, hcleared, hresult⟩ := deleteMatching_ends hendures hl hfan hs
    (Operation.ends_transcript answer deletion w)
    (Operation.undergoes_transcript deletion w hfate)
  refine ⟨fun n hn => ?_, fun n hn x hx ha => ?_, fun q' key hkey => ?_, fun e herror => ?_, ?_⟩
  · have hends := Operation.ends_transcript answer size w
    rw [hn] at hends
    have hreads : size.Calls StoreCall.IsRead := size_calls
    obtain ⟨-, hfalters⟩ := (Operation.undergoes_transcript size w hfate).falters
      (Operation.Takes.ends hreads hends)
    obtain ⟨items, rfl, hlisted⟩ := size_ends hpolicy hl hfan hs hends hfalters
    exact ⟨items, rfl, hlisted.nodup, fun x => hlisted.mem_iff⟩
  · obtain ⟨⟨e, he⟩, -⟩ | ⟨-, hall⟩ := hresult
    · cases hn.symm.trans he
    · exact (hcleared.buried _).mpr (.inl (hall x ha hx))
  · by_cases hq : q' = q
    · subst hq
      obtain hkey | hkey := (hcleared.buried key).mp hkey
      · exact .inr ⟨rfl, hcleared.browsable key hkey⟩
      · exact .inl hkey
    · rw [hcleared.others q' hq] at hkey
      exact .inl hkey
  · obtain ⟨-, -, hfailed⟩ | ⟨hr, -⟩ := hresult
    · exact hfailed
    · cases hr.symm.trans herror
  · intro τ calm kept again once hcalm hagain honce
    have hclears (s : Store) (hs : s.Proper) : deletion.Keeps (.alone (fun _ => True) t) _ s :=
      deleteMatching_clears hl hfan hs
    have hlast : last.Proper := hcleared.grows.proper hs
    obtain ⟨⟨keys₂, hr₂, h₂, hall₂⟩, -⟩ := (hclears _ (hagain ▸ hlast)).served hcalm trivial
    obtain ⟨⟨keys₁, -, h₁, hall₁⟩, -⟩ := (hclears _ (honce ▸ hs)).served hcalm trivial
    rw [hagain] at h₂ hall₂
    rw [honce] at h₁ hall₁
    exact ⟨⟨_, hr₂⟩, hcleared.again hs h₁ hall₁ h₂ hall₂⟩

namespace Sample

def losesTombstones : (action : Action) → Store → action.Reply × Store
  | .store (.putTombstone q key), s => (.error (.unavailable "down"), s.bury q key)
  | action, s => s.answer twoHours action

theorem losesTombstones_hosts : Hosts losesTombstones id Eq := by
  intro action s
  refine ⟨s, rfl, ?_⟩
  cases action with
  | store c =>
    cases c with
    | putTombstone q key => exact .lost (.putTombstone q key) (.unavailable "down")
    | _ => exact .tries (.answers (.store _))
  | _ => exact .tries (.answers (Store.answers_answer s twoHours _))

/-- The delete of the mail is reported as failed, and made again it finds nothing left to do. -/
theorem lostTombstone_again :
    let deletion := ((View.ofConfig eagerConfig).deleteMatching spool (.name "mail")).run
    let calm := fun (action : Action) (s : Store) => s.answer twoHours action
    let last := (deletion.run losesTombstones twoMails).2
    (∃ e, (deletion.run losesTombstones twoMails).1 = .error e) ∧
      FailedOutside "view.maintenance" (deletion.transcript losesTombstones twoMails) ∧
      (deletion.run calm last).1.toOption = some 0 ∧
      ∀ q key, key ∈ (deletion.run calm last).2.tombstones q ↔
        key ∈ (deletion.run calm twoMails).2.tombstones q := by
  intro deletion calm last
  have hresult : (deletion.run losesTombstones twoMails).1.toOption = none := by decide +kernel
  obtain ⟨e, he⟩ : ∃ e, (deletion.run losesTombstones twoMails).1 = .error e := by
    cases h : (deletion.run losesTombstones twoMails).1 with
    | error e => exact ⟨e, rfl⟩
    | ok n => rw [h] at hresult; cases hresult
  obtain ⟨-, -, -, hfailed, hagain⟩ := View.failFast_sound eagerConfig rfl spool (.name "mail")
    twoHours losesTombstones id twoMails losesTombstones_hosts (fun _ => rfl) twoMails_proper
  obtain ⟨-, hsame⟩ := hagain Store calm id last twoMails (Store.serves_answer twoHours) rfl rfl
  exact ⟨⟨e, he⟩, hfailed e he, by decide +kernel, hsame⟩

end Sample

end SpoolIndex
