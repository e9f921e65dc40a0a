import SpoolIndex.Proofs.Browse.Faltering
import SpoolIndex.Proofs.Installation.Exactness
import SpoolIndex.Proofs.View.Upkeep

/-!
# Deletes in bulk

A bulk delete reads from a browse and does upkeep behind it. It buries only keys of
items that the browse has yielded and the filter accepts (`Store.Swept`), and unless
it comes to an error, it passes over none of them (`View.deleteMatching_ends`). The
browse may come to an error long after the call that failed, so the items in between
are followed as well (`View.deleteAccepted_doomed`).
-/

namespace SpoolIndex

/-- A fate that a bulk delete can bear: calls fail only if the view ends a browse then. -/
structure View.Endures (v : View) (t : Instant) (fate : Fate) : Prop where
  faltering : ∀ s action reply s', fate s action reply s' → Fate.faltering t s action reply s'
  told : v.failurePolicy = .failFast ∨ fate.Truthful t

/-- Between the stores, a bulk delete has buried these keys, and they are keys of items that a
browse could yield from place `low` on. -/
structure Store.Swept (v : View) (q : QueueName) (t : Instant) (filter : ItemFilter) (low : Nat)
    (keys : List Key) (s s' : Store) : Prop extends s.Tended v q keys s' where
  nodup : keys.Nodup
  sighted : ∀ key ∈ keys, ∃ x, Browse.Sighted v q (· ≤ v.allocator.sliceOf t) s low x ∧
    filter.accepts x ∧ x.key = key

section
variable {v : View} {q : QueueName} {t : Instant} {fate : Fate} {filter : ItemFilter}
  {s s₁ s' : Store} {keys keys' : List Key} {path before after : List Exchange} {b : Browse}
  {x : Item}

def Fate.Hurts (fate : Fate) (t : Instant) (path : List Exchange) : Prop :=
  ¬fate.Truthful t ∧ FailedOutside "view.maintenance" path

theorem View.Endures.read (h : v.Endures t fate) {op : Operation α}
    (hc : op.Calls StoreCall.IsRead) (he : op.Ends path value) (hs : s.Undergoes fate path s') :
    s' = s ∧ s.Falters t path ∧ (s.Told t path ∨
      v.failurePolicy = .failFast ∧ ¬fate.Truthful t ∧ ∃ e, FailedIn e path) := by
  have hreads := Operation.Takes.ends hc he
  obtain ⟨rfl, hfalters⟩ := (hs.mono h.faltering).falters hreads
  refine ⟨rfl, hfalters, ?_⟩
  by_cases htruthful : fate.Truthful t
  · exact .inl (hs.told h.faltering htruthful hreads)
  · have hpolicy := h.told.resolve_right htruthful
    exact hfalters.told_or_failed.imp_right fun hfailed => ⟨hpolicy, htruthful, hfailed⟩

theorem Fate.Hurts.earlier (h : fate.Hurts t before) : fate.Hurts t (before ++ after) :=
  ⟨h.1, h.2.earlier⟩

theorem Fate.Hurts.later (h : fate.Hurts t after) (hb : ¬Within "view.maintenance" before) :
    fate.Hurts t (before ++ after) := ⟨h.1, h.2.later hb⟩

theorem Fate.Truthful.not_mem (h : fate.Truthful t) (hs : s.Undergoes fate path s') :
    ⟨.store (.putTombstone q key), .error e⟩ ∉ path := by
  intro hx
  obtain ⟨s₁, s₂, hfate⟩ := hs.of_mem hx
  cases h _ _ _ _ hfate

theorem Action.browses_outside : Action.Browses (· ≠ .report (.enter "view.maintenance")) where
  lookup _ := nofun
  now := nofun
  report hr he := by
    cases he
    exact absurd (hr _ rfl) (by decide)

-- ---------------------------------------------------------------------------
-- What was buried
-- ---------------------------------------------------------------------------

namespace Store.Swept

theorem refl (s : Store) : s.Swept v q t filter low [] s :=
  ⟨.refl s, .nil, fun _ h => nomatch h⟩

theorem of_tended (h : s.Tended v q keys s')
    (hx : Browse.Sighted v q (· ≤ v.allocator.sliceOf t) s low x) (ha : filter.accepts x)
    (hkeys : keys = [] ∨ keys = [x.key]) : s.Swept v q t filter low keys s' := by
  refine ⟨h, ?_, fun key hkey => ?_⟩
  · obtain rfl | rfl := hkeys <;> simp
  · obtain rfl | rfl := hkeys
    · cases hkey
    · exact ⟨x, hx, ha, (List.mem_singleton.mp hkey).symm⟩

theorem trans (h : s.Swept v q t filter low keys s₁) (h' : s₁.Swept v q t filter low' keys' s')
    (hlow : low ≤ low') : s.Swept v q t filter low (keys ++ keys') s' where
  toTended := h.toTended.trans h'.toTended
  nodup := by
    refine List.nodup_append.mpr ⟨h.nodup, h'.nodup, ?_⟩
    rintro key hkey _ hkey' rfl
    -- a key that is buried is not sighted again
    obtain ⟨x, hx, -, rfl⟩ := h'.sighted _ hkey'
    exact hx.live ((h.buried _).mpr (.inl hkey))
  sighted key hkey := by
    obtain hkey | hkey := List.mem_append.mp hkey
    · exact h.sighted key hkey
    · obtain ⟨x, hx, ha, he⟩ := h'.sighted key hkey
      exact ⟨x, hx.sooner h.grows h.items hlow, ha, he⟩

end Store.Swept

namespace View

-- ---------------------------------------------------------------------------
-- One item
-- ---------------------------------------------------------------------------

/-- An item that was yielded is deleted if the filter accepts it, and then the rest comes, unless
its tombstone cannot be written. -/
theorem accepted_falters (rest : Nat → Attempt Nat)
    (hf : ∀ s action reply s', fate s action reply s' → Fate.faltering t s action reply s')
    (hl : 0 < v.pageSize) (hx : Browse.Sighted v q (· ≤ v.allocator.sliceOf t) s low x)
    (he : (if filter.accepts x then do
        v.deleteItem x
        rest (n + 1)
      else rest n).run.Ends path result) (hs : s.Undergoes fate path s') :
    (∃ e keys, result = .error e ∧ s.Swept v q t filter low keys s' ∧
        FailsOutside "view.maintenance" (.putTombstone q x.key) path) ∨
      ∃ before after s₁ keys, path = before ++ after ∧ ¬Within "view.maintenance" before ∧
        (∀ c, ¬FailsOutside "view.maintenance" c before) ∧
        s.Swept v q t filter low keys s₁ ∧
        (∀ key, key ∈ keys ↔ filter.accepts x ∧ key = x.key) ∧
        s₁.Undergoes fate after s' ∧ (rest (n + keys.length)).run.Ends after result := by
  have hq : x.queue = q := hx.visited.queue
  split at he
  · rename_i ha
    obtain ⟨e, hdelete, rfl⟩ | ⟨before, after, _, rfl, hdelete, hafter⟩ :=
      Attempt.ends_bind_cases he
    · rw [deleteItem, hq] at hdelete
      obtain ⟨-, ⟨e, keys, -, hkeys, htended, hfails⟩ | ⟨hr, -⟩⟩ :=
        delete_ends hl hdelete (hs.mono hf)
      · exact .inl ⟨_, keys, rfl, .of_tended htended hx ha hkeys, hfails⟩
      · cases hr
    · obtain ⟨s₁, hs₁, hs'⟩ := Store.undergoes_append.mp hs
      rw [deleteItem, hq] at hdelete
      obtain ⟨hclosed, ⟨_, _, hr, -⟩ | ⟨-, htended, hcalm⟩⟩ :=
        delete_ends hl hdelete (hs₁.mono hf)
      · cases hr
      · exact .inr ⟨before, after, s₁, [x.key], rfl, hclosed, hcalm,
          .of_tended htended hx ha (.inr rfl), fun key => by simp [ha], hs', hafter⟩
  · rename_i ha
    have hempty : ¬Within "view.maintenance" [] := not_within_of_mem fun _ h => nomatch h
    have hcalm (c : StoreCall) : ¬FailsOutside "view.maintenance" c [] := fun h => nomatch h.mem
    exact .inr ⟨[], path, s, [], rfl, hempty, hcalm, .refl s, fun key => by simp [ha], hs, he⟩

/-- Under a fate that the delete bears, only one that hurts keeps the item from being deleted. -/
theorem accepted_ends (rest : Nat → Attempt Nat) (hf : v.Endures t fate) (hl : 0 < v.pageSize)
    (hx : Browse.Sighted v q (· ≤ v.allocator.sliceOf t) s low x)
    (he : (if filter.accepts x then do
        v.deleteItem x
        rest (n + 1)
      else rest n).run.Ends path result) (hs : s.Undergoes fate path s') :
    (∃ e keys, result = .error e ∧ s.Swept v q t filter low keys s' ∧ fate.Hurts t path) ∨
      ∃ before after s₁ keys, path = before ++ after ∧ ¬Within "view.maintenance" before ∧
        s.Swept v q t filter low keys s₁ ∧ (filter.accepts x → x.key ∈ s₁.tombstones q) ∧
        s₁.Undergoes fate after s' ∧ (rest (n + keys.length)).run.Ends after result := by
  obtain ⟨e, keys, hr, hswept, hfails⟩ |
      ⟨before, after, s₁, keys, hpath, hclosed, -, hswept, hkeys, hafter, hends⟩ :=
    accepted_falters rest hf.faltering hl hx he hs
  · obtain ⟨e', hx'⟩ := mem_failedCalls.mp hfails.mem
    have hfalse : ¬fate.Truthful t := fun h => h.not_mem hs hx'
    exact .inl ⟨e, keys, hr, hswept, hfalse, hfails.outside⟩
  · exact .inr ⟨before, after, s₁, keys, hpath, hclosed, hswept,
      fun ha => (hswept.buried _).mpr (.inl ((hkeys _).mpr ⟨ha, rfl⟩)), hafter, hends⟩

-- ---------------------------------------------------------------------------
-- All items
-- ---------------------------------------------------------------------------

theorem deleteAccepted_doomed (hv : v.failurePolicy = .failFast) (hf : v.Endures t fate)
    (hl : 0 < v.pageSize) (hs : s.Proper)
    (h : b.Doomed v q (· ≤ v.allocator.sliceOf t) s low m) (hm : m ≤ limit)
    (hpatience : m ≤ Browse.patience)
    (he : (v.deleteAccepted filter limit n b).run.Ends path result)
    (hs' : s.Undergoes fate path s') :
    ∃ e keys, result = .error e ∧ s.Swept v q t filter low keys s' := by
  induction limit generalizing s b m n path with
  | zero =>
    obtain ⟨-, _, _, _, -, -, ⟨-, -, -, _, _, -, hlt, -⟩, -⟩ := h
    omega
  | succ limit ih =>
    obtain ⟨pulling, rest, r, rfl, hpull, hrest⟩ := Attempt.ends_lift_bind he
    obtain ⟨s₁, hpulling, hresting⟩ := Store.undergoes_append.mp hs'
    obtain ⟨rfl, hfalters, -⟩ :=
      hf.read (Browse.pull_takes Action.browses_isBrowsing).reads hpull hpulling
    have hpulled := h.pull hv hs hpatience hpull hfalters
    obtain ⟨_ | e | x, b'⟩ := r
    · exact hpulled.elim
    · obtain ⟨rfl, rfl⟩ := hrest.of_done
      cases hresting
      exact ⟨e, [], rfl, .refl _⟩
    · obtain ⟨hx, hb'⟩ := hpulled
      obtain ⟨e, keys, rfl, hswept, -⟩ | ⟨_, after, s₂, keys, rfl, -, hswept, -, hafter, hends⟩ :=
        accepted_ends (v.deleteAccepted filter limit · b') hf hl hx hrest hresting
      · exact ⟨e, keys, rfl, hswept⟩
      · obtain ⟨e, keys', rfl, hswept'⟩ := ih (hswept.grows.proper hs) (hb'.grows hswept.grows)
          (by omega) (by omega) hends hafter
        exact ⟨e, keys ++ keys', rfl, hswept.trans hswept' (Nat.le_refl low)⟩

/-- A bulk delete comes to an error only if a call fails outside of maintenance, and otherwise has
deleted all that the filter accepts of what the browse was to find. -/
theorem deleteAccepted_ends (hf : v.Endures t fate) (hl : 0 < v.pageSize) (hfan : 0 < v.fanOut)
    (hs : s.Proper) (h : b.From v q (· ≤ v.allocator.sliceOf t) s low)
    (hlimit : v.places * Partition.span + lookahead < low + limit)
    (he : (v.deleteAccepted filter limit n b).run.Ends path result)
    (hs' : s.Undergoes fate path s') :
    ∃ keys, s.Swept v q t filter low keys s' ∧
      ((∃ e, result = .error e) ∧ fate.Hurts t path ∨
        result = .ok (n + keys.length) ∧ ∀ x, filter.accepts x →
          Browse.Sought (.alone Store.Proper t) v q s s' x → ¬b.Ahead v x) := by
  induction limit generalizing s b low n path with
  | zero => exact absurd h.bound (by omega)
  | succ limit ih =>
    obtain ⟨pulling, rest, r, rfl, hpull, hrest⟩ := Attempt.ends_lift_bind he
    have hquiet := (Browse.pull_takes Action.browses_outside).ends hpull
    have hreads := (Browse.pull_takes (v := v) (b := b) Action.browses_isBrowsing).reads
    obtain ⟨s₁, hpulling, hresting⟩ := Store.undergoes_append.mp hs'
    obtain ⟨rfl, hfalters, htold | ⟨hv, hfalse, hfailed⟩⟩ := hf.read hreads hpull hpulling
    · -- the pull was told the truth, and the browse goes on from the place of the item it yields
      have hkeeps : (b.pull v).Keeps (.alone Store.Proper t) _ s₁ :=
        Browse.pull_keeps (Contract.alone_allowsReads fun _ hs => hs) hl hfan View.timely_alone h
      have hpulled := hkeeps.told hs hreads hpull htold
      obtain ⟨_ | e | x, b'⟩ := r
      · obtain ⟨rfl, rfl⟩ := hrest.of_done
        cases hresting
        exact ⟨[], .refl _, .inr ⟨rfl, fun x _ hx => hpulled.2 x hx⟩⟩
      · exact hpulled.elim
      · have hx : Browse.Sighted v q (· ≤ v.allocator.sliceOf t) s₁ low x :=
          ⟨hpulled.stored, hpulled.visited, hpulled.live, hpulled.low_le⟩
        obtain ⟨e, keys, rfl, hswept, hfailed⟩ |
            ⟨before, after, s₂, keys, rfl, hclosed, hswept, hdone, hafter, hends⟩ :=
          accepted_ends (v.deleteAccepted filter limit · b') hf hl hx hrest hresting
        · exact ⟨keys, hswept, .inl ⟨⟨e, rfl⟩, hfailed.later (not_within_of_mem hquiet)⟩⟩
        · have hlow := hpulled.low_le
          have hs₂ := hswept.grows.proper hs
          obtain ⟨keys', hswept', hr⟩ :=
            ih hs₂ (hpulled.rest.grows hswept.grows) (by omega) hends hafter
          refine ⟨keys ++ keys', hswept.trans hswept' (by omega), hr.imp ?_ ?_⟩
          · exact fun ⟨herror, hfailed⟩ =>
              ⟨herror, (hfailed.later hclosed).later (not_within_of_mem hquiet)⟩
          · rintro ⟨rfl, hall⟩
            refine ⟨by rw [List.length_append, Nat.add_assoc], fun y ha hy hahead => ?_⟩
            obtain ⟨hp, hk⟩ | hahead :=
              hpulled.ahead y (hy.sooner (hswept.grows.trans hswept'.grows)) hahead
            · obtain rfl : y = x := (hs.sorted x.partition).eq_of_key (hp ▸ hy.stored) hx.stored hk
              exact hy.live (hswept'.grows.tombstones _ _ (hdone ha))
            · exact hall y ha (hy.later hswept.grows) hahead
    · -- a call of the pull failed: the browse is doomed, but items may come before the error
      have hpulled := Browse.pull_failed hv hs hl hfan h hpull hfalters hfailed
      obtain ⟨e, hfailed⟩ := hfailed
      have houtside : fate.Hurts t pulling := ⟨hfalse, hfailed.outside hquiet⟩
      obtain ⟨_ | e | x, b'⟩ := r
      · exact hpulled.elim
      · obtain ⟨rfl, rfl⟩ := hrest.of_done
        cases hresting
        exact ⟨[], .refl _, .inl ⟨⟨e, rfl⟩, houtside.earlier⟩⟩
      · obtain ⟨hx, hb'⟩ := hpulled
        obtain ⟨e, keys, rfl, hswept, -⟩ | ⟨_, after, s₂, keys, rfl, -, hswept, -, hafter, hends⟩ :=
          accepted_ends (v.deleteAccepted filter limit · b') hf hl hx hrest hresting
        · exact ⟨keys, hswept, .inl ⟨⟨e, rfl⟩, houtside.earlier⟩⟩
        · have hbound := h.bound
          obtain ⟨e, keys', rfl, hswept'⟩ := deleteAccepted_doomed hv hf hl
            (hswept.grows.proper hs) (hb'.grows hswept.grows) (by omega) (by decide) hends hafter
          exact ⟨keys ++ keys', hswept.trans hswept' (Nat.le_refl low),
            .inl ⟨⟨e, rfl⟩, houtside.earlier⟩⟩

end View

-- ---------------------------------------------------------------------------
-- The whole queue
-- ---------------------------------------------------------------------------

theorem Browse.ofQueue_givesUp : (Browse.ofQueue q).GivesUp := by
  refine (Attempt.givesUp_lift Operation.calls_report).bind fun _ => ?_
  refine Attempt.givesUp_call.bind fun start => Attempt.givesUp_of_storeless ?_
  cases start with
  | none =>
    exact Attempt.calls_bind (Attempt.calls_inSpan (Attempt.calls_lift Operation.calls_event))
      fun _ => trivial
  | some start =>
    exact Attempt.calls_bind (Attempt.calls_lift Operation.calls_report) fun _ => trivial

theorem Browse.ofQueue_quiet :
    (Browse.ofQueue q).run.Takes (· ≠ .report (.enter "view.maintenance")) :=
  ofQueue_takes nofun Action.browses_outside.report

theorem Browse.ofQueue_ends (hf : v.Endures t fate) (hs : s.Proper)
    (he : (Browse.ofQueue q).run.Ends path result) (hs' : s.Undergoes fate path s') :
    s' = s ∧ ((∃ e, result = .error e) ∧ fate.Hurts t path ∨
      result = .ok (opened q (s.start q))) := by
  have hreads : (Browse.ofQueue q).run.Calls StoreCall.IsRead :=
    ofQueue_takes trivial fun _ => trivial
  obtain ⟨rfl, -, htold | ⟨-, hfalse, e, hfailed⟩⟩ := hf.read hreads he hs'
  · have hkeeps : (Browse.ofQueue q).run.Keeps (.alone Store.Proper t) _ s' :=
      ofQueue_keeps (Contract.alone_allowsReads fun _ hs => hs)
    exact ⟨rfl, .inr (hkeeps.told hs hreads he htold).1⟩
  · refine ⟨rfl, .inl ⟨⟨e, ofQueue_givesUp path result e he hfailed⟩, hfalse, ?_⟩⟩
    exact hfailed.outside (ofQueue_quiet.ends he)

theorem Browse.Sighted.browsable
    (h : Sighted v q (· ≤ v.allocator.sliceOf t) s (floor v (s.start q)) x) :
    Browsable v q s (v.allocator.sliceOf t) x where
  stored := h.stored
  queue := h.visited.queue
  bucket := h.visited.bucket
  live := h.live
  reached := start_le_of_floor h.visited h.low_le
  timely := h.visited.timely

/-- Upkeep hides what it buries from browses, and nothing else. -/
theorem Store.Tended.browsable_iff (h : s.Tended v q keys s') (hs : s.Proper) :
    Browsable v q s' limit x ↔ Browsable v q s limit x ∧ x.key ∉ keys := by
  constructor
  · rintro ⟨hx, hq, hb, hlive, hr, ht⟩
    obtain ⟨hkeys, hlive⟩ := not_or.mp (mt (h.buried x.key).mpr hlive)
    refine ⟨⟨h.items ▸ hx, hq, hb, hlive, hr.of_grows h.grows fun hnone => ?_, ht⟩, hkeys⟩
    obtain ⟨start, hstart, -⟩ := hr
    rw [h.unopened hnone] at hstart
    cases hstart
  · rintro ⟨⟨hx, hq, hb, hlive, hr, ht⟩, hkeys⟩
    have hlive' : x.key ∉ s'.tombstones q := fun hd => ((h.buried _).mp hd).elim hkeys hlive
    subst hq
    obtain ⟨-, -, hspares⟩ := h.guards x.partition x.key rfl hb ⟨hs, ⟨x, hx, rfl⟩, .inr hr⟩
    exact ⟨h.items ▸ hx, rfl, hb, hlive', hspares.resolve_left hlive', ht⟩

/-- What has become of a queue after a bulk delete: it has buried these keys of accepted items that
browses found before. -/
structure Store.Cleared (v : View) (q : QueueName) (t : Instant) (filter : ItemFilter)
    (keys : List Key) (s s' : Store) : Prop extends s.Tended v q keys s' where
  nodup : keys.Nodup
  browsable : ∀ key ∈ keys, ∃ x, Browsable v q s (v.allocator.sliceOf t) x ∧
    filter.accepts x ∧ x.key = key

theorem Store.Swept.cleared (h : s.Swept v q t filter (Browse.floor v (s.start q)) keys s') :
    s.Cleared v q t filter keys s' where
  toTended := h.toTended
  nodup := h.nodup
  browsable key hkey := by
    obtain ⟨x, hx, ha, he⟩ := h.sighted key hkey
    exact ⟨x, hx.browsable, ha, he⟩

/-- A bulk delete comes to an error only if a call fails outside of maintenance, and otherwise has
deleted all that browses found and the filter accepts. -/
theorem View.deleteMatching_ends (hf : v.Endures t fate) (hl : 0 < v.pageSize)
    (hfan : 0 < v.fanOut) (hs : s.Proper)
    (he : (v.deleteMatching q filter).run.Ends path result) (hs' : s.Undergoes fate path s') :
    ∃ keys, s.Cleared v q t filter keys s' ∧
      ((∃ e, result = .error e) ∧ fate.Hurts t path ∨
        result = .ok keys.length ∧ ∀ x, filter.accepts x →
          Browsable v q s (v.allocator.sliceOf t) x → x.key ∈ keys) := by
  obtain ⟨e, hopen, rfl⟩ | ⟨opening, rest, b, rfl, hopen, hrest⟩ := Attempt.ends_bind_cases he
  · obtain ⟨rfl, ⟨-, hfailed⟩ | hr⟩ := Browse.ofQueue_ends hf hs hopen hs'
    · exact ⟨[], (Store.Swept.refl _).cleared, .inl ⟨⟨e, rfl⟩, hfailed⟩⟩
    · cases hr
  obtain ⟨s₁, hopening, hresting⟩ := Store.undergoes_append.mp hs'
  obtain ⟨rfl, ⟨⟨_, hr⟩, -⟩ | hr⟩ := Browse.ofQueue_ends hf hs hopen hopening
  · cases hr
  obtain rfl := Except.ok.inj hr
  have hquiet : ¬Within "view.maintenance" opening :=
    not_within_of_mem (Browse.ofQueue_quiet.ends hopen)
  have hb := Browse.from_opened v q (· ≤ v.allocator.sliceOf t) s₁ (s₁.start q)
  have hlimit := Browse.lookahead_lt_patience v (Browse.floor v (s₁.start q))
  obtain ⟨e, hdelete, rfl⟩ | ⟨deleting, last, n, rfl, hdelete, hlast⟩ :=
    Attempt.ends_bind_cases hrest
  · obtain ⟨keys, hswept, ⟨-, hfailed⟩ | ⟨hr, -⟩⟩ :=
      deleteAccepted_ends hf hl hfan hs hb hlimit hdelete hresting
    · exact ⟨keys, hswept.cleared, .inl ⟨⟨e, rfl⟩, hfailed.later hquiet⟩⟩
    · cases hr
  · obtain ⟨s₂, hdeleting, hlasting⟩ := Store.undergoes_append.mp hresting
    obtain ⟨keys, hswept, ⟨⟨_, hr⟩, -⟩ | ⟨hr, hall⟩⟩ :=
      deleteAccepted_ends hf hl hfan hs hb hlimit hdelete hdeleting
    · cases hr
    obtain ⟨_, _, _, rfl, hevent, hdone⟩ := Attempt.ends_lift_bind hlast
    obtain ⟨rfl, rfl⟩ := hdone.of_done
    rw [List.append_nil] at hlasting
    obtain ⟨rfl, -⟩ := hf.read Operation.calls_event hevent hlasting
    refine ⟨keys, hswept.cleared, .inr ⟨?_, fun x ha hx => ?_⟩⟩
    · rw [Except.ok.inj hr, Nat.zero_add]
    · by_cases hkey : x.key ∈ keys
      · exact hkey
      obtain ⟨start, hstart, hle⟩ := hx.reached
      have hahead : (Browse.opened q (s₁.start q)).Ahead v x := by
        rw [hstart]
        exact Browse.ahead_opened v q hle
      refine absurd hahead (hall x ha ⟨hx.stored, hx.queue, hx.bucket, ?_, fun hd => ?_⟩)
      · rintro _ rfl
        exact hx.timely
      · exact ((hswept.buried _).mp hd).elim hkey hx.live

theorem View.endures_serving (v : View) (t : Instant) : v.Endures t (.serving t) :=
  ⟨Fate.faltering_of_serving, .inr Fate.serving_truthful⟩

/-- Alone with the store, a bulk delete buries the keys of what browses found and the filter
accepts, and tells how many these are. -/
theorem View.deleteMatching_clears (hl : 0 < v.pageSize) (hfan : 0 < v.fanOut) (hs : s.Proper) :
    (v.deleteMatching q filter).run.Keeps (.alone (fun _ => True) t)
      (fun result s' => ∃ keys : List Key, result = .ok keys.length ∧
        s.Cleared v q t filter keys s' ∧
        ∀ x, filter.accepts x → Browsable v q s (v.allocator.sliceOf t) x → x.key ∈ keys) s := by
  refine Operation.keeps_of_ends fun path result s' he hs' => ?_
  obtain ⟨keys, hcleared, ⟨-, hfalse, -⟩ | ⟨hr, hall⟩⟩ :=
    deleteMatching_ends (v.endures_serving t) hl hfan hs he hs'
  · exact absurd Fate.serving_truthful hfalse
  · exact ⟨keys, hr, hcleared, hall⟩

theorem Request.deleteMatching_clears (hl : 0 < v.pageSize) (hfan : 0 < v.fanOut) (hs : s.Proper) :
    ((deleteMatching q filter).perform v).run.Keeps (.alone (fun _ => True) t)
      (fun result s' => ∃ keys : List Key, result = .ok (.deletedMatching keys.length) ∧
        s.Cleared v q t filter keys s' ∧
        ∀ x, filter.accepts x → Browsable v q s (v.allocator.sliceOf t) x → x.key ∈ keys) s := by
  refine Attempt.keeps_bind.mpr ((View.deleteMatching_clears hl hfan hs).mono ?_)
  rintro _ s' ⟨keys, rfl, h⟩
  exact ⟨keys, rfl, h⟩

end

namespace Sample

def twoMails : Store :=
  (opened.append (view.itemOf spool mail default .epoch)).append
    (view.itemOf spool { mail with name := "note" } (.ofNat 1) twoHours)

theorem twoMails_proper : twoMails.Proper :=
  Store.proper_append (Store.proper_append opened_proper _) _

def eagerConfig : Config :=
  { Config.default with advancePolicy := .eager }

end Sample

end SpoolIndex
