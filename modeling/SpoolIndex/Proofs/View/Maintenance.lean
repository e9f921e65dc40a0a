import SpoolIndex.Proofs.Operation.Paths
import SpoolIndex.Proofs.View.Rows
import SpoolIndex.View.Maintenance

/-!
# Maintenance spares live rows

Maintenance raises the browse start past no row that it could have seen: one
that was in its partition when maintenance looked there and has no tombstone yet
(`View.maintain_keeps`). Others may work on the store all the while.
-/

namespace SpoolIndex

/-- A contract that asks no more of a call than to spare a row. -/
structure Contract.Protects (k : Contract) (p : Partition) (key : Key) : Prop
    extends k.Orderly where
  own : (s.Spares p key → (s.perform c).2.Spares p key) → k.own c s

/-- Maintenance may count on the row to be spared when it begins, and to be there when it looks
into its partition. `J` is what is known from the beginning on and serves to show that. -/
structure Contract.Spares (k : Contract) (p : Partition) (key : Key) (J : Store → Prop) : Prop
    extends k.Protects p key where
  opening : k.found (.readStart p.queue) s → s.start p.queue ≠ none → s.Spares p key ∧ J s
  stable : J s → s.Grows s' → J s'
  looking : J s → k.found (.hasItems p) s → s.Holds p key

structure Contract.Settled (k : Contract) (v : View) (p : Partition) (key : Key) : Prop
    extends k.Protects p key where
  settled : k.clock t → v.settleLimit t ≤ p.slice

section
variable {k : Contract} {p : Partition} {key : Key}

theorem Contract.Protects.allowsReads (hk : k.Protects p key) : k.AllowsReads where
  toOrderly := hk.toOrderly
  own_read hc := hk.own fun h => by rw [hc.perform]; exact h

theorem Contract.Protects.own_of_ne (hk : k.Protects p key)
    (hc : ∀ slice, c ≠ .swapStart p.queue .below slice) : k.own c s :=
  hk.own fun h => Store.spares_perform h fun slice he => absurd he (hc slice)

theorem Contract.AllowsReads.keeps_reads {op : Operation α} (hk : k.AllowsReads)
    (hc : op.Calls StoreCall.IsRead) : op.Keeps k (fun _ s' => s.Grows s') s :=
  ((hc.keeps fun _ _ hr _ => hk.own_read hr).grows hk.toOrderly).mono fun _ _ h => h.2

end

-- ---------------------------------------------------------------------------
-- The actions of maintenance
-- ---------------------------------------------------------------------------

def Action.IsSearching : Action → Prop
  | .store c => c.IsRead
  | .report (.event ..) => True
  | _ => False

/-- What maintenance does: it searches, and raises the browse start of its queue, but not above the
settle limit of a moment. -/
def Action.Maintains (v : View) (q : QueueName) : Action → Prop
  | .store c => c.IsRead ∨ ∃ t target, c = .swapStart q .below target ∧ target ≤ v.settleLimit t
  | .report (.event ..) | .now => True
  | _ => False

theorem Action.IsSearching.maintains {action : Action} (h : action.IsSearching) :
    action.Maintains v q := by
  cases action with
  | store c => exact .inl h
  | now => trivial
  | report r => cases r <;> exact h
  | _ => exact h

theorem Operation.Takes.searches {op : Operation α} (h : op.Takes Action.IsSearching) :
    op.Calls StoreCall.IsRead :=
  h.mono fun action ha => by cases action <;> first | exact ha | trivial

theorem anyLive_takes (hf : ∀ after, (fetch after).run.Takes Action.IsSearching) :
    (anyLive fetch limit rows).run.Takes Action.IsSearching := by
  induction limit generalizing rows with
  | zero => trivial
  | succ limit ih =>
    rw [anyLive]
    refine Attempt.takes_bind (Attempt.takes_lift (Rows.pull_takes hf)) ?_
    rintro ⟨_ | e | x, rows⟩
    · trivial
    · trivial
    · have hlook : Action.IsSearching (.store (.hasTombstone x.queue x.key)) := trivial
      refine Attempt.takes_bind (Operation.takes_perform hlook) fun buried => ?_
      cases buried
      · exact Attempt.takes_bind (Attempt.takes_lift (Operation.takes_perform trivial))
          fun _ => trivial
      · exact ih

theorem BrowseStart.advances_of_ends {result : Except Error Advance}
    (h : (BrowseStart.advanceTo q target).run.Ends path result) : ∃ applied,
      path = [⟨.store (.swapStart q .below target), applied⟩] ∧
        result = applied.map fun applied => if applied then .advanced else .unchanged := by
  obtain ⟨e, hswap, rfl⟩ | ⟨_, _, applied, rfl, hswap, hdone⟩ := Attempt.ends_bind_cases h
  · exact ⟨.error e, hswap.of_perform, rfl⟩
  · obtain rfl := hswap.of_perform
    cases applied <;> obtain ⟨rfl, rfl⟩ := hdone.of_done <;> exact ⟨.ok _, rfl, rfl⟩

namespace View

variable {v : View} {q : QueueName}

theorem partitionIsLive_takes : (v.partitionIsLive p).run.Takes Action.IsSearching := by
  have hany : Action.IsSearching (.store (.hasItems p)) := trivial
  refine Attempt.takes_bind (Operation.takes_perform hany) fun any => ?_
  cases any
  · trivial
  · exact anyLive_takes fun _ => Operation.takes_perform trivial

theorem sliceIsLive_takes :
    (v.sliceIsLive q slice left bucket).run.Takes Action.IsSearching := by
  induction left generalizing bucket with
  | zero => trivial
  | succ left ih =>
    refine Attempt.takes_bind partitionIsLive_takes fun live => ?_
    cases live
    · exact ih
    · trivial

theorem firstLiveSlice_takes : (v.firstLiveSlice q left slice).run.Takes Action.IsSearching := by
  induction left generalizing slice with
  | zero => trivial
  | succ left ih =>
    refine Attempt.takes_bind sliceIsLive_takes fun live => ?_
    cases live
    · exact ih
    · trivial

theorem partitionIsLive_calls : (v.partitionIsLive p).run.Calls StoreCall.IsRead :=
  partitionIsLive_takes.searches

theorem sliceIsLive_calls : (v.sliceIsLive q slice left bucket).run.Calls StoreCall.IsRead :=
  sliceIsLive_takes.searches

theorem firstLiveSlice_calls : (v.firstLiveSlice q left slice).run.Calls StoreCall.IsRead :=
  firstLiveSlice_takes.searches

theorem reportMaintenance_reports : (reportMaintenance result).Reports := by
  rcases result with e | ⟨_ | _, source, target⟩
  · trivial
  · refine (Operation.reports_report _).bind fun _ => (Operation.reports_report _).bind fun _ => ?_
    exact (Operation.Reports.inSpan (Operation.reports_report _)).bind fun _ => trivial
  · trivial

-- ---------------------------------------------------------------------------
-- The ways that maintenance may go
-- ---------------------------------------------------------------------------

theorem firstLiveSlice_ends {slice target : Slice} {left : Nat}
    (h : (v.firstLiveSlice q left slice).run.Ends path (.ok target)) :
    target.index ≤ slice.index + left := by
  induction left generalizing slice path with
  | zero =>
    obtain ⟨-, he⟩ := h.of_done
    cases he
    simp
  | succ left ih =>
    obtain ⟨_, _, live, rfl, -, h⟩ := Attempt.ends_bind h
    cases live
    · have hle := ih h
      have hnext := slice.next_index_le
      omega
    · obtain ⟨-, he⟩ := h.of_done
      cases he
      omega

def Searches (v : View) (q : QueueName) (start : Slice) (t : Instant) (path : List Exchange)
    (found : Except Error Slice) : Prop :=
  start < v.settleLimit t ∧
    (v.firstLiveSlice q ((v.settleLimit t).index - start.index).toNat start).run.Ends path found

theorem Searches.le_settleLimit (h : v.Searches q start t path (.ok target)) :
    target ≤ v.settleLimit t := by
  obtain ⟨hlt, hsearch⟩ := h
  have hle := firstLiveSlice_ends hsearch
  rw [Slice.lt_def] at hlt
  rw [Slice.le_def]
  omega

def looked (q : QueueName) (start : Slice) (t : Instant) (search : List Exchange) : List Exchange :=
  ⟨.store (.readStart q), .ok (some start)⟩ :: ⟨.now, t⟩ :: search

/-- Maintenance gives up at the first failure. It has nothing to do for a queue that was never
opened, or whose browse start is at the settle limit, or has a live item; else it raises it. -/
inductive Maintains (v : View) (q : QueueName) : List Exchange → Except Error Maintenance → Prop
  | unread (e : Error) : Maintains v q [⟨.store (.readStart q), .error e⟩] (.error e)
  | unopened : Maintains v q [⟨.store (.readStart q), .ok none⟩] (.ok (.unchanged .min))
  | settled {start : Slice} {t : Instant} {level : Level} {message : String}
    {fields : List (String × Field)} (hlimit : v.settleLimit t ≤ start) :
    Maintains v q (looked q start t [⟨.report (.event level message fields), ()⟩])
      (.ok (.unchanged start))
  | unfound {start : Slice} {t : Instant} {search : List Exchange} {e : Error}
    (hsearch : v.Searches q start t search (.error e)) :
    Maintains v q (looked q start t search) (.error e)
  | standing {start target : Slice} {t : Instant} {search : List Exchange}
    (hsearch : v.Searches q start t search (.ok target)) (hle : target ≤ start) :
    Maintains v q (looked q start t search) (.ok (.unchanged start))
  | raising {start target : Slice} {t : Instant} {search : List Exchange}
    (hsearch : v.Searches q start t search (.ok target)) (hlt : start < target)
    (applied : Except Error Bool) :
    Maintains v q (looked q start t search ++ [⟨.store (.swapStart q .below target), applied⟩])
      (applied.map fun applied => ⟨if applied then .advanced else .unchanged, start, target⟩)

theorem looked_takes {P : Action → Prop} (hread : P (.store (.readStart q))) (hnow : P .now)
    (h : ∀ x ∈ search, P x.action) : ∀ x ∈ looked q start t search, P x.action :=
  List.forall_mem_cons.mpr ⟨hread, List.forall_mem_cons.mpr ⟨hnow, h⟩⟩

theorem Searches.looked_reads (h : v.Searches q start t search found) :
    ∀ x ∈ looked q start t search, x.action.Allowed StoreCall.IsRead :=
  looked_takes trivial trivial (Operation.Takes.ends firstLiveSlice_calls h.2)

theorem maintains_of_ends (h : (v.maintain q).run.Ends path result) :
    v.Maintains q path result := by
  obtain ⟨e, hread, rfl⟩ | ⟨_, _, start, rfl, hread, he⟩ := Attempt.ends_bind_cases h
  · obtain rfl := hread.of_perform
    exact .unread e
  obtain rfl := Operation.Ends.of_perform hread
  cases start with
  | none =>
    obtain ⟨rfl, rfl⟩ := he.of_done
    exact .unopened
  | some start =>
    obtain ⟨_, _, t, rfl, hnow, hlimited⟩ := Attempt.ends_lift_bind he
    obtain rfl := hnow.of_perform
    dsimp only at hlimited
    split at hlimited <;> rename_i hlimit
    · obtain ⟨_, _, _, rfl, hevent, hdone⟩ := Attempt.ends_lift_bind hlimited
      obtain rfl := hevent.of_perform
      obtain ⟨rfl, rfl⟩ := hdone.of_done
      exact .settled hlimit
    have hlow := Slice.not_le.mp hlimit
    obtain ⟨e, hsearch, rfl⟩ | ⟨search, _, target, rfl, hsearch, hfound⟩ :=
      Attempt.ends_bind_cases hlimited
    · exact .unfound ⟨hlow, hsearch⟩
    split at hfound <;> rename_i hle
    · obtain ⟨rfl, rfl⟩ := hfound.of_done
      rw [List.append_nil]
      exact .standing ⟨hlow, hsearch⟩ hle
    have hraising := Maintains.raising ⟨hlow, hsearch⟩ (Slice.not_le.mp hle)
    obtain ⟨e, hadvance, rfl⟩ | ⟨_, _, _, rfl, hadvance, hdone⟩ := Attempt.ends_bind_cases hfound
    · obtain ⟨applied, rfl, hanswer⟩ := BrowseStart.advances_of_ends hadvance
      cases applied <;> cases hanswer
      exact hraising (.error e)
    · obtain ⟨applied, rfl, hanswer⟩ := BrowseStart.advances_of_ends hadvance
      obtain ⟨rfl, rfl⟩ := hdone.of_done
      cases applied <;> cases hanswer
      rw [List.append_nil]
      exact hraising (.ok _)

/-- Maintenance only reads and changes nothing, or it makes one conditional write in the end. -/
theorem Maintains.reads_or_raises (h : v.Maintains q path result) :
    ((∀ x ∈ path, x.action.Allowed StoreCall.IsRead) ∧
        ∀ m, result = .ok m → m.result = .unchanged) ∨
      ∃ start t search target applied, v.Searches q start t search (.ok target) ∧ start < target ∧
        path = looked q start t search ++ [⟨.store (.swapStart q .below target), applied⟩] ∧
        result = applied.map fun applied =>
          ⟨if applied then .advanced else .unchanged, start, target⟩ := by
  have hread : Action.Allowed StoreCall.IsRead (.store (.readStart q)) := trivial
  cases h with
  | unread e => exact .inl ⟨List.forall_mem_singleton.mpr hread, fun _ h => nomatch h⟩
  | unopened =>
    refine .inl ⟨List.forall_mem_singleton.mpr hread, ?_⟩
    rintro _ ⟨⟩
    rfl
  | @settled _ _ level message fields _ =>
    have hevent : Action.Allowed StoreCall.IsRead (.report (.event level message fields)) := trivial
    refine .inl ⟨looked_takes hread trivial (List.forall_mem_singleton.mpr hevent), ?_⟩
    rintro _ ⟨⟩
    rfl
  | unfound hsearch => exact .inl ⟨hsearch.looked_reads, fun _ h => nomatch h⟩
  | standing hsearch =>
    refine .inl ⟨hsearch.looked_reads, ?_⟩
    rintro _ ⟨⟩
    rfl
  | raising hsearch hlt applied => exact .inr ⟨_, _, _, _, applied, hsearch, hlt, rfl, rfl⟩

theorem maintain_takes : (v.maintain q).run.Takes (Action.Maintains v q) := by
  refine Operation.takes_of_ends fun path result he => ?_
  have hread : Action.Maintains v q (.store (.readStart q)) := .inl trivial
  have hlooked {search : List Exchange} {start : Slice} {t : Instant} {found : Except Error Slice}
      (h : v.Searches q start t search found) :
      ∀ x ∈ looked q start t search, x.action.Maintains v q :=
    looked_takes hread trivial fun x hx => (firstLiveSlice_takes.ends h.2 x hx).maintains
  cases maintains_of_ends he with
  | unread | unopened => exact List.forall_mem_singleton.mpr hread
  | @settled _ _ level message fields _ =>
    have hevent : Action.Maintains v q (.report (.event level message fields)) := trivial
    exact looked_takes hread trivial (List.forall_mem_singleton.mpr hevent)
  | unfound hsearch | standing hsearch => exact hlooked hsearch
  | raising hsearch =>
    refine List.forall_mem_append.mpr ⟨hlooked hsearch, List.forall_mem_singleton.mpr ?_⟩
    exact .inr ⟨_, _, rfl, hsearch.le_settleLimit⟩

theorem maintain_calls : (v.maintain q).run.Calls (fun c => c.IsRead ∨
    ∃ t target, c = .swapStart q .below target ∧ target ≤ v.settleLimit t) :=
  maintain_takes.mono fun action ha => by cases action <;> first | exact ha | trivial

/-- The path of a maintenance run, of which only `middle` touches the store or the clock. -/
def overseen (q : QueueName) (middle told : List Exchange) (outcome : String) : List Exchange :=
  ⟨.report (.span "view.maintenance" [("view.queue", .text q.text)]), ()⟩ ::
    ⟨.report (.enter "view.maintenance"), ()⟩ :: (middle ++ ⟨.report .leave, ()⟩ :: (told ++
      [⟨.report (.count .browseStartUpdates [("queue", q.text), ("result", outcome)]), ()⟩]))

theorem advanceBrowseStart_ends (h : (v.advanceBrowseStart q).run.Ends path result) :
    ∃ middle m told outcome, path = overseen q middle told outcome ∧
      (v.maintain q).run.Ends middle m ∧ (reportMaintenance m).Ends told outcome ∧
      result = m.map (·.result) := by
  obtain ⟨_, _, _, rfl, hspan, h⟩ := h.of_bind
  obtain ⟨_, _, m, rfl, hspanned, h⟩ := h.of_bind
  obtain ⟨told, _, outcome, rfl, htold, h⟩ := h.of_bind
  obtain ⟨_, _, _, rfl, hcount, h⟩ := h.of_bind
  obtain ⟨rfl, rfl⟩ := h.of_done
  obtain rfl := hspan.of_perform
  obtain ⟨middle, rfl, hmiddle⟩ := Operation.Ends.of_inSpan hspanned
  obtain rfl := hcount.of_perform
  exact ⟨middle, m, told, outcome, by simp [overseen], hmiddle, htold, rfl⟩

theorem mem_overseen (htold : (reportMaintenance m).Ends told outcome)
    (hx : x ∈ overseen q middle told outcome) : x ∈ middle ∨ x.action.IsReport := by
  obtain _ | ⟨_, _ | ⟨_, hx⟩⟩ := hx
  · exact .inr trivial
  · exact .inr trivial
  obtain hx | _ | ⟨_, hx⟩ := List.mem_append.mp hx
  · exact .inl hx
  · exact .inr trivial
  obtain hx | hx := List.mem_append.mp hx
  · exact .inr (reportMaintenance_reports.ends htold _ hx)
  · cases List.mem_singleton.mp hx
    exact .inr trivial

end View

-- ---------------------------------------------------------------------------
-- Looking for live rows
-- ---------------------------------------------------------------------------

section
variable {k : Contract} {p : Partition} {key : Key} {J : Store → Prop} {s : Store}

/-- The result "nothing live here", given only if the row in question has a tombstone. -/
def Buries (p : Partition) (key : Key) (result : Except Error Bool) (s : Store) : Prop :=
  result = .ok false → key ∈ s.tombstones p.queue

theorem buries_of_tombstone {op : Operation (Except Error Bool)} (hk : k.AllowsReads)
    (hc : op.Calls StoreCall.IsRead) (h : key ∈ s.tombstones p.queue) :
    op.Keeps k (Buries p key) s :=
  (hk.keeps_reads hc).mono fun _ _ hg _ => hg.tombstones _ _ h

theorem anyLive_keeps {rows : Rows Item} (hk : k.AllowsReads) (hl : 0 < limit)
    (h : Rows.From p s low rows) (hx : s.Holds p key) (ha : rows.Ahead key)
    (hfuel : Key.count ≤ low + fuel) :
    (anyLive (itemPages p limit) fuel rows).run.Keeps k (Buries p key) s := by
  induction fuel generalizing s low rows with
  | zero => exact absurd key.bits_lt (Nat.not_lt.mpr (Nat.le_trans hfuel (h.low_le ha)))
  | succ fuel ih =>
    refine Attempt.keeps_bind.mpr (Attempt.keeps_lift.mpr ?_)
    refine ((Rows.pull_keeps hk hl h).grows hk.toOrderly).mono ?_
    rintro ⟨_ | e | y, rest⟩ s' ⟨hp, hg⟩
    · obtain ⟨x, hx, rfl⟩ := hx
      exact absurd ha (hp.2 x hx)
    · exact hp.elim
    · obtain ⟨hy, hlow, hrest, hahead⟩ := hp
      refine Attempt.keeps_bind.mpr fun met ho hf => ⟨hk.own_read trivial, ?_⟩
      have hgm := hg.trans (hk.grows ho)
      cases hb : (met.tombstones y.queue).contains y.key with
      | false =>
        simp only [Store.perform, hb]
        exact Attempt.keeps_bind.mpr (Attempt.keeps_lift.mpr (by simp [Buries]))
      | true =>
        simp only [Store.perform, hb]
        have hq : y.queue = p.queue := by
          rw [← (hk.proper hf).placed p y ((hk.grows ho).items p y hy)]
          rfl
        rw [hq] at hb
        obtain ⟨x, hx, rfl⟩ := hx
        rcases hahead x hx ha with he | ha
        · have hrest : (anyLive (itemPages p limit) fuel rest).run.Takes Action.IsSearching :=
            anyLive_takes fun _ => Operation.takes_perform trivial
          refine buries_of_tombstone hk hrest.searches ?_
          rw [he]
          exact List.mem_of_elem_eq_true hb
        · refine ih (hrest.grows (hk.grows ho)) ⟨x, hgm.items p x hx, rfl⟩ ha ?_
          omega

theorem View.partitionIsLive_keeps {v : View} (hk : k.Spares p key J) (hl : 0 < v.pageSize)
    (hj : J s) : (v.partitionIsLive p).run.Keeps k (Buries p key) s := by
  refine Attempt.keeps_bind.mpr fun met ho hf => ⟨hk.allowsReads.own_read trivial, ?_⟩
  have hx := hk.looking (hk.stable hj (hk.grows ho)) hf
  have hany : (met.items p).isEmpty = false := by
    obtain ⟨x, hx, -⟩ := hx
    exact List.isEmpty_eq_false_iff.mpr (List.ne_nil_of_mem hx)
  simp only [Store.perform, hany, Bool.not_false]
  exact anyLive_keeps hk.allowsReads hl (Rows.from_start p met) hx (Rows.ahead_start key) (by omega)

theorem View.sliceIsLive_keeps {v : View} (hk : k.Spares p key J) (hl : 0 < v.pageSize) (hj : J s)
    (hlow : bucket ≤ p.bucket.id.toNat) (hhigh : p.bucket.id.toNat < bucket + left) :
    (v.sliceIsLive p.queue p.slice left bucket).run.Keeps k (Buries p key) s := by
  induction left generalizing s bucket with
  | zero => omega
  | succ left ih =>
    have hreads : (v.sliceIsLive p.queue p.slice left (bucket + 1)).run.Calls StoreCall.IsRead :=
      sliceIsLive_calls
    refine Attempt.keeps_bind.mpr ?_
    by_cases hb : bucket = p.bucket.id.toNat
    · have hp : (⟨p.queue, p.slice, ⟨UInt32.ofNat bucket⟩⟩ : Partition) = p := by
        rw [hb, UInt32.ofNat_toNat]
      rw [hp]
      refine (View.partitionIsLive_keeps hk hl hj).mono ?_
      rintro (e | _ | _) s' hr
      · exact fun h => nomatch h
      · exact buries_of_tombstone hk.allowsReads hreads (hr rfl)
      · exact fun h => nomatch h
    · refine (hk.allowsReads.keeps_reads partitionIsLive_calls).mono ?_
      rintro (e | _ | _) s' hg
      · exact fun h => nomatch h
      · exact ih (hk.stable hj hg) (by omega) (by omega)
      · exact fun h => nomatch h

/-- The first slice that seems live is behind no row that is. -/
theorem View.firstLiveSlice_keeps {v : View} (hk : k.Spares p key J) (hl : 0 < v.pageSize)
    (hb : p.bucket.id < v.allocator.bucketCount) (hj : J s) (hs : s.Admits p key slice) :
    (v.firstLiveSlice p.queue left slice).run.Keeps k
      (fun result s => ∀ target, result = .ok target → s.Admits p key target) s := by
  induction left generalizing s slice with
  | zero =>
    rintro target he
    cases he
    exact hs
  | succ left ih =>
    refine Attempt.keeps_bind.mpr ?_
    have hreads : (v.sliceIsLive p.queue slice v.allocator.bucketCount.toNat 0).run.Calls
        StoreCall.IsRead := sliceIsLive_calls
    have hcalls := hk.allowsReads.keeps_reads (s := s) hreads
    have hlook : (v.sliceIsLive p.queue slice v.allocator.bucketCount.toNat 0).run.Keeps k
        (fun result s => result = .ok false → s.Admits p key slice.next) s := by
      rcases hs with hd | hle
      · exact hcalls.mono fun _ _ hg _ => .inl (hg.tombstones _ _ hd)
      by_cases he : slice = p.slice
      · subst he
        have hb : p.bucket.id.toNat < 0 + v.allocator.bucketCount.toNat := by
          simpa using UInt32.lt_iff_toNat_lt.mp hb
        exact (View.sliceIsLive_keeps hk hl hj (Nat.zero_le _) hb).mono
          fun _ _ hd hr => .inl (hd hr)
      · have hlt : slice < p.slice := Slice.lt_of_le_of_ne hle he
        exact hcalls.mono fun _ _ _ _ => .inr (Slice.next_le hlt)
    refine (hlook.grows hk.toOrderly).mono ?_
    rintro (e | _ | _) s' ⟨hnext, hg⟩
    · exact fun target h => nomatch h
    · exact ih (hk.stable hj hg) (hnext rfl)
    · rintro target he
      cases he
      exact hs.grows hg

-- ---------------------------------------------------------------------------
-- The settle window
-- ---------------------------------------------------------------------------

theorem View.firstLiveSlice_index {v : View} (hk : k.AllowsReads) :
    (v.firstLiveSlice q left slice).run.Keeps k
      (fun result _ => ∀ target, result = .ok target → target.index ≤ slice.index + left) s := by
  refine (Operation.Calls.keeps_ends View.firstLiveSlice_calls
    fun _ _ hc _ => hk.own_read hc).mono ?_
  rintro _ _ ⟨path, he⟩ target rfl
  exact View.firstLiveSlice_ends he

-- ---------------------------------------------------------------------------
-- Raising the browse start
-- ---------------------------------------------------------------------------

theorem View.maintain_of_found {v : View} {P : Slice → Store → Prop} (hk : k.AllowsReads)
    (hgrows : ∀ {target s s'}, P target s → s.Grows s' → P target s')
    (hown : ∀ {target s}, P target s → k.own (.swapStart q .below target) s)
    (hsearch : ∀ met start t, k.found (.readStart q) met → met.start q = some start →
      k.clock t → start < v.settleLimit t →
      (v.firstLiveSlice q ((v.settleLimit t).index - start.index).toNat start).run.Keeps k
        (fun result s => ∀ target, result = .ok target → P target s) met) :
    (v.maintain q).run.Keeps k (fun _ _ => True) s := by
  refine Attempt.keeps_bind.mpr fun met ho hf => ⟨hk.own_read trivial, ?_⟩
  cases hstart : met.start q with
  | none =>
    simp only [Store.perform, hstart]
    trivial
  | some start =>
    simp only [Store.perform, hstart]
    refine Attempt.keeps_bind.mpr (Attempt.keeps_lift.mpr (Operation.keeps_now.mpr fun t ht => ?_))
    dsimp only
    split
    · exact Attempt.keeps_bind.mpr (Attempt.keeps_lift.mpr (Operation.keeps_event.mpr trivial))
    · rename_i hlimit
      have hfound := hsearch met start t hf hstart ht (Slice.not_le.mp hlimit)
      refine Attempt.keeps_bind.mpr (hfound.mono ?_)
      rintro (e | target) s' ha
      · trivial
      · dsimp only
        split
        · trivial
        · refine Attempt.keeps_bind.mpr (Attempt.keeps_bind.mpr fun met ho hf => ⟨?_, ?_⟩)
          · exact hown (hgrows (ha target rfl) (hk.grows ho))
          · rcases (met.perform (.swapStart q .below target)).1 with e | _ | _ <;> trivial

theorem View.maintain_of_search {v : View} (hk : k.Protects p key)
    (hsearch : ∀ met start t, k.found (.readStart p.queue) met → met.start p.queue = some start →
      k.clock t → start < v.settleLimit t →
      (v.firstLiveSlice p.queue ((v.settleLimit t).index - start.index).toNat start).run.Keeps k
        (fun result s => ∀ target, result = .ok target → s.Admits p key target) met) :
    (v.maintain p.queue).run.Keeps k (fun _ _ => True) s := by
  refine View.maintain_of_found hk.allowsReads (fun ha hg => ha.grows hg) (fun ha => ?_) hsearch
  refine hk.own fun h => Store.spares_perform h fun slice he => ?_
  cases he
  exact ha

/-- Maintenance raises the browse start no further than the settle window allows. -/
theorem View.maintain_bounded {v : View} {P : Slice → Prop} (hk : k.AllowsReads)
    (hown : ∀ {target s}, P target → k.own (.swapStart q .below target) s)
    (hclock : ∀ t target, k.clock t → target ≤ v.settleLimit t → P target) :
    (v.maintain q).run.Keeps k (fun _ _ => True) s := by
  refine View.maintain_of_found (P := fun target _ => P target) hk (fun h _ => h) hown ?_
  intro met start t _ _ ht hlt
  refine (View.firstLiveSlice_index hk).mono fun _ _ ha target he => hclock t target ht ?_
  have hle := ha target he
  rw [Slice.lt_def] at hlt
  rw [Slice.le_def]
  omega

theorem View.maintain_keeps {v : View} (hk : k.Spares p key J) (hl : 0 < v.pageSize)
    (hb : p.bucket.id < v.allocator.bucketCount) :
    (v.maintain p.queue).run.Keeps k (fun _ _ => True) s :=
  View.maintain_of_search hk.toProtects fun met start t hf hstart _ _ => by
    obtain ⟨hs, hj⟩ := hk.opening hf (by simp [hstart])
    exact View.firstLiveSlice_keeps hk hl hb hj (hs.admits hstart)

theorem View.maintain_settled {v : View} (hk : k.Settled v p key) :
    (v.maintain p.queue).run.Keeps k (fun _ _ => True) s := by
  refine View.maintain_bounded hk.allowsReads (fun hle => ?_) fun t target ht hle =>
    Slice.le_trans hle (hk.settled ht)
  refine hk.own fun h => Store.spares_perform h fun slice he => .inr ?_
  cases he
  exact hle

end

end SpoolIndex
