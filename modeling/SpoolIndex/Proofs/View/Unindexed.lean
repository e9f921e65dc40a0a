import SpoolIndex.Proofs.Installation.Exactness
import SpoolIndex.Proofs.Operation.Serving
import SpoolIndex.Proofs.View.HandOff

/-!
# Items that are reported as unindexed

A record that fails before its item is appended leaves no item behind, and one that
finds the browse start beyond its item leaves it out of reach. But if the last look
at the browse start itself fails, the item is reported as unindexed and stays where
browses find it (`Request.unindexed_browsed_iff`).
-/

namespace SpoolIndex

variable {v : View} {q : QueueName} {key : Key} {s s' : Store} {path before after : List Exchange}

-- ---------------------------------------------------------------------------
-- The record in a request
-- ---------------------------------------------------------------------------

def Quiet (path : List Exchange) : Prop := ∀ x ∈ path, ∀ c, x.action ≠ .store c

theorem Reporting.quiet (h : Reporting path) : Quiet path := by
  intro x hx c hc
  have hreport := h x hx
  rw [hc] at hreport
  exact hreport

theorem Store.Undergoes.of_quiet (hp : Quiet path) (h : s.Undergoes Store.Tries path s') :
    s' = s := by
  refine h.keeps (R := fun s s' => s' = s) (fun _ => rfl) (fun h h' => h'.trans h) ?_
  rintro ⟨action, reply⟩ hx s s' hs
  cases hs with
  | answers h => exact h.of_other (hp _ hx)
  | fails c e => exact absurd rfl (hp _ hx c)

namespace View

/-- The store calls of the path are those of a record under a key, which end this way. -/
def Records (v : View) (q : QueueName) (key : Key) (path : List Exchange)
    (result : Except Error Unit) : Prop :=
  ∃ new moment before middle after, path = before ++ (middle ++ after) ∧ Quiet before ∧
    Quiet after ∧ v.Writes (v.itemOf q new key moment) middle result

theorem Records.cons {action : Action} {reply : action.Reply} (h : v.Records q key path result)
    (ha : ∀ c, action ≠ .store c) : v.Records q key (⟨action, reply⟩ :: path) result := by
  obtain ⟨new, moment, before, middle, after, rfl, hb, hafter, hw⟩ := h
  exact ⟨new, moment, ⟨action, reply⟩ :: before, middle, after, rfl,
    List.forall_mem_cons.mpr ⟨ha, hb⟩, hafter, hw⟩

theorem recordAt_records (h : (v.recordAt q new moment).run.Ends path result) :
    ∃ key inner, v.Records q key path inner ∧ result = inner.map fun _ => key := by
  have hkeyed {new : NewItem} {key : Key} {path : List Exchange} (hkey : new.key = some key)
      (h : (v.recordAt q new moment).run.Ends path result) :
      ∃ inner, v.Records q key path inner ∧ result = inner.map fun _ => key := by
    obtain ⟨before, middle, after, inner, rfl, hb, ha, hw, rfl⟩ := recordAt_ends hkey h
    exact ⟨inner, ⟨new, moment, before, middle, after, rfl, hb.quiet, ha.quiet,
      hw⟩, rfl⟩
  cases hkey : new.key with
  | some key => exact ⟨key, hkeyed hkey h⟩
  | none =>
    rw [recordAt_minted hkey] at h
    obtain ⟨_, rest, key, rfl, hmint, hrest⟩ := h.of_bind
    obtain rfl := hmint.of_perform
    obtain ⟨inner, hr, rfl⟩ := hkeyed (show (new.withKey key).key = some key from rfl) hrest
    exact ⟨key, inner, hr.cons fun _ => nofun, rfl⟩

theorem record_records (h : (v.record q new).run.Ends path result) :
    ∃ key inner, v.Records q key path inner ∧ result = inner.map fun _ => key := by
  obtain ⟨_, rest, moment, rfl, hnow, hrest⟩ := Attempt.ends_lift_bind h
  obtain rfl := hnow.of_perform
  obtain ⟨key, inner, hr, rfl⟩ := recordAt_records hrest
  exact ⟨key, inner, hr.cons fun _ => nofun, rfl⟩

theorem recordSent_records (h : (v.recordSent q new key moment receipt).run.Ends path result) :
    ∃ inner, v.Records q key path inner ∧ result = .ok (.ofRecord key receipt inner) := by
  obtain ⟨before, middle, after, inner, rfl, hb, ha, hw, rfl⟩ := recordSent_ends h
  exact ⟨inner, ⟨new, moment, before, middle, after, rfl, hb.quiet, ha.quiet, hw⟩, rfl⟩

theorem enqueue_records (h : (v.enqueue q new).run.Ends path (.ok result)) :
    ∃ key receipt inner, v.Records q key path inner ∧ result = .ofRecord key receipt inner := by
  obtain ⟨moment, key, before, rest, rfl, hbefore, hrest⟩ := enqueue_ends h
  obtain ⟨_, after, rfl, ⟨e, -, -, he⟩ | ⟨receipt, -, hsent⟩⟩ := enqueueAs_ends hrest
  · cases he
  obtain ⟨inner, hr, he⟩ := recordSent_records hsent
  cases he
  refine ⟨key, receipt, inner, ?_, rfl⟩
  obtain ⟨-, rfl⟩ | ⟨-, rfl⟩ := hbefore
  · refine Records.cons (Records.cons hr ?_) ?_ <;> exact fun _ => nofun
  · refine Records.cons (Records.cons (Records.cons hr ?_) ?_) ?_ <;> exact fun _ => nofun

end View

/-- The result of a request tells that the item under a key was not indexed. -/
inductive Request.Unindexed (q : QueueName) (key : Key) : Request → Except Error Response → Prop
  | record : Unindexed q key (.record q new) (.error (.indexing q key reason))
  | recordAt : Unindexed q key (.recordAt q new moment) (.error (.indexing q key reason))
  | enqueue : Unindexed q key (.enqueue q new) (.ok (.enqueued (.unindexed key receipt e)))

theorem Request.Unindexed.records {r : Request} (h : r.Unindexed q key result)
    (he : (r.perform v).run.Ends path result) : ∃ e, v.Records q key path (.error e) := by
  have hkey {k : Key} {inner : Except Error Unit} {reason : String} (hr : v.Records q k path inner)
      (he : (.error (.indexing q key reason) : Except Error Key) = inner.map fun _ => k) :
      ∃ e, v.Records q key path (.error e) := by
    obtain e | _ := inner <;> cases he
    obtain ⟨new, moment, -, middle, -, -, -, -, hw⟩ := id hr
    obtain ⟨reason', he⟩ := hw.reason rfl
    cases he
    exact ⟨_, hr⟩
  cases h with
  | record =>
    obtain ⟨_, hrecord, he⟩ | ⟨_, _, _, -, -, hdone⟩ := Attempt.ends_bind_cases he
    · cases he
      obtain ⟨k, inner, hr, he⟩ := View.record_records hrecord
      exact hkey hr he
    · exact nomatch hdone.of_done.2
  | recordAt =>
    obtain ⟨_, hrecord, he⟩ | ⟨_, _, _, -, -, hdone⟩ := Attempt.ends_bind_cases he
    · cases he
      obtain ⟨k, inner, hr, he⟩ := View.recordAt_records hrecord
      exact hkey hr he
    · exact nomatch hdone.of_done.2
  | enqueue =>
    obtain ⟨_, _, result, rfl, henqueue, hdone⟩ := Attempt.ends_bind he
    obtain ⟨rfl, he⟩ := hdone.of_done
    obtain ⟨k, receipt, inner, hr, rfl⟩ := View.enqueue_records henqueue
    obtain e | _ := inner <;> cases he
    exact ⟨_, by rwa [List.append_nil]⟩

-- ---------------------------------------------------------------------------
-- The rows of a key
-- ---------------------------------------------------------------------------

namespace Store

theorem mem_items_perform (h : x ∈ (s.perform c).2.items p) :
    x ∈ s.items p ∨ c = .appendItem x := by
  by_cases hc : ∃ y, c = .appendItem y
  · obtain ⟨y, rfl⟩ := hc
    obtain ⟨rfl, -⟩ | h := mem_append h
    · exact .inr rfl
    · exact .inl h
  · rw [items_perform fun y hy => hc ⟨y, hy⟩] at h
    exact .inl h

theorem mem_items_after (h : x ∈ (s.after calls).items p) :
    x ∈ s.items p ∨ .appendItem x ∈ calls := by
  induction calls with
  | nil => exact .inl h
  | cons c calls ih =>
    obtain h | rfl := mem_items_perform h
    · exact (ih h).imp_right (List.mem_cons_of_mem _)
    · exact .inr List.mem_cons_self

theorem Undergoes.mem_items (h : s.Undergoes Store.Tries path s') (hx : x ∈ s'.items p) :
    x ∈ s.items p ∨ ⟨.store (.appendItem x), .ok ()⟩ ∈ path := by
  induction h with
  | nil s => exact .inl hx
  | cons h hs ih =>
    obtain hx | hx := ih hx
    · cases h with
      | fails c e => exact .inl hx
      | answers h =>
        cases h with
        | other => exact .inl hx
        | store c =>
          obtain hx | rfl := mem_items_perform hx
          · exact .inl hx
          · exact .inr List.mem_cons_self
    · exact .inr (List.mem_cons_of_mem _ hx)

end Store

theorem BrowseStart.Establishes.not_append (h : Establishes q slice path result)
    {reply : Except Error Unit} : ⟨.store (.appendItem x), reply⟩ ∉ path := by
  cases h <;> simp

namespace View

/-- If the append of a record is answered and the record fails all the same, then the item is
stored, and its place is out of reach unless the last look has failed. -/
theorem Writes.appended_of_mem (h : v.Writes y path result) (herror : result = .error e)
    (hs : s.Undergoes (.among Eq) path s') (hx : ⟨.store (.appendItem x), .ok ()⟩ ∈ path) :
    x = y ∧ s' = v.written x s ∧
      (s'.Reaches x.queue x.slice → ∃ e, ⟨.store (.readStart x.queue), .error e⟩ ∈ path) := by
  cases h with
  | unopened h => exact absurd hx h.not_append
  | unappended _ h =>
    rcases List.mem_append.mp hx with hx | hx
    · exact absurd hx h.not_append
    · cases List.mem_singleton.mp hx
  | appended read h =>
    obtain rfl : x = y := by
      rcases List.mem_append.mp hx with hx | hx
      · exact absurd hx h.not_append
      rcases List.mem_cons.mp hx with hx | hx
      · cases hx
        rfl
      · cases List.mem_singleton.mp hx
    obtain ⟨rfl, rfl | ⟨e', rfl⟩⟩ := undergoes_appended h hs
    · refine ⟨rfl, rfl, fun hreaches => ?_⟩
      obtain ⟨start, hstart, hle⟩ := hreaches
      rw [hstart] at herror
      cases (verdict_ok_iff.mpr hle).symm.trans herror
    · exact ⟨rfl, rfl, fun _ => ⟨e', by simp⟩⟩

theorem Records.appended_of_mem (h : v.Records q key path (.error e))
    (hs : s.Undergoes Store.Tries path s') (hx : ⟨.store (.appendItem x), .ok ()⟩ ∈ path) :
    x.queue = q ∧ x.key = key ∧ s' = v.written x s ∧
      (s'.Reaches q x.slice → ∃ e, ⟨.store (.readStart q), .error e⟩ ∈ path) := by
  obtain ⟨new, moment, before, middle, after, rfl, hb, ha, hw⟩ := h
  obtain ⟨s₁, hfirst, hrest⟩ := Store.undergoes_append.mp hs
  obtain ⟨s₂, hmiddle, hlast⟩ := Store.undergoes_append.mp hrest
  obtain rfl := hfirst.of_quiet hb
  obtain rfl := hlast.of_quiet ha
  have hx : ⟨.store (.appendItem x), .ok ()⟩ ∈ middle := by
    rcases List.mem_append.mp hx with hx | hx
    · exact absurd rfl (hb _ hx _)
    rcases List.mem_append.mp hx with hx | hx
    · exact hx
    · exact absurd rfl (ha _ hx _)
  obtain ⟨rfl, hwritten, hlook⟩ := hw.appended_of_mem rfl
    (hmiddle.mono fun _ _ _ _ h => ⟨_, rfl, .tries h⟩) hx
  refine ⟨rfl, rfl, hwritten, fun hreaches => ?_⟩
  obtain ⟨e, he⟩ := hlook hreaches
  exact ⟨e, List.mem_append_right _ (List.mem_append_left _ he)⟩

end View

-- ---------------------------------------------------------------------------
-- Later browses
-- ---------------------------------------------------------------------------

/-- The item of a record that was reported as unindexed is found by a later browse exactly if its
append succeeded and the look at the browse start after it failed, while nobody has deleted the key
or moved the browse start past the item. -/
theorem Request.unindexed_browsed_iff (v : View) (r : Request) (q : QueueName) (key : Key)
    (answer : (action : Action) → σ → action.Reply × σ) (store : σ → Store) (w : σ)
    (hw : ∀ action w, (store w).Tries action (answer action w).1 (store (answer action w).2))
    (hs : (store w).Proper) (hnew : ∀ p, p.queue = q → ¬(store w).Holds p key)
    (hr : r.Unindexed q key ((r.perform v).run.run answer w).1) (later : List StoreCall)
    (hlater : ∀ x, .appendItem x ∈ later → x.queue = q → x.key ≠ key) (config : Config)
    (t : Instant) :
    let path := (r.perform v).run.transcript answer w
    let s := (store ((r.perform v).run.run answer w).2).after later
    let reader := View.ofConfig config
    ∃ items : List Item, (((browse q Browse.patience).perform reader).run.run
        (fun action s => Store.answer s t action) s).1 = .ok (.browsed (items.map .ok) []) ∧
      ((∃ x ∈ items, x.key = key) ↔
        ∃ x e, ⟨.store (.appendItem x), .ok ()⟩ ∈ path ∧ ⟨.store (.readStart q), .error e⟩ ∈ path ∧
          key ∉ s.tombstones q ∧ s.Reaches q x.slice ∧
          x.bucket.id < reader.allocator.bucketCount ∧ x.slice ≤ reader.allocator.sliceOf t) := by
  intro path s reader
  have hends := Operation.ends_transcript answer (r.perform v).run w
  have hundergoes := (r.perform v).run.undergoes_transcript w hw
  obtain ⟨e, hrecords⟩ := hr.records hends
  have hgrows : Store.Grows _ s := Store.grows_after _ later
  have hlast := (hundergoes.mono fun _ _ _ _ h => ⟨_, rfl, .tries h⟩).grows
    (show ∀ s s' : Store, s = s' → s.Grows s' by rintro s _ rfl; exact .refl s)
  have hproper := hgrows.proper (hlast.proper hs)
  obtain ⟨⟨items, hbrowse, hlisted⟩, -⟩ := (browse_listed (q := q)
    (View.ofConfig_pageSize_pos config) (View.ofConfig_fanOut_pos config) hproper).served
    (Store.serves_answer t) rfl
  refine ⟨items, hbrowse, ?_⟩
  have hfresh {x : Item} (hq : x.queue = q) (hkey : x.key = key) :
      x ∉ (store w).items x.partition := fun hx => hnew _ hq ⟨x, hx, hkey⟩
  constructor
  · rintro ⟨x, hx, hkey⟩
    obtain ⟨hstored, hq, hbucket, hlive, hreached, htimely⟩ := hlisted.mem_iff.mp hx
    -- the row is that of the record: none of the key was there before, and none comes later
    obtain hstored | happend := Store.mem_items_after hstored
    · obtain hold | happended := hundergoes.mem_items hstored
      · exact absurd hold (hfresh hq hkey)
      obtain ⟨-, -, hwritten, hlook⟩ := hrecords.appended_of_mem hundergoes happended
      have hopen := v.open_written x (store w)
      rw [← hwritten, hq] at hopen
      obtain ⟨e, he⟩ := hlook (hreached.of_grows hgrows hopen)
      exact ⟨x, e, happended, he, hkey ▸ hlive, hreached, hbucket, htimely⟩
    · exact absurd hkey (hlater x happend hq)
  · rintro ⟨x, e, happended, -, hlive, hreached, hbucket, htimely⟩
    obtain ⟨hq, hkey, hwritten, -⟩ := hrecords.appended_of_mem hundergoes happended
    refine ⟨x, hlisted.mem_iff.mpr ⟨?_, hq, hbucket, hkey ▸ hlive, hreached, htimely⟩, hkey⟩
    refine hgrows.items _ x ?_
    rw [hwritten, View.written, Store.items_append_same, Store.items_openedAt]
    exact (mem_insertByKey (hs.sorted _)).mpr
      (.inr ⟨rfl, fun y hy he => hnew _ hq ⟨y, hy, he.trans hkey⟩⟩)

namespace Sample

def hidesStart : (action : Action) → Store → action.Reply × Store
  | .store (.readStart _), s => (.error (.unavailable "down"), s)
  | action, s => s.answer twoHours action

theorem hidesStart_tries (action : Action) (s : Store) :
    s.Tries action (hidesStart action s).1 (hidesStart action s).2 := by
  cases action with
  | store c =>
    cases c with
    | readStart q => exact .fails (.readStart q) (.unavailable "down")
    | _ => exact .answers (.store _)
  | _ => exact .answers (s.answers_answer twoHours _)

/-- A mail that is enqueued in an empty store is reported as unindexed, and the next browse finds
it. -/
theorem unindexedMail_browsed :
    let (result, s) := (view.enqueue spool mail).run.run hidesStart .empty
    result = .ok (.unindexed default default
      (.indexing spool default "storage unavailable: down")) ∧
    ∃ items : List Item, (((Request.browse spool Browse.patience).perform view).run.run
        (fun action s => Store.answer s twoHours action) s).1 = .ok (.browsed (items.map .ok) []) ∧
      ∃ x ∈ items, x.key = default := by
  have hr : (Request.enqueue spool mail).Unindexed spool default
      ((((Request.enqueue spool mail).perform view).run.run hidesStart .empty).1) := .enqueue
  obtain ⟨items, hbrowse, hfound⟩ := Request.unindexed_browsed_iff view (.enqueue spool mail) spool
    default hidesStart id .empty hidesStart_tries Store.proper_empty
    (fun _ _ ⟨_, hx, _⟩ => nomatch hx) hr [] (fun _ hx => nomatch hx) .default twoHours
  refine ⟨rfl, items, hbrowse, hfound.mpr ⟨view.itemOf spool mail default twoHours,
    .unavailable "down", ?_, ?_, List.not_mem_nil, ⟨_, rfl, ?_⟩, ?_, Slice.le_refl _⟩⟩
  · exact List.mem_of_getElem? (i := 6) rfl
  · exact List.mem_of_getElem? (i := 7) rfl
  · decide
  · exact View.places_itemOf.bucket_lt

end Sample

end SpoolIndex
