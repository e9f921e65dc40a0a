import SpoolIndex.CommandLine.Commands
import SpoolIndex.Proofs.Allocation.Tiling
import SpoolIndex.Proofs.Installation.Exactness
import SpoolIndex.Proofs.Key.Order
import SpoolIndex.Proofs.Key.Rendering
import SpoolIndex.Proofs.Operation.Faltering
import SpoolIndex.Proofs.View.Unindexed

/-!
# The slice that a key tells

A record that makes its own key stores the item in the slice of its moment. The
key keeps only the milliseconds of that moment, but slices are whole milliseconds
as well, so a delete that is given no slice takes from the key the very slice that
a browse shows the item in (`View.key_tells_slice`).
-/

namespace SpoolIndex

-- ---------------------------------------------------------------------------
-- The moment of a key
-- ---------------------------------------------------------------------------

/-- The key was made for the moment by a generator that had made others before, whatever those were
for, and never so many for one millisecond that its counter could run over. -/
def Key.MadeFor (key : Key) (moment : Instant) : Prop :=
  ∃ past entropy, KeyGenerator.Sparse (past ++ [(moment, entropy)]) ∧
    key = ((KeyGenerator.new.after past).keyAt moment entropy).1

/-- The moments that a key has room for, from 1970 up to `2 ^ 48` milliseconds later. -/
def Instant.FitsKey (t : Instant) : Prop := epoch ≤ t ∧ KeyGenerator.clampedMillis t < 2 ^ 48

section
variable {key : Key} {moment : Instant}

theorem Instant.FitsKey.clampedMillis_eq (h : moment.FitsKey) :
    (KeyGenerator.clampedMillis moment : Int) = moment.millis := by
  have hfrom : ¬moment < epoch := by
    have hepoch := le_def.mp h.1
    rw [lt_def]
    omega
  rw [KeyGenerator.clampedMillis_eq, if_neg hfrom]

theorem Key.MadeFor.compose (h : key.MadeFor moment) :
    ∃ low, key = KeyGenerator.compose (KeyGenerator.clampedMillis moment) low := by
  obtain ⟨past, entropy, hsparse, rfl⟩ := h
  have hnew : KeyGenerator.InStep .new [] := ⟨rfl, by decide⟩
  have hbehind : KeyGenerator.InStep (KeyGenerator.new.after past) past :=
    hnew.after hsparse.of_append
  exact KeyGenerator.key_of_inStep (hbehind.keyAt hsparse)

/-- The moment that a key tells is in the millisecond that the key was made for. -/
theorem Key.MadeFor.timestamp (h : key.MadeFor moment) (hfits : moment.FitsKey) :
    ∃ told, key.timestamp = some told ∧ told.millis = moment.millis := by
  obtain ⟨low, rfl⟩ := h.compose
  obtain ⟨told, htold⟩ := KeyGenerator.exists_ofMillis? hfits.2
  refine ⟨told, ?_, ?_⟩
  · rw [KeyGenerator.timestamp_compose hfits.2, htold]
  · rw [Instant.millis_of_ofMillis? htold, hfits.clampedMillis_eq]

/-- Slices do not tell the moments of one millisecond apart. -/
theorem Allocator.sliceOf_congr {a : Allocator} {t u : Instant} (h : t.millis = u.millis) :
    a.sliceOf t = a.sliceOf u := by
  rw [sliceOf, sliceOf, h]

theorem Key.MadeFor.slice (h : key.MadeFor moment) (hfits : moment.FitsKey) (a : Allocator) :
    key.timestamp.map a.sliceOf = some (a.sliceOf moment) := by
  obtain ⟨told, htold, hmillis⟩ := h.timestamp hfits
  rw [htold, Option.map_some, Allocator.sliceOf_congr hmillis]

@[simp] theorem Key.parse_render (key : Key) : Key.parse key.render = .ok key := by
  rw [parse, ofText?_render]

/-- Without a slice, the command deletes from the one that the key tells. -/
theorem CommandLine.delete_of_key {v : View} {slice : Slice}
    (h : key.timestamp.map v.allocator.sliceOf = some slice) :
    delete v q key.render none = (do
      let result ← (v.delete q key slice).run
      return .ofResult (fun _ => ["Deleted: " ++ key.render]) result) := by
  simp only [delete, Key.parse_render, h]
  rfl

end

-- ---------------------------------------------------------------------------
-- Paths on which no key is made
-- ---------------------------------------------------------------------------

section
variable {x : Item} {path before after : List Exchange} {s s' : Store}

def Mintless (path : List Exchange) : Prop := ∀ e ∈ path, ∀ t, e.action ≠ .mint t

theorem mintless_of_recording {v : View} (h : ∀ e ∈ path, v.IsRecording x e.action) :
    Mintless path := by
  intro e he t ht
  have hrecording := h e he
  rw [ht] at hrecording
  exact hrecording

theorem Mintless.append (h : Mintless path) (h' : Mintless path') : Mintless (path ++ path') :=
  List.forall_mem_append.mpr ⟨h, h'⟩

/-- No key is made while an item is recorded. -/
theorem mintless_recorded {v : View} (hb : Reporting before) (hw : v.Writes x middle result)
    (ha : Reporting after) : Mintless (before ++ (middle ++ after)) := by
  have hbefore := mintless_of_recording (v := v) (x := x) hb.recording
  have hafter := mintless_of_recording (v := v) (x := x) ha.recording
  exact hbefore.append ((mintless_of_recording hw.recording).append hafter)

theorem mem_mint_iff (hb : Mintless before) (ha : Mintless after) {moment t : Instant}
    {made key : Key} : ⟨.mint t, key⟩ ∈ before ++ ⟨.mint moment, made⟩ :: after ↔
      t = moment ∧ key = made := by
  constructor
  · intro h
    rcases List.mem_append.mp h with h | h
    · exact absurd rfl (hb _ h t)
    · rcases List.mem_cons.mp h with h | h
      · cases h
        exact ⟨rfl, rfl⟩
      · exact absurd rfl (ha _ h t)
  · rintro ⟨rfl, rfl⟩
    simp

theorem Store.Undergoes.of_quiet_among (hp : Quiet path) (h : s.Undergoes (.among Eq) path s') :
    s' = s := by
  refine h.keeps (R := fun s s' => s' = s) (fun _ => rfl) (fun h h' => h'.trans h) ?_
  rintro e he s s' ⟨_, rfl, hs⟩
  exact hs.of_other (hp e he)

end

-- ---------------------------------------------------------------------------
-- Records that make their keys
-- ---------------------------------------------------------------------------

def Request.RecordsUnkeyed (q : QueueName) (new : NewItem) : Request → Prop
  | .record q' new' | .recordAt q' new' _ | .enqueue q' new' => q' = q ∧ new' = new ∧ new.key = none
  | _ => False

namespace View

/-- Either the transport refuses the mail and nothing is stored, or the item is recorded. -/
inductive Indexes (v : View) (x : Item) : List Exchange → Bool → Prop
  | refused {path : List Exchange} (m : Message) (e : Error) (hm : ⟨.send m, .error e⟩ ∈ path)
    (h : Quiet path) : Indexes v x path false
  | recorded {before middle after : List Exchange} {inner : Except Error Unit}
    (hb : Quiet before) (hw : v.Writes x middle inner) (ha : Quiet after) :
    Indexes v x (before ++ (middle ++ after)) inner.isOk

/-- One key is made, for a moment, and an item is recorded under it. -/
structure Mints (v : View) (x : Item) (moment : Instant) (path : List Exchange) (ok : Bool) :
    Prop where
  once : ∀ t key, ⟨.mint t, key⟩ ∈ path ↔ t = moment ∧ key = x.key
  indexes : v.Indexes x path ok

section
variable {v : View} {x : Item} {path : List Exchange} {s s' : Store} {ok : Bool}

theorem Indexes.appends (h : v.Indexes x path ok) {y : Item} {reply : Except Error Unit}
    (hy : ⟨.store (.appendItem y), reply⟩ ∈ path) : y = x := by
  cases h with
  | refused m e hm h => exact absurd rfl (h _ hy _)
  | recorded hb hw ha =>
    simp only [List.mem_append] at hy
    rcases hy with hy | hy | hy
    · exact absurd rfl (hb _ hy _)
    · exact (hw.recording _ hy).of_append
    · exact absurd rfl (ha _ hy _)

theorem Indexes.undergoes (h : v.Indexes x path ok) (hs : s.Undergoes (.among Eq) path s') :
    s' = s ∧ ok = false ∨
      ∃ middle inner, v.Writes x middle inner ∧ s.Undergoes (.among Eq) middle s' ∧
        ok = inner.isOk := by
  cases h with
  | refused m e hm h => exact .inl ⟨hs.of_quiet_among h, rfl⟩
  | recorded hb hw ha =>
    obtain ⟨s₁, hbefore, hrest⟩ := Store.undergoes_append.mp hs
    obtain ⟨s₂, hmiddle, hafter⟩ := Store.undergoes_append.mp hrest
    rw [hbefore.of_quiet_among hb] at hmiddle
    rw [← hafter.of_quiet_among ha] at hmiddle
    exact .inr ⟨_, _, hw, hmiddle, rfl⟩

theorem Indexes.mem_items (h : v.Indexes x path ok) (hs : s.Undergoes (.among Eq) path s')
    (hy : y ∈ s'.items p) : y = x ∨ y ∈ s.items p := by
  obtain ⟨rfl, -⟩ | ⟨_, _, hw, hmiddle, -⟩ := h.undergoes hs
  · exact .inr hy
  obtain rfl | rfl | rfl := hw.leaves hmiddle
  · exact .inr hy
  · rw [Store.items_openedAt] at hy
    exact .inr hy
  · refine (Store.mem_append hy).imp And.left fun hy => ?_
    rwa [Store.items_openedAt] at hy

theorem Indexes.tombstones (h : v.Indexes x path ok) (hs : s.Undergoes (.among Eq) path s') :
    s'.tombstones = s.tombstones := by
  have hopened : (s.openedAt x.queue (x.slice.back v.settleSlices)).tombstones = s.tombstones :=
    Store.tombstones_perform fun _ _ => StoreCall.noConfusion
  obtain ⟨rfl, -⟩ | ⟨_, _, hw, hmiddle, -⟩ := h.undergoes hs
  · rfl
  obtain rfl | rfl | rfl := hw.leaves hmiddle
  · rfl
  · exact hopened
  · exact hopened

/-- An item is in the store and in reach of browses once it is acknowledged. -/
theorem Indexes.acknowledged (h : v.Indexes x path true) (hs : s.Undergoes (.among Eq) path s') :
    s'.Holds x.partition x.key ∧ s'.Reaches x.queue x.slice := by
  obtain ⟨-, hok⟩ | ⟨_, inner, hw, hmiddle, hok⟩ := h.undergoes hs
  · cases hok
  obtain e | ⟨⟩ := inner
  · cases hok
  obtain ⟨rfl, _, start, -, hstart, hle⟩ := hw.acknowledged rfl hmiddle
  exact ⟨Store.holds_append _ x, start, hstart, hle⟩

theorem Indexes.mem_of_fresh (h : v.Indexes x path ok) (hs : s.Undergoes (.among Eq) path s')
    (hfresh : ∀ p, ¬s.Holds p x.key) (hx : s'.Holds x.partition x.key) :
    x ∈ s'.items x.partition := by
  obtain ⟨y, hy, hkey⟩ := hx
  obtain rfl | hold := h.mem_items hs hy
  · exact hy
  · exact absurd ⟨y, hold, hkey⟩ (hfresh _)

theorem Indexes.alone (h : v.Indexes x path ok) (hs : s.Undergoes Store.Answers path s')
    (haccepted : ∀ m e, ⟨.send m, .error e⟩ ∉ path) : s'.Holds x.partition x.key := by
  cases h with
  | refused m e hm h => exact absurd hm (haccepted m e)
  | recorded hb hw ha =>
    obtain ⟨s₁, -, hrest⟩ := Store.undergoes_append.mp hs
    obtain ⟨s₂, hmiddle, hafter⟩ := Store.undergoes_append.mp hrest
    obtain ⟨rfl, -⟩ := hw.alone hmiddle
    have hafter : v.written x s₁ = s' := by
      refine (hafter.mono fun _ _ _ _ h => ⟨_, rfl, .tries (.answers h)⟩).of_quiet_among ha |>.symm
    rw [← hafter]
    exact Store.holds_append _ x

-- ---------------------------------------------------------------------------
-- Requests without keys
-- ---------------------------------------------------------------------------

theorem mints_recorded {front back before middle after : List Exchange}
    {inner : Except Error Unit} (hf : Mintless front ∧ Quiet front)
    (hk : Mintless back ∧ Quiet back)
    (hb : Reporting before) (hw : v.Writes x middle inner) (ha : Reporting after) :
    v.Mints x moment (front ++ ⟨.mint moment, x.key⟩ :: (back ++ (before ++ (middle ++ after))))
      inner.isOk := by
  refine ⟨fun t made => mem_mint_iff hf.1 (hk.1.append (mintless_recorded hb hw ha)), ?_⟩
  have hquiet : Quiet (front ++ ⟨.mint moment, x.key⟩ :: (back ++ before)) := by
    refine List.forall_mem_append.mpr ⟨hf.2, List.forall_mem_cons.mpr ⟨fun _ => nofun, ?_⟩⟩
    exact List.forall_mem_append.mpr ⟨hk.2, hb.quiet⟩
  have h := Indexes.recorded hquiet hw ha.quiet
  simpa only [List.append_assoc, List.cons_append] using h

theorem recordAt_mints (h : new.key = none)
    (he : (v.recordAt q new moment).run.Ends path result) :
    ∃ key, v.Mints (v.itemOf q new key moment) moment path result.isOk := by
  rw [recordAt_minted h] at he
  obtain ⟨_, _, key, rfl, hmint, hrest⟩ := he.of_bind
  obtain rfl := hmint.of_perform
  obtain ⟨before, middle, after, inner, rfl, hb, ha, hw, rfl⟩ :=
    recordAt_ends (show (new.withKey key).key = some key from rfl) hrest
  have hnone : Mintless [] ∧ Quiet [] := ⟨fun _ => nofun, fun _ => nofun⟩
  have hok : (inner.map fun _ => key).isOk = inner.isOk := by cases inner <;> rfl
  refine ⟨key, ?_⟩
  rw [hok]
  exact mints_recorded hnone hnone hb hw ha

end

end View

theorem Attempt.ends_then {x : Attempt α} {f : α → β}
    (h : (do return f (← x) : Attempt β).run.Ends path result) :
    ∃ inner, x.run.Ends path inner ∧ result = inner.map f := by
  obtain ⟨e, hx, rfl⟩ | ⟨_, _, value, rfl, hx, hdone⟩ := ends_bind_cases h
  · exact ⟨.error e, hx, rfl⟩
  · obtain ⟨rfl, rfl⟩ := hdone.of_done
    exact ⟨.ok value, by rwa [List.append_nil], rfl⟩

theorem Request.acknowledged_recorded (result : Except Error Key) :
    acknowledged (result.map .recorded) = result.isOk := by
  cases result <;> rfl

namespace View

section
variable {v : View} {x : Item} {path : List Exchange} {ok : Bool}

theorem Mints.after_now (h : v.Mints x moment path ok) :
    v.Mints x moment (⟨.now, t⟩ :: path) ok := by
  refine ⟨fun t' key => ?_, ?_⟩
  · rw [List.mem_cons, ← h.once t' key]
    exact or_iff_right (fun hnow => by cases hnow)
  · cases h.indexes with
    | refused m e hm hquiet =>
      refine .refused m e (List.mem_cons_of_mem _ hm) ?_
      exact List.forall_mem_cons.mpr ⟨fun _ => nofun, hquiet⟩
    | @recorded before _ _ _ hb hw ha =>
      have hbefore : Quiet (⟨.now, t⟩ :: before) :=
        List.forall_mem_cons.mpr ⟨fun _ => nofun, hb⟩
      exact (Indexes.recorded hbefore hw ha :)

theorem enqueue_mints (h : new.key = none) (he : (v.enqueue q new).run.Ends path result) :
    ∃ moment key, v.Mints (v.itemOf q new key moment) moment path
      (Request.acknowledged (result.map .enqueued)) := by
  obtain ⟨moment, key, prelude, rest, rfl, hprelude, hrest⟩ := enqueue_ends he
  obtain ⟨-, rfl⟩ : new.key = none ∧ prelude = [⟨.now, moment⟩, ⟨.mint moment, key⟩] := by
    obtain ⟨hkey, -⟩ | hminted := hprelude
    · rw [h] at hkey
      cases hkey
    · exact hminted
  have hnow : Mintless [⟨.now, moment⟩] ∧ Quiet [⟨.now, moment⟩] :=
    ⟨List.forall_mem_singleton.mpr fun _ => nofun, List.forall_mem_singleton.mpr fun _ => nofun⟩
  refine ⟨moment, key, ?_⟩
  obtain ⟨sent, after, rfl, ⟨e, rfl, rfl, rfl⟩ | ⟨receipt, rfl, hsent⟩⟩ := enqueueAs_ends hrest
  · have hmintless : Mintless [⟨.send (new.message q key moment), .error e⟩] :=
      List.forall_mem_singleton.mpr fun _ => nofun
    have hquiet : Quiet [⟨.now, moment⟩, ⟨.mint moment, key⟩,
        ⟨.send (new.message q key moment), .error e⟩] := by simp [Quiet]
    refine ⟨fun t made => mem_mint_iff hnow.1 hmintless, ?_⟩
    exact .refused (new.message q key moment) e (by simp) hquiet
  · obtain ⟨before, middle, after, inner, rfl, hb, ha, hw, rfl⟩ := recordSent_ends hsent
    have hsend : Mintless [⟨.send (new.message q key moment), .ok receipt⟩] ∧
        Quiet [⟨.send (new.message q key moment), .ok receipt⟩] :=
      ⟨List.forall_mem_singleton.mpr fun _ => nofun, List.forall_mem_singleton.mpr fun _ => nofun⟩
    have hok : Request.acknowledged ((Except.ok (.ofRecord key receipt inner)).map .enqueued) =
        inner.isOk := by cases inner <;> rfl
    rw [hok]
    exact mints_recorded hnow hsend hb hw ha

theorem mints_of_ends {r : Request} (hr : r.RecordsUnkeyed q new)
    (he : (r.perform v).run.Ends path result) :
    ∃ moment key, v.Mints (v.itemOf q new key moment) moment path
      (Request.acknowledged result) := by
  cases r with
  | record q' new' =>
    obtain ⟨rfl, rfl, hkey⟩ := hr
    obtain ⟨inner, hrecord, rfl⟩ := Attempt.ends_then he
    obtain ⟨_, _, moment, rfl, hnow, hrest⟩ := Attempt.ends_lift_bind hrecord
    obtain rfl := hnow.of_perform
    obtain ⟨key, h⟩ := recordAt_mints hkey hrest
    refine ⟨moment, key, ?_⟩
    rw [Request.acknowledged_recorded]
    exact h.after_now
  | recordAt q' new' moment =>
    obtain ⟨rfl, rfl, hkey⟩ := hr
    obtain ⟨inner, hrecord, rfl⟩ := Attempt.ends_then he
    rw [Request.acknowledged_recorded]
    exact ⟨moment, recordAt_mints hkey hrecord⟩
  | enqueue q' new' =>
    obtain ⟨rfl, rfl, hkey⟩ := hr
    obtain ⟨inner, henqueue, rfl⟩ := Attempt.ends_then he
    exact enqueue_mints hkey henqueue
  | _ => exact hr.elim

end

end View

-- ---------------------------------------------------------------------------
-- What browses show
-- ---------------------------------------------------------------------------

/-- A mail that is recorded without a key, by whatever request and whoever answers it, gets one key,
which is made for the moment of the item. If the key is made for a moment that it has room for, then
it tells the slice of the item, and the command that is given no slice deletes the key from this
one and says so. Without failures the item is stored. If no other item has the key, then all that a
browse later shows under the key is the item in this slice; and if the item is acknowledged and not
deleted, a browse shows it from its slice on. -/
theorem View.key_tells_slice (v : View) (q : QueueName) (new : NewItem) (r : Request)
    (answer : (action : Action) → σ → action.Reply × σ) (w : σ) (hr : r.RecordsUnkeyed q new)
    (hmade : ∀ moment key, ⟨.mint moment, key⟩ ∈ (r.perform v).run.transcript answer w →
      key.MadeFor moment ∧ moment.FitsKey) :
    let op := (r.perform v).run
    let path := op.transcript answer w
    ∃ moment key, let x := v.itemOf q new key moment
      (∀ t k, ⟨.mint t, k⟩ ∈ path ↔ t = moment ∧ k = key) ∧
      (∀ y reply, ⟨.store (.appendItem y), reply⟩ ∈ path → y = x) ∧
      key.timestamp.map v.allocator.sliceOf = some x.slice ∧
      (∀ v' : View, v'.allocator = v.allocator →
        CommandLine.delete v' q key.render none = (do
          let result ← (v'.delete q key x.slice).run
          return .ofResult (fun _ => ["Deleted: " ++ key.render]) result)) ∧
      ∀ store : σ → Store, Hosts answer store Eq →
        let first := store w
        let last := store (op.run answer w).2
        let ok := Request.acknowledged (op.run answer w).1
        (∀ t, Serves answer store t → (∀ m e, ⟨.send m, .error e⟩ ∉ path) →
          last.Holds x.partition key) ∧
        (first.Proper → (∀ p, ¬first.Holds p key) → ∀ (v' : View) (t : Instant),
          v'.allocator = v.allocator → 0 < v'.pageSize → 0 < v'.fanOut →
          ∃ items : List Item, (((Request.browse q Browse.patience).perform v').run.run
              (fun action s => Store.answer s t action) last).1 =
              .ok (.browsed (items.map .ok) []) ∧
            (∀ y ∈ items, y.key = key → y = x) ∧
            (ok → key ∉ first.tombstones q → x.slice ≤ v.allocator.sliceOf t → x ∈ items)) := by
  intro op path
  have hends := Operation.ends_transcript answer op w
  obtain ⟨moment, key, hmints⟩ := mints_of_ends hr hends
  obtain ⟨hkey, hfits⟩ := hmade moment key ((hmints.once moment key).mpr ⟨rfl, rfl⟩)
  have htells : key.timestamp.map v.allocator.sliceOf = some (v.allocator.sliceOf moment) :=
    hkey.slice hfits v.allocator
  refine ⟨moment, key, hmints.once, fun y reply => hmints.indexes.appends, htells, ?_, ?_⟩
  · intro v' hv
    refine CommandLine.delete_of_key ?_
    rw [hv]
    exact htells
  intro store hw first last ok
  have hundergoes := Operation.undergoes_transcript op w hw
  refine ⟨fun t hserves haccepted => ?_, fun hproper hfresh v' t hv hl hfan => ?_⟩
  · exact hmints.indexes.alone (hserves.undergoes op w) haccepted
  have hproper' : last.Proper := by
    refine (hundergoes.grows ?_).proper hproper
    rintro s _ rfl
    exact .refl s
  obtain ⟨⟨items, hbrowse, hlisted⟩, -⟩ :=
    (Request.browse_listed hl hfan hproper').served (Store.serves_answer t) rfl
  refine ⟨items, hbrowse, ?_, ?_⟩
  · intro y hy hykey
    have hstored := (hlisted.mem_iff.mp hy).stored
    refine (hmints.indexes.mem_items hundergoes hstored).resolve_right fun hold => ?_
    exact hfresh _ ⟨y, hold, hykey⟩
  · intro hok hlive htimely
    have hindexes : v.Indexes (v.itemOf q new key moment) path true := by
      rw [← hok]
      exact hmints.indexes
    obtain ⟨hholds, hreaches⟩ := hindexes.acknowledged hundergoes
    have hstored := hindexes.mem_of_fresh hundergoes hfresh hholds
    refine hlisted.mem_iff.mpr ⟨hstored, rfl, ?_, ?_, hreaches, ?_⟩
    · rw [hv]
      exact places_itemOf.bucket_lt
    · rw [hindexes.tombstones hundergoes]
      exact hlive
    · rw [hv]
      exact htimely

theorem Operation.reply_of_mem_transcript {answer : (action : Action) → σ → action.Reply × σ}
    {op : Operation α} (h : e ∈ op.transcript answer w) :
    ∃ w', e.reply = (answer e.action w').1 := by
  induction op generalizing w with
  | done value => cases h
  | act action next ih =>
    rcases List.mem_cons.mp h with rfl | h
    · exact ⟨w, rfl⟩
    · exact ih _ h

namespace Sample

def unkeyed : NewItem := .new "mail" ⟨"header"⟩ ⟨"body"⟩

def beforeTwo : Instant := .endOf 7199 (by decide) (by decide)

def minting : (action : Action) → Store × KeyGenerator → action.Reply × (Store × KeyGenerator)
  | .mint moment, (s, g) => ((g.keyAt moment ⟨3, 9⟩).1, (s, (g.keyAt moment ⟨3, 9⟩).2))
  | action, (s, g) => ((s.answer twoHours action).1, ((s.answer twoHours action).2, g))

theorem minting_serves : Serves minting Prod.fst twoHours where
  answers action w := by
    cases action with
    | mint moment => exact .other (fun _ h => Action.noConfusion h) _
    | _ => exact w.1.answers_answer twoHours _
  clock _ := rfl

def afterTwo : Store × KeyGenerator := (.empty, KeyGenerator.new.after [(twoHours, ⟨5, 1⟩)])

/-- The mail of the moment before is replayed, and its key made out of order. -/
theorem replayed_key_tells_slice :
    let op := ((Request.recordAt spool unkeyed beforeTwo).perform view).run
    let key := (afterTwo.2.keyAt beforeTwo ⟨3, 9⟩).1
    let x := view.itemOf spool unkeyed key beforeTwo
    key.timestamp.map view.allocator.sliceOf = some (.clamp 1) ∧
      CommandLine.delete view spool key.render none = (do
        let result ← (view.delete spool key (.clamp 1)).run
        return .ofResult (fun _ => ["Deleted: " ++ key.render]) result) ∧
      (op.run minting afterTwo).2.1.Holds x.partition key ∧
      ∃ items : List Item, (((Request.browse spool Browse.patience).perform view).run.run
          (fun action s => Store.answer s twoHours action) (op.run minting afterTwo).2.1).1 =
          .ok (.browsed (items.map .ok) []) ∧ x ∈ items := by
  intro op key x
  have hr : (Request.recordAt spool unkeyed beforeTwo).RecordsUnkeyed spool unkeyed :=
    ⟨rfl, rfl, rfl⟩
  have hfirst : ⟨.mint beforeTwo, key⟩ ∈ op.transcript minting afterTwo := List.mem_cons_self
  have hsparse : KeyGenerator.Sparse ([(twoHours, ⟨5, 1⟩)] ++ [(beforeTwo, ⟨3, 9⟩)]) :=
    fun _ => Nat.lt_of_le_of_lt List.countP_le_length (by decide)
  have hmade : ∀ moment k, ⟨.mint moment, k⟩ ∈ op.transcript minting afterTwo →
      k.MadeFor moment ∧ moment.FitsKey := by
    obtain ⟨_, _, hmints⟩ := View.mints_of_ends hr (Operation.ends_transcript minting op afterTwo)
    obtain ⟨rfl, rfl⟩ := (hmints.once _ _).mp hfirst
    intro moment k hk
    obtain ⟨rfl, rfl⟩ := (hmints.once _ _).mp hk
    exact ⟨⟨_, _, hsparse, rfl⟩, by decide, by decide⟩
  obtain ⟨moment, k, honce, -, htells, hdelete, hstores⟩ :=
    View.key_tells_slice view spool unkeyed (.recordAt spool unkeyed beforeTwo) minting afterTwo hr
      hmade
  obtain ⟨rfl, rfl⟩ := (honce _ _).mp hfirst
  have hslice : (view.itemOf spool unkeyed key beforeTwo).slice = .clamp 1 := by decide
  have hw : Hosts minting Prod.fst Eq :=
    fun action w => ⟨w.1, rfl, .tries (.answers (minting_serves.answers action w))⟩
  obtain ⟨halone, hbrowse⟩ := hstores Prod.fst hw
  have haccepted (m : Message) (e : Error) :
      ⟨.send m, .error e⟩ ∉ op.transcript minting afterTwo := by
    intro h
    obtain ⟨w, hreply⟩ := Operation.reply_of_mem_transcript h
    cases hreply
  rw [hslice] at htells hdelete
  refine ⟨htells, hdelete view rfl, halone twoHours minting_serves haccepted, ?_⟩
  obtain ⟨items, hitems, -, hshown⟩ := hbrowse Store.proper_empty (fun _ ⟨_, h, _⟩ => nomatch h)
    view twoHours rfl (by decide) (by decide)
  exact ⟨items, hitems, hshown (by decide +kernel) nofun (by decide)⟩

end Sample

end SpoolIndex
