import SpoolIndex.Proofs.Allocation
import SpoolIndex.Proofs.Operation.Serving
import SpoolIndex.Proofs.View.Writing

/-!
# Records that are made again

A record that fails has added at most what it would have added without failures
(`Store.GainsOnly`). To make it again without failures therefore gives what one
record without failures gives, and to make it once more gives the same again
(`View.recordAt_failsafe`).
-/

namespace SpoolIndex

variable {v : View} {x : Item} {s s' : Store} {settle : Nat}

/-- Beyond what the store has, the other one has at most the item, under a key that was absent from
its partition, and a browse start for the queue of the item, which had none. -/
structure Store.GainsOnly (s : Store) (x : Item) (settle : Nat) (s' : Store) : Prop where
  row : s'.items x.partition = s.items x.partition ∨ ¬s.Holds x.partition x.key ∧
    s'.items x.partition = insertByKey Item.key x (s.items x.partition)
  rows : ∀ p, p ≠ x.partition → s'.items p = s.items p
  start : s'.start x.queue = s.start x.queue ∨ s.start x.queue = none ∧
    ∃ slice, s'.start x.queue = some slice ∧ slice.index = x.slice.index - settle
  starts : ∀ q, q ≠ x.queue → s'.start q = s.start q
  tombstones : s'.tombstones = s.tombstones

namespace Store

theorem GainsOnly.refl (s : Store) : s.GainsOnly x settle s :=
  ⟨.inl rfl, fun _ _ => rfl, .inl rfl, fun _ _ => rfl, rfl⟩

theorem gainsOnly_openedAt (hslice : slice.index = x.slice.index - settle) :
    s.GainsOnly x settle (s.openedAt x.queue slice) := by
  cases h : s.start x.queue with
  | none =>
    rw [openedAt_of_none h]
    exact ⟨.inl rfl, fun _ _ => rfl, .inr ⟨h, slice, start_setStart_same s _ _, hslice⟩,
      fun q hq => start_setStart_other s slice hq, rfl⟩
  | some start =>
    rw [openedAt_of_open (by rw [h]; exact nofun)]
    exact .refl s

theorem GainsOnly.append (h : s.GainsOnly x settle s') (hs : s.Proper)
    (hitems : s'.items = s.items) : s.GainsOnly x settle (s'.append x) where
  row := by
    rw [items_append_same, hitems]
    by_cases hx : s.Holds x.partition x.key
    · exact .inl (insertByKey_taken (hs.sorted _) hx)
    · exact .inr ⟨hx, rfl⟩
  rows p hp := by rw [items_append_other s' x hp, hitems]
  start := h.start
  starts := h.starts
  tombstones := h.tombstones

end Store

namespace View

theorem recordAt_served {answer : (action : Action) → σ → action.Reply × σ} {store : σ → Store}
    (hw : Serves answer store t) (hkey : new.key = some key) :
    let x := v.itemOf q new key moment
    let last := v.written x (store w)
    ((v.recordAt q new moment).run.run answer w).1 =
        (verdict x (last.start q)).map (fun _ => key) ∧
      store ((v.recordAt q new moment).run.run answer w).2 = last := by
  intro x last
  obtain ⟨_, _, _, inner, -, hwrites, hs, hresult⟩ := recordAt_writes hkey
    (Operation.ends_transcript answer _ w) (hw.undergoes _ w) fun _ _ _ _ h => by cases h; rfl
  obtain ⟨hstore, rfl⟩ := hwrites.alone hs
  rw [hstore] at hresult
  exact ⟨hresult, hstore⟩

theorem written_openedAt :
    v.written x (s.openedAt x.queue (x.slice.back v.settleSlices)) = v.written x s := by
  rw [written, Store.openedAt_of_open Store.open_openedAt, written]

theorem written_written : v.written x (v.written x s) = v.written x s := by
  have hagain := (s.openedAt x.queue (x.slice.back v.settleSlices)).perform_again (.appendItem x)
  rw [written, Store.openedAt_of_open (v.open_written x s)]
  exact hagain

/-- A record whose store calls may fail, with or without effect, is acknowledged only if the item is
stored and was found in reach, and otherwise names what was not indexed. It changes nothing but what
it adds, and making it again without failures is as good as a first record without failures. -/
theorem recordAt_failsafe (v : View) (q : QueueName) (new : NewItem) (key : Key) (moment : Instant)
    (answer : (action : Action) → σ → action.Reply × σ) (store : σ → Store) (w : σ)
    (hkey : new.key = some key) (hw : Hosts answer store Eq) (hs : (store w).Proper) :
    let op := (v.recordAt q new moment).run
    let x := v.itemOf q new key moment
    let last := store (op.run answer w).2
    let alone (t : Instant) (s : Store) := op.run (fun action s => Store.answer s t action) s
    (∀ k, (op.run answer w).1 = .ok k → k = key ∧ last.Holds x.partition key ∧
      ∃ before start after, op.transcript answer w = before ++ ⟨.store (.appendItem x), .ok ()⟩ ::
        ⟨.store (.readStart q), .ok (some start)⟩ :: after ∧ start ≤ x.slice) ∧
    (∀ e, (op.run answer w).1 = .error e → ∃ reason, e = .indexing q key reason) ∧
    (store w).GainsOnly x v.settleSlices.toNat last ∧
    ∀ t t', alone t last = alone t' (store w) ∧ alone t (alone t' last).2 = alone t' last := by
  intro op x last alone
  have hends := Operation.ends_transcript answer op w
  have hundergoes := Operation.undergoes_transcript op w hw
  obtain ⟨before, middle, after, inner, hpath, hwrites, hmiddle, hresult⟩ :=
    recordAt_writes hkey hends hundergoes fun _ _ _ _ => Fate.of_report
  have hleaves : last = store w ∨ _ ∨ last = v.written x (store w) := hwrites.leaves hmiddle
  have halone (t : Instant) (s : Store) :
      alone t s = ((verdict x ((v.written x s).start q)).map fun _ => key, v.written x s) :=
    let served := recordAt_served (Store.serves_answer t) hkey
    Prod.ext served.1 served.2
  refine ⟨?_, ?_, ?_, ?_⟩
  · intro k hok
    rw [hok] at hresult
    obtain e | ⟨⟩ := inner <;> cases hresult
    obtain ⟨hwritten, opening, start, rfl, -, hstart⟩ := hwrites.acknowledged rfl hmiddle
    refine ⟨rfl, ?_, before ++ opening, start, after, ?_, hstart⟩
    · rw [show last = _ from hwritten]
      exact Store.holds_append _ x
    · rw [hpath, List.append_assoc, List.append_assoc]
      rfl
  · intro e herror
    rw [herror] at hresult
    obtain e | ⟨⟩ := inner <;> cases hresult
    exact hwrites.reason rfl
  · have hopened : (store w).GainsOnly x v.settleSlices.toNat _ := Store.gainsOnly_openedAt
      (v.allocator.index_back_sliceOf moment v.settleSlices)
    obtain he | he | he := hleaves
    · rw [he]
      exact .refl _
    · rw [he]
      exact hopened
    · rw [he]
      exact hopened.append hs Store.items_openedAt
  · intro t t'
    have hwritten : v.written x last = v.written x (store w) := by
      obtain he | he | he := hleaves
      · rw [he]
      · rw [he, written_openedAt]
      · rw [he, written_written]
    refine ⟨?_, ?_⟩
    · rw [halone, halone, hwritten]
    · rw [halone t' last, halone t, written_written]

end View

namespace Sample

def losesAppend : (action : Action) → Store → action.Reply × Store
  | .store (.appendItem x), s => (.error (.unavailable "down"), s.append x)
  | action, s => s.answer twoHours action

theorem losesAppend_hosts : Hosts losesAppend id Eq := by
  intro action s
  refine ⟨s, rfl, ?_⟩
  cases action with
  | store c =>
    cases c with
    | appendItem x => exact .lost (.appendItem x) (.unavailable "down")
    | _ => exact .tries (.answers (.store _))
  | _ => exact .tries (.answers (Store.answers_answer s twoHours _))

theorem lostAppend_rerecorded :
    let op := (view.recordAt spool mail twoHours).run
    let x := view.itemOf spool mail default twoHours
    let (result, last) := op.run losesAppend .empty
    result = .error (.indexing spool default "storage unavailable: down") ∧
      Store.empty.GainsOnly x 1 last ∧
      op.run (fun action s => Store.answer s twoHours action) last =
        op.run (fun action s => Store.answer s twoHours action) .empty := by
  obtain ⟨-, -, hgains, hagain⟩ := View.recordAt_failsafe view spool mail default twoHours
    losesAppend id .empty rfl losesAppend_hosts Store.proper_empty
  exact ⟨rfl, hgains, (hagain twoHours twoHours).1⟩

end Sample

end SpoolIndex
