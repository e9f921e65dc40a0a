import SpoolIndex.Proofs.View.Writing

/-!
# Mail is handed off before it is indexed

An enqueue gives its message to the transport once, before its first store call.
A refusal ends it there; after that it cannot fail any more, whatever becomes of
its store calls, and only says whether the item was indexed under the key that
the transport has (`View.enqueue_handedOff`). The store may be written by others
and fail with or without effect. What is reported as indexed is stored, and if
nobody else came in between, browses reach it.
-/

namespace SpoolIndex

def Enqueued.ofRecord (key : Key) (receipt : Receipt) : Except Error Unit → Enqueued
  | .ok _ => .indexed key receipt
  | .error e => .unindexed key receipt e

def NewItem.message (x : NewItem) (queue : QueueName) (key : Key) (moment : Instant) : Message :=
  ⟨queue, key, x.name, moment, x.headerRef, x.bodyRef⟩

structure Item.Matches (x : Item) (m : Message) : Prop where
  queue : x.queue = m.queue
  key : x.key = m.key
  name : x.name = m.name
  enqueuedAt : x.enqueuedAt = m.enqueuedAt
  headerRef : x.headerRef = m.headerRef
  bodyRef : x.bodyRef = m.bodyRef

namespace View

variable {v : View} {path : List Exchange}

/-- An enqueue at a moment that sends its message, is answered by the transport and ends. -/
structure HandedOff (v : View) (q : QueueName) (new : NewItem) (moment : Instant) (key : Key)
    (sent : Except Error Receipt) (before after : List Exchange)
    (result : Except Error Enqueued) : Prop where
  /-- The message comes after a look at the clock and after a key is made, if there is none. -/
  prepared : new.key = some key ∧ before = [⟨.now, moment⟩] ∨
    new.key = none ∧ before = [⟨.now, moment⟩, ⟨.mint moment, key⟩]
  once : ∀ (m : Message) (reply : Except Error Receipt), ⟨.send m, reply⟩ ∉ after
  refused : ∀ e, sent = .error e → result = .error e ∧ after = []
  accepted : ∀ receipt, sent = .ok receipt → result = .ok (.indexed key receipt) ∨
    ∃ reason, result = .ok (.unindexed key receipt (.indexing q key reason))
  appended : ∀ (x : Item) (reply : Except Error Unit), ⟨.store (.appendItem x), reply⟩ ∈ after →
    x.Matches (new.message q key moment) ∧ x.slice = v.allocator.sliceOf moment ∧ v.Places x

/-- Once the transport has the message, an enqueue ends well whatever its record does. -/
theorem recordSent_ends (h : (v.recordSent q new key moment receipt).run.Ends path result) :
    ∃ before middle after inner, path = before ++ (middle ++ after) ∧ Reporting before ∧
      Reporting after ∧ v.Writes (v.itemOf q new key moment) middle inner ∧
      result = .ok (.ofRecord key receipt inner) := by
  obtain ⟨_, _, recorded, rfl, hrecord, hrest⟩ := Attempt.ends_outcome_bind h
  obtain ⟨before, middle, after, inner, rfl, hbefore, hafter, hwrites, rfl⟩ :=
    recordAt_ends (show (new.withKey key).key = some key from rfl) hrecord
  cases inner with
  | ok =>
    obtain ⟨rfl, rfl⟩ := hrest.of_done
    exact ⟨before, middle, after, .ok (), by rw [List.append_nil], hbefore, hafter, hwrites, rfl⟩
  | error e =>
    obtain ⟨warning, _, _, rfl, hwarn, hlast⟩ := Attempt.ends_lift_bind hrest
    obtain ⟨rfl, rfl⟩ := hlast.of_done
    have hwarning : Reporting warning := (Operation.takes_perform trivial).ends hwarn
    exact ⟨before, middle, after ++ warning, .error e,
      by simp only [List.append_assoc, List.append_nil], hbefore,
      List.forall_mem_append.mpr ⟨hafter, hwarning⟩, hwrites, rfl⟩

theorem enqueueAs_ends (h : (v.enqueueAs q new moment key).run.Ends path result) :
    ∃ sent after, path = ⟨.send (new.message q key moment), sent⟩ :: after ∧
      ((∃ e, sent = .error e ∧ after = [] ∧ result = .error e) ∨
        ∃ receipt, sent = .ok receipt ∧
          (v.recordSent q new key moment receipt).run.Ends after result) := by
  obtain ⟨_, after, sent, rfl, hsend, hrest⟩ := Operation.Ends.of_bind h
  obtain rfl := hsend.of_perform
  refine ⟨sent, after, rfl, ?_⟩
  cases sent with
  | error e => exact .inl ⟨e, rfl, hrest.of_done⟩
  | ok receipt => exact .inr ⟨receipt, rfl, hrest⟩

/-- A sent message has all its consequences in the rest of the path. -/
theorem handedOff_of_ends {before after : List Exchange} {sent : Except Error Receipt}
    (hbefore : new.key = some key ∧ before = [⟨.now, moment⟩] ∨
      new.key = none ∧ before = [⟨.now, moment⟩, ⟨.mint moment, key⟩])
    (h : (∃ e, sent = .error e ∧ after = [] ∧ result = .error e) ∨
      ∃ receipt, sent = .ok receipt ∧
        (v.recordSent q new key moment receipt).run.Ends after result) :
    v.HandedOff q new moment key sent before after result := by
  obtain ⟨e, rfl, rfl, rfl⟩ | ⟨receipt, rfl, hends⟩ := h
  · refine ⟨hbefore, fun _ _ => List.not_mem_nil, fun _ he => ?_, nofun, fun _ _ h => nomatch h⟩
    cases he
    exact ⟨rfl, rfl⟩
  obtain ⟨first, middle, last, inner, rfl, hfirst, hlast, hwrites, rfl⟩ := recordSent_ends hends
  have hrecording : ∀ e ∈ first ++ (middle ++ last),
      v.IsRecording (v.itemOf q new key moment) e.action :=
    List.forall_mem_append.mpr ⟨hfirst.recording,
      List.forall_mem_append.mpr ⟨hwrites.recording, hlast.recording⟩⟩
  refine ⟨hbefore, fun m reply hm => hrecording _ hm, nofun, fun _ hr => ?_, fun x reply hx => ?_⟩
  · cases hr
    cases inner with
    | ok => exact .inl rfl
    | error e =>
      obtain ⟨reason, rfl⟩ := hwrites.reason rfl
      exact .inr ⟨reason, rfl⟩
  · obtain rfl := IsRecording.of_append (hrecording _ hx)
    exact ⟨⟨rfl, rfl, rfl, rfl, rfl, rfl⟩, rfl, places_itemOf⟩

theorem enqueue_ends (h : (v.enqueue q new).run.Ends path result) :
    ∃ moment key before rest, path = before ++ rest ∧
      (new.key = some key ∧ before = [⟨.now, moment⟩] ∨
        new.key = none ∧ before = [⟨.now, moment⟩, ⟨.mint moment, key⟩]) ∧
      (v.enqueueAs q new moment key).run.Ends rest result := by
  cases hkey : new.key with
  | some key =>
    rw [enqueue_keyed hkey] at h
    obtain ⟨_, rest, moment, rfl, hnow, hrest⟩ := h.of_bind
    obtain rfl := hnow.of_perform
    exact ⟨moment, key, _, rest, rfl, .inl ⟨rfl, rfl⟩, hrest⟩
  | none =>
    rw [enqueue_minted hkey] at h
    obtain ⟨_, _, moment, rfl, hnow, hminted⟩ := h.of_bind
    obtain ⟨_, rest, key, rfl, hmint, hrest⟩ := hminted.of_bind
    obtain rfl := hnow.of_perform
    obtain rfl := hmint.of_perform
    exact ⟨moment, key, _, rest, rfl, .inr ⟨rfl, rfl⟩, hrest⟩

/-- An item that an enqueue reports as indexed is stored, and browses reach it if nobody else has
written to the store meanwhile. -/
theorem stored_of_indexed {before after : List Exchange} {sent : Except Error Receipt}
    {s s' : Store} (h : (v.recordSent q new key moment receipt).run.Ends after (.ok (.indexed k r)))
    (hs : s.Undergoes (.among others) (before ++ ⟨.send m, sent⟩ :: after) s') :
    ((∀ s s', others s s' → s.Grows s') → s'.Holds (v.itemOf q new key moment).partition key) ∧
      (others = Eq → s'.Reaches q (v.allocator.sliceOf moment)) := by
  obtain ⟨first, middle, last, inner, rfl, -, hlast, hwrites, hr⟩ := recordSent_ends h
  obtain e | ⟨⟩ := inner <;> cases hr
  obtain ⟨s₀, -, hsent⟩ := Store.undergoes_append.mp hs
  cases hsent with
  | cons hsent hafter =>
    obtain ⟨s₁, -, hrest⟩ := Store.undergoes_append.mp hafter
    obtain ⟨s₂, hwrite, hend⟩ := Store.undergoes_append.mp hrest
    refine ⟨fun hothers => ?_, ?_⟩
    · exact (hwrites.holds hothers rfl hwrite).grows (hend.grows hothers)
    · rintro rfl
      rw [hend.of_reporting hlast fun _ _ _ _ => Fate.of_report]
      obtain ⟨-, opening, start, -, hstart, hle⟩ := hwrites.acknowledged rfl hwrite
      exact ⟨start, hstart, hle⟩

/-- An enqueue hands its message to the transport once, whoever answers it and whatever becomes of
its store calls. If it reports the item as indexed, then the item is stored, also if others write to
the store, and if nobody else does, browses reach it. -/
theorem enqueue_handedOff (v : View) (q : QueueName) (new : NewItem)
    (answer : (action : Action) → σ → action.Reply × σ) (w : σ) :
    let op := (v.enqueue q new).run
    ∃ moment key sent before after,
      op.transcript answer w = before ++ ⟨.send (new.message q key moment), sent⟩ :: after ∧
      v.HandedOff q new moment key sent before after (op.run answer w).1 ∧
      ∀ (store : σ → Store) (others : Store → Store → Prop) (receipt : Receipt),
        Hosts answer store others → (op.run answer w).1 = .ok (.indexed key receipt) →
        let last := store (op.run answer w).2
        ((∀ s s', others s s' → s.Grows s') →
            last.Holds (v.itemOf q new key moment).partition key) ∧
          (others = Eq → last.Reaches q (v.allocator.sliceOf moment)) := by
  intro op
  obtain ⟨moment, key, before, rest, hpath, hbefore, hrest⟩ :=
    enqueue_ends (Operation.ends_transcript answer op w)
  obtain ⟨sent, after, rfl, hsent⟩ := enqueueAs_ends hrest
  refine ⟨moment, key, sent, before, after, hpath, handedOff_of_ends hbefore hsent, ?_⟩
  intro store others receipt hw hindexed
  have hundergoes := Operation.undergoes_transcript op w hw
  rw [hpath] at hundergoes
  rw [hindexed] at hsent
  obtain ⟨e, -, -, he⟩ | ⟨_, -, hends⟩ := hsent
  · cases he
  · exact stored_of_indexed hends hundergoes

end View

namespace Sample

theorem mail_handedOff :
    let (result, s) :=
      (view.enqueue spool mail).run.run (fun a s => Store.answer s twoHours a) .empty
    result = .ok (.indexed default default) ∧
      s.Holds (view.itemOf spool mail default twoHours).partition default ∧
      s.Reaches spool (view.allocator.sliceOf twoHours) := by
  obtain ⟨moment, key, sent, before, after, hpath, hsent, hstored⟩ :=
    View.enqueue_handedOff view spool mail (fun a s => Store.answer s twoHours a) .empty
  obtain ⟨hkey, rfl⟩ | ⟨hkey, -⟩ := hsent.prepared
  · cases hkey
    have hnow : Exchange.mk .now twoHours = ⟨.now, moment⟩ := (List.cons.inj hpath).1
    cases hnow
    have hhosts {others : Store → Store → Prop} (hrefl : ∀ s, others s s) :
        Hosts (fun a s => Store.answer s twoHours a) id others := fun a s =>
      ⟨s, hrefl s, .tries (.answers (Store.answers_answer s twoHours a))⟩
    refine ⟨rfl, ?_, ?_⟩
    · exact (hstored id Store.Grows default (hhosts .refl) rfl).1 fun _ _ => id
    · exact (hstored id Eq default (hhosts fun _ => rfl) rfl).2 rfl
  · cases hkey

/-- The append fails, and the receipt is not lost. -/
example : ((view.enqueue spool mail).run.run (fun
    | .store (.appendItem _), s => (.error (.unavailable "full"), s)
    | a, s => Store.answer s twoHours a) .empty).1 =
      .ok (.unindexed default default
        (.indexing spool default "storage unavailable: full")) := rfl

end Sample

end SpoolIndex
