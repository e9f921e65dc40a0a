import SpoolIndex.Proofs.Installation.Lapses

/-!
# Retries hide lapses

Every request but an advance gives the same, whatever lapses its calls meet, if they
are retried often enough. A queue is opened by a conditional write, but when that is
refused the browse start is read, and it is the one that was written
(`BrowseStart.establish_steady`). An advance alone may take its own write for that of
somebody else (`View.advanceBrowseStart_steadyBut`).
-/

namespace SpoolIndex

-- ---------------------------------------------------------------------------
-- Conditional writes
-- ---------------------------------------------------------------------------

theorem Installation.bare_read {w : Installation} {s : Store} {c : StoreCall} (seat : Seat)
    (hw : w.Stores s calls) (hc : c.IsRead) : (answer seat (.store c) w).2.bare = w.bare := by
  rw [answer_store hw, hc.perform]
  obtain ⟨backing, clocks, generator, minted, deletes, refuses, sent, content, stored, journal⟩ := w
  obtain rfl : backing = _ := hw
  rfl

theorem Operation.tracks_swapStart {seat : Seat} {s : Store} (hs : seat.Bears bound)
    (hf : Flaky.Follows bound f w) (hw : w.Stores s calls) (q : QueueName)
    (condition : SwapCondition) (slice : Slice) :
    (perform (.store (.swapStart q condition slice))).Tracks seat bound (fun reply plain new =>
      plain = .ok (s.swapApplies q condition slice) ∧ (reply = plain ∨
        s.swapApplies q condition slice ∧ reply = .ok false ∧
          ∃ e, .lost (.swapStart q condition slice) (.ok true) e ∈ new))
      (perform (.store (.swapStart q condition slice))) f w := by
  refine (tracks_call hs hf hw _).mono ?_
  rintro reply plain new ⟨rfl, hreply⟩
  by_cases h : s.swapApplies q condition slice
  · rw [Store.perform_swapStart h] at hreply ⊢
    rw [Store.perform_swapStart_refused (s.swapApplies_setStart q condition slice)] at hreply
    exact ⟨by rw [h], hreply.imp_right fun hlost => ⟨h, hlost⟩⟩
  · have hrefused := Store.perform_swapStart_refused h
    rw [hrefused, hrefused] at hreply
    rw [hrefused]
    exact ⟨by simp [h], .inl (hreply.elim id And.left)⟩

namespace BrowseStart

theorem get_steady : (get q).run.Steady :=
  Operation.steady_of_reads (Attempt.calls_bind (Attempt.calls_call trivial) fun _ => trivial)

theorem run_get {w : Installation} {s : Store} (seat : Seat) (hw : w.Stores s calls) :
    (get q).run.run (Installation.answer seat) w = (.ok ((s.start q).getD Slice.min),
      (Installation.answer seat (.store (.readStart q)) w).2) := by
  change Operation.run _ (Operation.bind (Operation.perform (.store (.readStart q))) _) w = _
  rw [Operation.run_bind, Operation.run_perform, Installation.answer_store hw]
  rfl

theorem establish_steady : (establish q slice).run.Steady := by
  intro seat bound f w hs hf
  obtain ⟨s, calls, hw⟩ := hf.stores
  have hw' := Installation.stores_called seat hw (.swapStart q .absent slice)
  unfold establish
  rw [ExceptT.run_bind]
  refine (Operation.tracks_swapStart hs hf hw q .absent slice).bind_at ?_
  rintro reply _ new f' ⟨rfl, rfl | ⟨happlies, rfl, -⟩⟩ hf'
  · cases s.swapApplies q .absent slice
    · exact get_steady hs hf'
    · exact Operation.tracks_pure hf' rfl
  · -- the write took effect before, so the browse start that is read is the slice
    rw [Store.perform_swapStart happlies] at hw'
    rw [happlies]
    obtain ⟨hfollows, later, hlater, hresult⟩ := get_steady (q := q) hs hf'
    rw [Operation.run_perform, run_get seat hw', Store.start_setStart_same] at hfollows hresult
    refine ⟨hfollows.of_bare ?_, later, hlater, hresult⟩
    exact (Installation.bare_read (c := .readStart q) seat hw' trivial).symm

end BrowseStart

-- ---------------------------------------------------------------------------
-- Operations that are steady but for an advance
-- ---------------------------------------------------------------------------

/-- A conditional write that raised the browse start took effect, but the reply to it was lost. -/
def LostAdvance (q : QueueName) (new : List Trial) : Prop :=
  ∃ slice e, .lost (.swapStart q .below slice) (.ok true) e ∈ new

namespace Operation

/-- With retries enough, the operation gives the same, or `S` holds of the results and an advance
was lost. -/
def SteadyBut (q : QueueName) (S : α → α → Prop) (op : Operation α) : Prop :=
  ∀ ⦃seat bound f w⦄, Seat.Bears seat bound → Flaky.Follows bound f w → op.Tracks seat bound
    (fun result plain new => result = plain ∨ S result plain ∧ LostAdvance q new) op f w

section
variable {q : QueueName} {S : α → α → Prop} {S' : β → β → Prop} {op : Operation α}
  {g : α → Operation β}

theorem Steady.steadyBut (h : op.Steady) : op.SteadyBut q S :=
  fun _ _ _ _ hs hf => (h hs hf).mono fun _ _ _ he => .inl he

theorem SteadyBut.steady (h : op.SteadyBut q S) (hS : ∀ result plain, ¬S result plain) :
    op.Steady :=
  fun _ _ _ _ hs hf => (h hs hf).mono fun _ _ _ he => he.resolve_right fun he => hS _ _ he.1

theorem Steady.bind_steadyBut (h : op.Steady) (hg : ∀ value, (g value).SteadyBut q S') :
    (op >>= g).SteadyBut q S' := by
  intro seat bound f w hs hf
  refine (h hs hf).bind ?_
  rintro value _ new f' w' rfl hf'
  refine (hg value hs hf').mono fun result plain later hp => hp.imp_right ?_
  rintro ⟨hS, slice, e, he⟩
  exact ⟨hS, slice, e, List.mem_append_left new he⟩

theorem SteadyBut.bind (h : op.SteadyBut q S) (hg : ∀ value, (g value).Steady)
    (hS : ∀ result plain, S result plain → ∀ ⦃seat bound f w⦄, Flaky.Follows bound f w →
      (g result).Tracks seat bound (fun result' plain' _ => result' = plain' ∨ S' result' plain')
        (g plain) f w) : (op >>= g).SteadyBut q S' := by
  intro seat bound f w hs hf
  refine (h hs hf).bind ?_
  rintro result plain new f' w' (rfl | ⟨hslip, slice, e, he⟩) hf'
  · exact (hg result hs hf').mono fun _ _ _ he => .inl he
  · refine (hS result plain hslip hf').mono fun _ _ later hp => hp.imp_right fun hslip' => ?_
    exact ⟨hslip', slice, e, List.mem_append_right later he⟩

end

end Operation

theorem Attempt.steadyBut_inSpan {x : Attempt α} {S : Except Error α → Except Error α → Prop}
    (h : x.run.SteadyBut q S) : (inSpan span x).run.SteadyBut q S := by
  refine (Operation.steady_report _).bind_steadyBut fun _ => ?_
  refine h.bind (fun _ => (Operation.steady_report _).bind fun _ => Operation.steady_pure _) ?_
  intro result plain hS seat bound f w hf
  have hleave := Operation.reports_report .leave
  refine (hleave.tracks hleave seat hf).bind fun _ _ _ _ _ _ hf' => ?_
  exact Operation.tracks_pure hf' (.inr hS)

theorem Attempt.run_outcome_bind (x : Attempt α) (g : Except Error α → Attempt β) :
    (x.outcome >>= g).run = x.run >>= fun result => (g result).run := by
  rw [ExceptT.run_bind]
  change (x.run.bind _).bind _ = _
  rw [Operation.bind_assoc]
  rfl

-- ---------------------------------------------------------------------------
-- Advances
-- ---------------------------------------------------------------------------

def Slips (result plain : Except Error Advance) : Prop :=
  result = .ok .unchanged ∧ plain = .ok .advanced

section
variable {v : View} {q : QueueName}

theorem BrowseStart.advanceTo_steadyBut : (advanceTo q slice).run.SteadyBut q Slips := by
  intro seat bound f w hs hf
  obtain ⟨s, calls, hw⟩ := hf.stores
  unfold advanceTo
  rw [ExceptT.run_bind]
  refine (Operation.tracks_swapStart hs hf hw q .below slice).bind ?_
  rintro reply _ new f' w' ⟨rfl, rfl | ⟨happlies, rfl, e, he⟩⟩ hf'
  · cases s.swapApplies q .below slice <;> exact Operation.tracks_pure hf' (.inl rfl)
  · rw [happlies]
    exact Operation.tracks_pure hf' (.inr ⟨⟨rfl, rfl⟩, slice, e, he⟩)

namespace View

def MaintenanceSlips (result plain : Except Error Maintenance) : Prop :=
  ∃ source target, result = .ok ⟨.unchanged, source, target⟩ ∧
    plain = .ok ⟨.advanced, source, target⟩

theorem maintain_steadyBut : (v.maintain q).run.SteadyBut q MaintenanceSlips := by
  have hcurrent : (BrowseStart.current q).run.Steady :=
    Operation.steady_of_reads (Attempt.calls_call trivial)
  have hnow : Operation.now.Steady := Operation.steady_perform trivial
  unfold maintain
  rw [ExceptT.run_bind]
  refine hcurrent.bind_steadyBut ?_
  rintro (e | _ | start)
  · exact (Operation.steady_pure _).steadyBut
  · exact (Operation.steady_pure _).steadyBut
  dsimp only
  rw [ExceptT.run_bind]
  refine (Attempt.steady_lift hnow).bind_steadyBut ?_
  rintro (e | now)
  · exact (Operation.steady_pure _).steadyBut
  dsimp only
  split
  · refine Operation.Steady.steadyBut (Attempt.steady_bind ?_ fun _ => Operation.steady_pure _)
    exact Attempt.steady_lift (Operation.steady_report _)
  · rw [ExceptT.run_bind]
    refine (Operation.steady_of_reads firstLiveSlice_calls).bind_steadyBut ?_
    rintro (e | target)
    · exact (Operation.steady_pure _).steadyBut
    dsimp only
    split
    · exact (Operation.steady_pure _).steadyBut
    · rw [ExceptT.run_bind]
      refine BrowseStart.advanceTo_steadyBut.bind ?_ ?_
      · rintro (e | result) <;> exact Operation.steady_pure _
      · rintro result plain ⟨rfl, rfl⟩ seat bound f w hf
        exact Operation.tracks_pure hf (.inr ⟨start, target, rfl, rfl⟩)

theorem advanceBrowseStart_steadyBut : (v.advanceBrowseStart q).run.SteadyBut q Slips := by
  refine (Operation.steady_report _).bind_steadyBut fun _ => ?_
  refine (Attempt.steadyBut_inSpan maintain_steadyBut).bind (fun result => ?_) ?_
  · refine reportMaintenance_reports.steady.bind fun _ => ?_
    exact (Operation.steady_report _).bind fun _ => Operation.steady_pure _
  · -- the reports differ as the results do
    rintro _ _ ⟨source, target, rfl, rfl⟩ seat bound f w hf
    refine (reportMaintenance_reports.tracks reportMaintenance_reports seat hf).bind ?_
    intro _ _ _ f' w' _ hf'
    refine ((Operation.reports_report _).tracks (Operation.reports_report _) seat hf').bind ?_
    exact fun _ _ _ _ _ _ hf'' => Operation.tracks_pure hf'' (.inr ⟨rfl, rfl⟩)

-- ---------------------------------------------------------------------------
-- Deletes
-- ---------------------------------------------------------------------------

theorem maintenanceIsDue_steady : v.maintenanceIsDue.Steady := by
  unfold maintenanceIsDue
  split
  · exact Operation.steady_pure _
  · exact Operation.steady_pure _
  · have hcount : (Operation.perform .countDelete).Steady := Operation.steady_perform trivial
    exact hcount.bind fun _ => Operation.steady_pure _

theorem followUp_steady : (v.followUp q).run.Steady := by
  refine Attempt.steady_bind (Attempt.steady_lift maintenanceIsDue_steady) fun due => ?_
  cases due with
  | false => exact Operation.steady_pure _
  | true =>
    have hadvance : (Attempt.inSpan "view.delete" (v.advanceBrowseStart q)).run.SteadyBut q Slips :=
      Attempt.steadyBut_inSpan advanceBrowseStart_steadyBut
    simp only [↓reduceIte, Attempt.run_outcome_bind]
    refine Operation.SteadyBut.steady (S := fun _ _ => False) (hadvance.bind ?_ ?_) fun _ _ => id
    · rintro (e | result)
      · exact Attempt.steady_inSpan (Attempt.steady_lift (Operation.steady_report _))
      · exact Operation.steady_pure _
    · rintro _ _ ⟨rfl, rfl⟩ seat bound f w hf
      exact Operation.tracks_pure hf (.inl rfl)

theorem delete_steady : (v.delete q key slice).run.Steady := by
  have hbury : (bury q key slice).run.Steady := by
    refine Operation.steady_of_calls (bury_calls.mono ?_)
    rintro c rfl
    exact fun _ _ _ h => nomatch h
  exact Attempt.steady_bind hbury fun _ => followUp_steady

theorem deleteAccepted_steady {b : Browse} :
    (v.deleteAccepted filter limit n b).run.Steady := by
  induction limit generalizing n b with
  | zero => exact Operation.steady_pure _
  | succ limit ih =>
    have hpull : (b.pull v).Steady :=
      Operation.steady_of_reads (Browse.pull_calls.mono fun _ hc => hc.isRead)
    refine Attempt.steady_bind (Attempt.steady_lift hpull) ?_
    rintro ⟨_ | e | x, b⟩
    · exact Operation.steady_pure _
    · exact Operation.steady_pure _
    · dsimp only
      split
      · exact Attempt.steady_bind delete_steady fun _ => ih
      · exact ih

theorem ofQueue_steady : (Browse.ofQueue q).run.Steady := by
  refine Operation.steady_of_reads (Browse.ofQueue_calls.mono ?_)
  rintro c rfl
  trivial

theorem deleteMatching_steady : (v.deleteMatching q filter).run.Steady := by
  refine Attempt.steady_bind ofQueue_steady fun b => ?_
  refine Attempt.steady_bind deleteAccepted_steady fun n => ?_
  exact Attempt.steady_bind (Attempt.steady_lift (Operation.steady_report _)) fun _ =>
    Operation.steady_pure _

-- ---------------------------------------------------------------------------
-- Records
-- ---------------------------------------------------------------------------

theorem openQueue_steady : (v.openQueue q).run.Steady := by
  have hnow : Operation.now.Steady := Operation.steady_perform trivial
  refine Attempt.steady_bind (Attempt.steady_lift hnow) fun now => ?_
  refine Attempt.steady_bind BrowseStart.establish_steady fun start => ?_
  exact Attempt.steady_bind (Attempt.steady_lift (Operation.steady_report _)) fun _ =>
    Operation.steady_pure _

theorem write_steady : (v.write x).run.Steady := by
  have happend : (Attempt.call (.appendItem x)).run.Steady :=
    Operation.steady_perform fun _ _ _ h => nomatch h
  rw [write]
  refine Attempt.steady_bind (Attempt.steady_mapError BrowseStart.establish_steady) fun _ => ?_
  refine Attempt.steady_bind (Attempt.steady_mapError happend) fun _ => ?_
  refine Operation.steady_of_reads (confirm_calls.mono ?_)
  rintro c rfl
  trivial

theorem recordAt_steady : (v.recordAt q new moment).run.Steady := by
  have hkeyed {new : NewItem} {key : Key} (h : new.key = some key) :
      (v.recordAt q new moment).run.Steady := by
    rw [recordAt_keyed h]
    refine beginRecord_reports.steady.bind fun _ => ?_
    refine (Attempt.steady_inSpan write_steady).bind fun result => ?_
    exact endRecord_reports.steady.bind fun _ => Operation.steady_pure _
  cases h : new.key with
  | some key => exact hkeyed h
  | none =>
    rw [recordAt_minted h]
    have hmint : (Operation.mint moment).Steady := Operation.steady_perform trivial
    exact hmint.bind fun key => hkeyed rfl

theorem record_steady : (v.record q new).run.Steady := by
  have hnow : Operation.now.Steady := Operation.steady_perform trivial
  exact Attempt.steady_bind (Attempt.steady_lift hnow) fun _ => recordAt_steady

theorem enqueueAs_steady : (v.enqueueAs q new moment key).run.Steady := by
  have hsend (m : Message) : (Attempt.send m).run.Steady := Operation.steady_perform trivial
  refine Attempt.steady_bind (hsend _) fun receipt => ?_
  refine Attempt.steady_bind (Attempt.steady_outcome recordAt_steady) ?_
  rintro (e | key)
  · exact Attempt.steady_bind (Attempt.steady_lift (Operation.steady_report _)) fun _ =>
      Operation.steady_pure _
  · exact Operation.steady_pure _

theorem enqueue_steady : (v.enqueue q new).run.Steady := by
  have hnow : Operation.now.Steady := Operation.steady_perform trivial
  cases h : new.key with
  | some key =>
    rw [enqueue_keyed h]
    exact hnow.bind fun _ => enqueueAs_steady
  | none =>
    rw [enqueue_minted h]
    have hmint (moment : Instant) : (Operation.mint moment).Steady :=
      Operation.steady_perform trivial
    exact hnow.bind fun moment => (hmint moment).bind fun key => enqueueAs_steady

end View

-- ---------------------------------------------------------------------------
-- Requests
-- ---------------------------------------------------------------------------

namespace Request

theorem steady_then {x : Attempt α} {f : α → Response} (h : x.run.Steady) :
    (do return f (← x) : Attempt Response).run.Steady :=
  Attempt.steady_bind h fun _ => Operation.steady_pure _

theorem steady {r : Request} (h : ∀ q, r ≠ .advance q) : (r.perform v).run.Steady := by
  cases r with
  | openQueue q => exact steady_then View.openQueue_steady
  | record q new => exact steady_then View.record_steady
  | recordAt q new moment => exact steady_then View.recordAt_steady
  | enqueue q new => exact steady_then View.enqueue_steady
  | delete q key slice => exact steady_then (f := fun _ => .deleted) View.delete_steady
  | deleteItem x => exact steady_then (f := fun _ => .deleted) View.delete_steady
  | deleteMatching q filter => exact steady_then View.deleteMatching_steady
  | advance q => exact absurd rfl (h q)
  | browse q limit =>
    have hpulls (b : Browse) : (b.pullMany v limit []).Steady :=
      Operation.steady_of_reads (Browse.pullMany_calls.mono fun _ hc => hc.isRead)
    refine Attempt.steady_bind View.ofQueue_steady fun b => ?_
    exact Attempt.steady_bind (Attempt.steady_lift (hpulls b)) fun _ => Operation.steady_pure _
  | size q =>
    refine steady_then (Attempt.steady_bind View.ofQueue_steady fun b => ?_)
    exact Operation.steady_of_reads (View.countItems_calls.mono fun _ hc => hc.isRead)

def AdvanceSlips (response plain : Except Error Response) : Prop :=
  response = .ok (.maintained .unchanged) ∧ plain = .ok (.maintained .advanced)

theorem advance_steadyBut : ((advance q).perform v).run.SteadyBut q AdvanceSlips := by
  refine View.advanceBrowseStart_steadyBut.bind ?_ ?_
  · rintro (e | result) <;> exact Operation.steady_pure _
  · rintro _ _ ⟨rfl, rfl⟩ seat bound f w hf
    exact Operation.tracks_pure hf (.inr ⟨rfl, rfl⟩)

/-- What a request gives over lapses: the same as without, but an advance whose write lost its reply
may be taken for none. -/
def Agrees (r : Request) (response plain : Except Error Response) (new : List Trial) : Prop :=
  response = plain ∨ ∃ q, r = .advance q ∧ AdvanceSlips response plain ∧ LostAdvance q new

theorem tracks {f : Flaky} {w : Installation} (r : Request) (hs : seat.Bears bound)
    (hf : f.Follows bound w) :
    (r.perform v).run.Tracks seat bound r.Agrees (r.perform v).run f w := by
  by_cases h : ∃ q, r = .advance q
  · obtain ⟨q, rfl⟩ := h
    exact (advance_steadyBut hs hf).mono fun _ _ _ hp => hp.imp_right fun hslips => ⟨q, rfl, hslips⟩
  · have hne (q : QueueName) : r ≠ .advance q := fun hr => h ⟨q, hr⟩
    exact (steady hne hs hf).mono fun _ _ _ he => .inl he

end Request

end

-- ---------------------------------------------------------------------------
-- Whole runs
-- ---------------------------------------------------------------------------

def Seat.unretried (seat : Seat) : Seat := { seat with retry := none }

namespace Happening

def unretried : Happening → Happening
  | .request v seat r => .request v seat.unretried r
  | .clock n t => .clock n t
  | .transport refuses => .transport refuses

def Bears (bound : Nat) : Happening → Prop
  | request _ seat _ => seat.Bears bound
  | _ => True

end Happening

theorem Installation.bare_setClock (w : Installation) (n : Nat) (t : Instant) :
    (w.setClock n t).bare = w.bare.setClock n t := by
  obtain ⟨backing, clocks, generator, minted, deletes, refuses, sent, content, stored, journal⟩ := w
  cases backing <;> rfl

theorem Installation.bare_refuses (w : Installation) (refuses : Bool) :
    bare { w with refuses } = { w.bare with refuses } := by
  obtain ⟨backing, clocks, generator, minted, deletes, refuses, sent, content, stored, journal⟩ := w
  cases backing <;> rfl

theorem Installation.run_unretried (w : Installation) (seat : Seat) (op : Operation α) :
    w.run seat.unretried op = op.run (answer seat) w := by
  have hanswer : answer seat.unretried = answer seat := by
    funext action w
    cases action <;> rfl
  rw [← hanswer]
  rfl

namespace Flaky

def happen (f : Flaky) : Happening → Flaky
  | .request v seat r => (f.run seat (r.perform v).run).2
  | .clock clock t => { f with world := f.world.setClock clock t }
  | .transport refuses => { f with world := { f.world with refuses } }

def through (f : Flaky) (happenings : List Happening) : Flaky := happenings.foldl happen f

variable {f : Flaky} {w : Installation} {bound : Nat}

theorem happen_follows (hf : f.Follows bound w) {h : Happening} (hb : h.Bears bound) :
    (f.happen h).Follows bound (w.happen h.unretried) := by
  obtain ⟨s, calls, hw⟩ := hf.stores
  cases h with
  | request v seat r =>
    have htracks := (r.tracks (v := v) hb hf).follows
    rw [← Installation.run_unretried] at htracks
    exact htracks
  | clock n t =>
    refine ⟨hf.bearable, ⟨s, calls, hw⟩, ?_⟩
    change (f.world.setClock n t).bare = (w.setClock n t).bare
    rw [Installation.bare_setClock, Installation.bare_setClock, hf.bare]
  | transport refuses =>
    refine ⟨hf.bearable, ⟨s, calls, hw⟩, ?_⟩
    change Installation.bare { f.world with refuses } = Installation.bare { w with refuses }
    rw [f.world.bare_refuses refuses, hf.bare, ← w.bare_refuses refuses]

theorem through_follows (hf : f.Follows bound w) (happenings : List Happening)
    (hb : ∀ h ∈ happenings, h.Bears bound) :
    (f.through happenings).Follows bound (w.through (happenings.map .unretried)) := by
  induction happenings generalizing f w with
  | nil => exact hf
  | cons h happenings ih =>
    exact ih (happen_follows hf (hb h List.mem_cons_self)) fun h' hh' =>
      hb h' (List.mem_cons_of_mem _ hh')

end Flaky

/-- A run with lapses, never more in a row than its users retry for, leaves the store as the same
run without lapses and retries does, and its requests give the same; but an advance may be taken for
none if its write took effect and the reply was lost. -/
theorem Installation.lapses_hidden {w : Installation} {s : Store} (hw : w.Stores s calls)
    (hl : Bearable bound lapses) (happenings : List Happening)
    (hb : ∀ h ∈ happenings, h.Bears bound) :
    let f : Flaky := ⟨w, lapses, []⟩
    (∃ s' calls₁ calls₂, (f.through happenings).world.Stores s' calls₁ ∧
      (w.through (happenings.map .unretried)).Stores s' calls₂) ∧
    ∀ before v seat r after, happenings = before ++ .request v seat r :: after →
      ∃ new, ((f.through before).run seat (r.perform v).run).2.trials =
          new ++ (f.through before).trials ∧
        r.Agrees ((f.through before).run seat (r.perform v).run).1
          ((w.through (before.map .unretried)).run seat.unretried (r.perform v).run).1 new := by
  intro f
  have hf : f.Follows bound w := ⟨hl, ⟨s, calls, hw⟩, rfl⟩
  constructor
  · have hfinal := f.through_follows hf happenings hb
    obtain ⟨s', calls₂, hs'⟩ := hfinal.stores
    obtain ⟨calls₁, hs⟩ := hs'.of_bare hfinal.bare
    exact ⟨s', calls₁, calls₂, hs, hs'⟩
  · rintro before v seat r after rfl
    have hbefore := f.through_follows hf before fun h hh => hb h (List.mem_append_left _ hh)
    have hbears : seat.Bears bound := hb (.request v seat r) (by simp)
    obtain ⟨-, new, hnew, hagrees⟩ := r.tracks (v := v) hbears hbefore
    rw [← run_unretried] at hagrees
    exact ⟨new, hnew, hagrees⟩

namespace Sample

def retryingSeat : Seat := { seat with retry := some .default }

def raise : Happening := .request view retryingSeat (.advance spool)

/-- The first attempt at the write that raises the browse start fails, the second one takes effect
but loses its reply. -/
def lostReply : Flaky where
  world := .new (.memory ⟨opened, [], []⟩) [twoHours]
  lapses := [none, none, some ⟨.unavailable "down", false⟩, some ⟨.unavailable "down", true⟩]
  trials := []

theorem lostReply_bearable : Bearable 2 lostReply.lapses where
  few later h := by
    simp only [lostReply, List.suffix_cons_iff, List.suffix_nil] at h
    rcases h with rfl | rfl | rfl | rfl | rfl <;> decide
  transient lapse h := by
    simp only [lostReply, List.mem_cons, reduceCtorEq, Option.some.injEq, List.not_mem_nil,
      false_or, or_false] at h
    rcases h with rfl | rfl <;> rfl

theorem lostReply_hidden : lostReply.world.Stores opened [] ∧ Bearable 2 lostReply.lapses ∧
    raise.Bears 2 ∧ (∃ s calls₁ calls₂, (lostReply.through [raise]).world.Stores s calls₁ ∧
      (lostReply.world.through [raise.unretried]).Stores s calls₂) ∧
    ∃ new, (lostReply.through [raise]).trials = new ++ [] ∧
      (Request.advance spool).Agrees (.ok (.maintained .unchanged)) (.ok (.maintained .advanced))
        new := by
  have hw : lostReply.world.Stores opened [] := rfl
  have hb : raise.Bears 2 := ⟨.default, rfl, by decide⟩
  obtain ⟨hfinal, hagrees⟩ :=
    Installation.lapses_hidden hw lostReply_bearable [raise] fun h hh => by
      rw [List.mem_singleton] at hh
      exact hh ▸ hb
  exact ⟨hw, lostReply_bearable, hb, hfinal, hagrees [] view retryingSeat (.advance spool) [] rfl⟩

end Sample

end SpoolIndex
