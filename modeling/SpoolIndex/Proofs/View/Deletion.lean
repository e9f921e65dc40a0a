import SpoolIndex.Proofs.Browse.Calls
import SpoolIndex.Proofs.View.Recording
import SpoolIndex.View.Deletion

/-!
# Deletes and maintenance runs

A delete fails with the write of its tombstone, or succeeds, and then maintenance may
follow (`View.deletes_of_ends`). Whatever contract maintenance keeps to, deletes keep
to as well, if the contract allows tombstones (`View.delete_keeps`,
`View.deleteMatching_keeps`).
-/

namespace SpoolIndex

structure Contract.AllowsUpkeep (k : Contract) (v : View) (q : QueueName) : Prop
    extends k.AllowsReads where
  own_open : k.clock t → k.own (.swapStart q .absent (v.settleLimit t)) s
  own_bury : k.own (.putTombstone q key) s
  maintain : (v.maintain q).run.Keeps k (fun _ _ => True) s

theorem Contract.Protects.allowsUpkeep {k : Contract} (hk : k.Protects p key)
    (hm : ∀ s, (v.maintain p.queue).run.Keeps k (fun _ _ => True) s) : k.AllowsUpkeep v q where
  toAllowsReads := hk.allowsReads
  own_open _ := hk.own_of_ne fun _ h => nomatch h
  own_bury := hk.own_of_ne fun _ h => nomatch h
  maintain := by
    intro s
    by_cases hq : q = p.queue
    · subst hq
      exact hm s
    · refine View.maintain_calls.keeps ?_
      rintro c s (hr | ⟨_, target, rfl, -⟩) -
      · exact hk.allowsReads.own_read hr
      · exact hk.own_of_ne fun slice h => by cases h; exact hq rfl

namespace View

section
variable {k : Contract} {v : View} {s : Store}

theorem advanceBrowseStart_keeps (h : (v.maintain q).run.Keeps k (fun _ _ => True) s) :
    (v.advanceBrowseStart q).run.Keeps k (fun _ _ => True) s := by
  refine Operation.keeps_bind.mpr (Operation.keeps_report.mpr ?_)
  refine Operation.keeps_bind.mpr (Attempt.keeps_inSpan.mpr (h.mono fun result s _ => ?_))
  refine Operation.keeps_bind.mpr (reportMaintenance_reports.keeps fun _ => ?_)
  exact Operation.keeps_bind.mpr (Operation.keeps_count.mpr trivial)

theorem maintenanceIsDue_takes : v.maintenanceIsDue.Takes (· = .countDelete) := by
  unfold maintenanceIsDue
  split
  · trivial
  · trivial
  · have hcount : (Operation.perform .countDelete).Takes (· = .countDelete) :=
      Operation.takes_perform rfl
    exact hcount.bind fun _ => trivial

theorem maintenanceIsDue_calls : v.maintenanceIsDue.Calls P := by
  refine maintenanceIsDue_takes.mono ?_
  rintro _ rfl
  trivial

theorem maintenanceIsDue_keeps {post : Bool → Store → Prop} (h : ∀ due, post due s) :
    v.maintenanceIsDue.Keeps k post s := by
  unfold maintenanceIsDue
  split
  · exact h false
  · exact h true
  · exact fun n => h _

theorem followUp_keeps (hk : k.AllowsUpkeep v q) :
    (v.followUp q).run.Keeps k (fun _ _ => True) s := by
  refine Attempt.keeps_bind.mpr (Attempt.keeps_lift.mpr (maintenanceIsDue_keeps fun due => ?_))
  cases due with
  | false => trivial
  | true =>
    refine Attempt.keeps_bind.mpr (Attempt.keeps_outcome.mpr (Attempt.keeps_inSpan.mpr ?_))
    refine (advanceBrowseStart_keeps hk.maintain).mono fun result s _ => ?_
    cases result with
    | ok _ => trivial
    | error e =>
      exact Attempt.keeps_inSpan.mpr (Attempt.keeps_lift.mpr (Operation.keeps_event.mpr trivial))

theorem bury_calls : (bury q key slice).run.Calls (· = .putTombstone q key) := by
  refine Attempt.calls_bind (Attempt.calls_lift Operation.calls_report) fun _ => ?_
  refine Attempt.calls_bind (Attempt.calls_inSpan (Attempt.calls_call rfl)) fun _ => ?_
  exact Attempt.calls_lift Operation.calls_count

theorem followUp_calls {P : StoreCall → Prop} (h : (v.advanceBrowseStart q).run.Calls P) :
    (v.followUp q).run.Calls P := by
  refine Attempt.calls_bind (Attempt.calls_lift maintenanceIsDue_calls) fun due => ?_
  cases due with
  | false => trivial
  | true =>
    have hupkeep : (Attempt.inSpan "view.delete" (v.advanceBrowseStart q)).run.Calls P :=
      Attempt.calls_inSpan h
    refine Attempt.calls_bind (hupkeep.bind fun _ => trivial) ?_
    rintro (e | _)
    · exact Attempt.calls_inSpan (Attempt.calls_lift Operation.calls_event)
    · trivial

theorem delete_keeps (hk : k.AllowsUpkeep v q) :
    (v.delete q key slice).run.Keeps k (fun _ _ => True) s := by
  have hbury : (bury q key slice).run.Keeps k (fun _ _ => True) s :=
    bury_calls.keeps fun _ _ hc _ => hc ▸ hk.own_bury
  refine Attempt.keeps_bind.mpr (hbury.mono ?_)
  rintro (e | _) s' -
  · trivial
  · exact followUp_keeps hk

theorem openQueue_keeps (hk : k.AllowsUpkeep v q) :
    (v.openQueue q).run.Keeps k (fun _ _ => True) s := by
  refine Attempt.keeps_bind.mpr (Attempt.keeps_lift.mpr (Operation.keeps_now.mpr fun t ht => ?_))
  refine Attempt.keeps_bind.mpr ((BrowseStart.establish_calls.keeps ?_).mono ?_)
  · rintro c s (rfl | rfl) -
    · exact hk.own_open ht
    · exact hk.own_read trivial
  · rintro (e | start) s' -
    · trivial
    · exact Attempt.keeps_bind.mpr (Attempt.keeps_lift.mpr (Operation.keeps_event.mpr trivial))

theorem deleteAccepted_keeps {b : Browse} (hk : ∀ q, k.AllowsUpkeep v q) :
    (v.deleteAccepted filter limit n b).run.Keeps k (fun _ _ => True) s := by
  induction limit generalizing s n b with
  | zero => trivial
  | succ limit ih =>
    refine Attempt.keeps_bind.mpr (Attempt.keeps_lift.mpr ?_)
    refine ((hk default).keeps_reads (Browse.pull_calls.mono fun _ hc => hc.isRead)).mono ?_
    rintro ⟨_ | e | x, b⟩ s' -
    · trivial
    · trivial
    · dsimp only
      split
      · refine Attempt.keeps_bind.mpr ((delete_keeps (hk x.queue)).mono ?_)
        rintro (e | _) s' -
        · trivial
        · exact ih
      · exact ih

theorem deleteMatching_keeps (hk : ∀ q, k.AllowsUpkeep v q) :
    (v.deleteMatching q filter).run.Keeps k (fun _ _ => True) s := by
  refine Attempt.keeps_bind.mpr (((hk q).keeps_reads (Browse.ofQueue_calls.mono ?_)).mono ?_)
  · rintro c rfl
    trivial
  rintro (e | b) s' -
  · trivial
  refine Attempt.keeps_bind.mpr ((deleteAccepted_keeps hk).mono ?_)
  rintro (e | n) s' -
  · trivial
  · exact Attempt.keeps_bind.mpr (Attempt.keeps_lift.mpr (Operation.keeps_event.mpr trivial))

end

-- ---------------------------------------------------------------------------
-- The ways that a delete may go
-- ---------------------------------------------------------------------------

section
variable {v : View} {q : QueueName} {path : List Exchange}

def counted (q : QueueName) : Except Error Unit → List Exchange
  | .ok _ => [⟨.report (.count .itemsDeleted [("queue", q.text)]), ()⟩]
  | .error _ => []

theorem counted_reports (q : QueueName) (written : Except Error Unit) :
    Reporting (counted q written) := by
  cases written with
  | ok => exact List.forall_mem_singleton.mpr trivial
  | error e => exact fun _ hx => nomatch hx

def buried (q : QueueName) (key : Key) (slice : Slice) (written : Except Error Unit) :
    List Exchange :=
  [⟨.report (.span "view.delete" [("view.queue", .text q.text), ("view.key", .text key.render),
      ("view.slice", .text (toString slice))]), ()⟩, ⟨.report (.enter "view.delete"), ()⟩,
    ⟨.store (.putTombstone q key), written⟩, ⟨.report .leave, ()⟩] ++
  counted q written

theorem bury_ends (h : (bury q key slice).run.Ends path result) :
    path = buried q key slice result := by
  obtain ⟨_, _, _, rfl, hspan, hrest⟩ := Attempt.ends_lift_bind h
  obtain rfl := hspan.of_perform
  obtain ⟨e, hput, rfl⟩ | ⟨_, _, _, rfl, hput, hlast⟩ := Attempt.ends_bind_cases hrest
  · obtain ⟨_, rfl, hcall⟩ := Operation.Ends.of_inSpan hput
    obtain rfl := Operation.Ends.of_perform hcall
    rfl
  · obtain ⟨_, rfl, hcall⟩ := Operation.Ends.of_inSpan hput
    obtain rfl := Operation.Ends.of_perform hcall
    obtain ⟨_, rfl, hcount⟩ := Attempt.ends_lift hlast
    obtain rfl := hcount.of_perform
    rfl

def warned : Except Error Advance → List Exchange
  | .ok _ => []
  | .error e => [⟨.report (.enter "view.delete"), ()⟩,
      ⟨.report (.event .warn ("browse start maintenance failed: " ++ e.message) []), ()⟩,
      ⟨.report .leave, ()⟩]

theorem warned_reports (outcome : Except Error Advance) : Reporting (warned outcome) := by
  cases outcome with
  | ok => exact fun _ hx => nomatch hx
  | error e => simp [Reporting, warned, Action.IsReport]

/-- What comes last in a delete: nothing, or the maintenance that is due. -/
inductive Follows (v : View) (q : QueueName) : Bool → List Exchange → Prop
  | skipped : Follows v q false []
  | maintained {middle : List Exchange} {outcome : Except Error Advance}
    (h : (v.advanceBrowseStart q).run.Ends middle outcome) :
    Follows v q true (⟨.report (.enter "view.delete"), ()⟩ ::
      (middle ++ ⟨.report .leave, ()⟩ :: warned outcome))

theorem followUp_ends (h : (v.followUp q).run.Ends path result) : result = .ok () ∧
    ∃ asked due rest, path = asked ++ rest ∧ v.maintenanceIsDue.Ends asked due ∧
      v.Follows q due rest := by
  obtain ⟨asked, rest, due, rfl, hasked, hrest⟩ := Attempt.ends_lift_bind h
  cases due with
  | false =>
    obtain ⟨rfl, rfl⟩ := hrest.of_done
    exact ⟨rfl, asked, false, [], rfl, hasked, .skipped⟩
  | true =>
    obtain ⟨_, last, outcome, rfl, hspanned, hlast⟩ := Attempt.ends_outcome_bind hrest
    obtain ⟨middle, rfl, hmiddle⟩ := Operation.Ends.of_inSpan hspanned
    have hwarned : result = .ok () ∧ last = warned outcome := by
      cases outcome with
      | ok => exact hlast.of_done.symm
      | error e =>
        obtain ⟨_, rfl, hspanned⟩ := Operation.Ends.of_inSpan hlast
        obtain ⟨_, rfl, hwarn⟩ := Attempt.ends_lift hspanned
        obtain rfl := hwarn.of_perform
        exact ⟨rfl, rfl⟩
    obtain ⟨rfl, rfl⟩ := hwarned
    have hfollows : v.Follows q true _ := .maintained hmiddle
    exact ⟨rfl, asked, true, _, by simp, hasked, hfollows⟩

/-- A delete does not write its tombstone, or does, and looks whether maintenance is due. -/
inductive Deletes (v : View) (q : QueueName) (key : Key) (slice : Slice) :
    List Exchange → Except Error Unit → Prop
  | failed (e : Error) : Deletes v q key slice (buried q key slice (.error e)) (.error e)
  | written {asked rest : List Exchange} {due : Bool}
    (hasked : v.maintenanceIsDue.Ends asked due) (hrest : v.Follows q due rest) :
    Deletes v q key slice (buried q key slice (.ok ()) ++ (asked ++ rest)) (.ok ())

theorem deletes_of_ends (h : (v.delete q key slice).run.Ends path result) :
    v.Deletes q key slice path result := by
  obtain ⟨e, hbury, rfl⟩ | ⟨_, _, _, rfl, hbury, hrest⟩ := Attempt.ends_bind_cases h
  · obtain rfl := bury_ends hbury
    exact .failed e
  · obtain rfl := bury_ends hbury
    obtain ⟨rfl, asked, due, rest, rfl, hasked, hfollows⟩ := followUp_ends hrest
    exact .written hasked hfollows

end

end View

end SpoolIndex
