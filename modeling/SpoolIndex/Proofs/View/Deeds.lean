import SpoolIndex.Proofs.Interleaving.Register
import SpoolIndex.Proofs.Operation.Counters
import SpoolIndex.Proofs.View.Upkeep
import SpoolIndex.Proofs.View.Writing

/-!
# Deeds of a view

A deed is what a view does to a queue and has a counter for. How a record and how
maintenance came out is told by what they ended with and what the store replied to
them, a delete is one if it has ended well, and their paths add to the counters of
these deeds and to no others (`View.RecordDeeds.counters`, `View.MaintenanceDeeds.counters`,
`View.DeleteDeeds.counters`).
-/

namespace SpoolIndex

inductive RecordEnd where
  | indexed
  /-- The slice was behind the browse start that was read after the append. -/
  | behind
  | failed
deriving DecidableEq

def RecordEnd.label : RecordEnd → String
  | indexed => "ok"
  | behind => "behind_browse_start"
  | failed => "error"

inductive MaintenanceEnd where
  | advanced
  | unchanged
  | failed
deriving DecidableEq

def MaintenanceEnd.label : MaintenanceEnd → String
  | advanced => "advanced"
  | unchanged => "unchanged"
  | failed => "error"

inductive Deed where
  | record (queue : QueueName) (result : RecordEnd)
  | delete (queue : QueueName)
  | maintenance (queue : QueueName) (result : MaintenanceEnd)
  /-- A browse yields an item. -/
  | item (queue : QueueName)
  /-- A browse comes to a partition that fails. -/
  | failure (policy : FailurePolicy)
deriving DecidableEq

def Deed.counter : Deed → Counter
  | record q result => (.itemsRecorded, [("queue", q.text), ("result", result.label)])
  | delete q => (.itemsDeleted, [("queue", q.text)])
  | maintenance q result => (.browseStartUpdates, [("queue", q.text), ("result", result.label)])
  | item q => (.itemsBrowsed, [("queue", q.text)])
  | failure .failFast => (.partitionFailures, [("policy", "fail_fast")])
  | failure .skipAndContinue => (.partitionFailures, [("policy", "skip_and_continue")])

theorem Deed.counter_ofView (deed : Deed) : deed.counter.1.ofView := by
  rcases deed with _ | _ | _ | _ | _ | _ <;> rfl

/-- Neither a store call nor a count. -/
def Action.Silent : Action → Prop
  | store _ | report (.count ..) => False
  | _ => True

def Silent (path : List Exchange) : Prop := ∀ x ∈ path, x.action.Silent

theorem Action.Silent.uncounted {action : Action} (h : action.Silent) : action.Uncounted := by
  cases action with
  | report r => cases r <;> first | exact h.elim | rfl
  | _ => rfl

theorem Silent.counters (h : Silent path) : countersOf path = [] :=
  countersOf_eq_nil fun x hx => (h x hx).uncounted

-- ---------------------------------------------------------------------------
-- Records
-- ---------------------------------------------------------------------------

/-- An item was appended, and then the browse start of its queue was read and was beyond it. -/
def Overtaken : List Exchange → Prop
  | [] => False
  | x :: later =>
    (∃ item start, x = ⟨.store (.appendItem item), .ok ()⟩ ∧ item.slice < start ∧
      ⟨.store (.readStart item.queue), .ok (some start)⟩ ∈ later) ∨ Overtaken later

inductive RecordEnd.Of (path : List Exchange) : Except Error Key → RecordEnd → Prop
  | indexed (key : Key) : Of path (.ok key) .indexed
  | behind (e : Error) (h : Overtaken path) : Of path (.error e) .behind
  | failed (e : Error) (h : ¬Overtaken path) : Of path (.error e) .failed

/-- Maintenance is said to have advanced the browse start if a conditional write of it was applied,
and to have failed if it has ended in an error. -/
inductive MaintenanceEnd.Of (q : QueueName) (path : List Exchange) :
    Except Error Advance → MaintenanceEnd → Prop
  | advanced (result : Except Error Advance) (h : RaisedIn q path) : Of q path result .advanced
  | failed (e : Error) : Of q path (.error e) .failed
  | unchanged (answer : Advance) (h : ¬RaisedIn q path) : Of q path (.ok answer) .unchanged

section
variable {v : View} {q : QueueName} {x : Item} {path path' before middle after : List Exchange}

namespace View

def RecordDeeds (v : View) (q : QueueName) (new : NewItem) (moment : Instant) (path : List Exchange)
    (result : Except Error Key) (deeds : List Deed) : Prop :=
  (v.recordAt q new moment).run.Ends path result ∧
    ∃ recordEnd, RecordEnd.Of path result recordEnd ∧ deeds = [.record q recordEnd]

theorem recordDeeds_of_ends (h : (v.recordAt q new moment).run.Ends path result) :
    ∃ deeds, v.RecordDeeds q new moment path result deeds := by
  cases result with
  | ok key => exact ⟨_, h, .indexed, .indexed key, rfl⟩
  | error e =>
    by_cases ho : Overtaken path
    · exact ⟨_, h, .behind, .behind e ho, rfl⟩
    · exact ⟨_, h, .failed, .failed e ho, rfl⟩

end View

theorem Reporting.not_overtaken (h : Reporting path) : ¬Overtaken path := by
  induction path with
  | nil => exact id
  | cons x path ih =>
    obtain ⟨hx, hpath⟩ := List.forall_mem_cons.mp h
    rintro (⟨_, _, rfl, -⟩ | ho)
    · exact hx
    · exact ih hpath ho

/-- What is reported before and after does not matter. -/
theorem overtaken_between (hbefore : Reporting before) (hafter : Reporting after) :
    Overtaken (before ++ (middle ++ after)) ↔ Overtaken middle := by
  induction before with
  | nil =>
    induction middle with
    | nil => exact iff_of_false hafter.not_overtaken id
    | cons x middle ih =>
      refine or_congr ?_ ih
      refine exists_congr fun item => exists_congr fun start => and_congr_right fun _ =>
        and_congr_right fun _ => ?_
      exact List.mem_append.trans (or_iff_left fun hx => hafter _ hx)
  | cons x before ih =>
    obtain ⟨hx, hbefore⟩ := List.forall_mem_cons.mp hbefore
    refine (or_iff_right ?_).trans (ih hbefore)
    rintro ⟨_, _, rfl, -⟩
    exact hx

theorem RecordEnd.Of.congr (h : RecordEnd.Of path result recordEnd)
    (ho : Overtaken path ↔ Overtaken path') : RecordEnd.Of path' result recordEnd := by
  cases h with
  | indexed key => exact .indexed key
  | behind e h => exact .behind e (ho.mp h)
  | failed e h => exact .failed e (mt ho.mpr h)

/-- No store call of the path fails with the words in which a record says that it was overtaken. -/
def Candid (path : List Exchange) : Prop := ∀ e, FailedIn e path → e.message ≠ behindBrowseStart

theorem candid_append : Candid (path ++ path') ↔ Candid path ∧ Candid path' := by
  simp only [Candid, failedIn_append, or_imp, forall_and]

theorem Candid.tail {x : Exchange} (h : Candid (x :: path)) : Candid path := by
  intro e ⟨c, hx⟩
  exact h e ⟨c, List.mem_cons_of_mem x hx⟩

theorem BrowseStart.Establishes.failedIn (h : BrowseStart.Establishes q slice path result)
    (he : result = .error e) : FailedIn e path := by
  cases h with
  | failed e' =>
    cases he
    exact ⟨_, List.mem_cons_self⟩
  | opened => cases he
  | found read =>
    cases read with
    | ok => cases he
    | error e' =>
      cases he
      exact ⟨_, List.mem_cons_of_mem _ List.mem_cons_self⟩

theorem BrowseStart.Establishes.overtaken_append (h : BrowseStart.Establishes q slice path result) :
    Overtaken (path ++ after) ↔ Overtaken after := by
  cases h <;> simp [Overtaken]

namespace View

/-- A record fails because a store call of it does, or because it was overtaken. -/
theorem Writes.error_cases (h : v.Writes x path result) (hresult : result = .error e) :
    (¬Overtaken path ∧ ∃ e', FailedIn e' path ∧ e = indexing x e') ∨
      Overtaken path ∧ e = .indexing x.queue x.key behindBrowseStart := by
  cases h with
  | @unopened _ e' h =>
    cases hresult
    have ho : Overtaken (_ ++ []) ↔ Overtaken [] := h.overtaken_append
    rw [List.append_nil] at ho
    exact .inl ⟨mt ho.mp id, e', h.failedIn rfl, rfl⟩
  | unappended e' h =>
    cases hresult
    exact .inl ⟨mt h.overtaken_append.mp (by simp [Overtaken]), e', ⟨.appendItem x, by simp⟩, rfl⟩
  | appended read h =>
    cases read with
    | error e' =>
      cases hresult
      exact .inl ⟨mt h.overtaken_append.mp (by simp [Overtaken]), e', ⟨.readStart x.queue, by simp⟩,
        rfl⟩
    | ok start =>
      have hverdict : verdict x start = .error e := hresult
      refine .inr ⟨h.overtaken_append.mpr (.inl ?_), verdict_error hverdict⟩
      cases start with
      | none => cases hverdict
      | some start =>
        refine ⟨x, start, rfl, Decidable.byContradiction fun hle => ?_, List.mem_cons_self⟩
        rw [verdict, if_neg hle] at hverdict
        cases hverdict

theorem Writes.counters (h : v.Writes x path result) : countersOf path = [] := by
  have hopening {slice : Slice} {opening : List Exchange} {result : Except Error Slice}
      (h : BrowseStart.Establishes x.queue slice opening result) : countersOf opening = [] := by
    cases h <;> rfl
  cases h with
  | unopened h => exact hopening h
  | unappended e h =>
    rw [countersOf_append, hopening h]
    rfl
  | appended read h =>
    rw [countersOf_append, hopening h]
    rfl

/-- The label that a record is counted under. -/
theorem Writes.outcome (h : v.Writes x path result) (hc : Candid path)
    (he : RecordEnd.Of path (result.map fun _ => key) recordEnd) :
    recordOutcome result = recordEnd.label := by
  cases result with
  | ok =>
    cases he
    rfl
  | error e =>
    obtain ⟨ho, e', hfailed, rfl⟩ | ⟨ho, rfl⟩ := h.error_cases rfl
    · cases he with
      | behind _ ho' => exact absurd ho' ho
      | failed => exact if_neg (hc e' hfailed)
    · cases he with
      | behind => simp [recordOutcome, RecordEnd.label]
      | failed _ ho' => exact absurd ho ho'

theorem reportRecord_counters (h : (reportRecord slice bucket result).Ends path value) :
    countersOf path = [] := by
  rcases result with e | _ <;> obtain rfl := h.of_perform <;> rfl

theorem endRecord_counters (h : (endRecord q slice bucket result).Ends path value) :
    countersOf path =
      [(.itemsRecorded, [("queue", q.text), ("result", recordOutcome result)])] := by
  obtain ⟨_, _, _, rfl, hduration, h⟩ := h.of_bind
  obtain ⟨_, _, _, rfl, hcount, hspanned⟩ := h.of_bind
  obtain ⟨inner, hreport, hinner⟩ := Operation.countersOf_inSpan hspanned
  obtain rfl := hduration.of_perform
  rw [countersOf_append, countersOf_append, hinner, reportRecord_counters hreport,
    Operation.countersOf_count hcount rfl]
  rfl

theorem recordAt_counters (hkey : new.key = some key)
    (h : (v.recordAt q new moment).run.Ends path result) (hc : Candid path)
    (he : RecordEnd.Of path result recordEnd) :
    countersOf path = [(Deed.record q recordEnd).counter] := by
  obtain ⟨before, middle, after, inner, rfl, hbefore, hwrites, hafter, rfl⟩ :=
    recordAt_spanned hkey h
  have hbegin : Reporting (before ++ [⟨.report (.enter "view.record"), ()⟩]) :=
    List.forall_mem_append.mpr ⟨beginRecord_reports.ends hbefore,
      List.forall_mem_singleton.mpr trivial⟩
  have hend : Reporting (⟨.report .leave, ()⟩ :: after) :=
    List.forall_mem_cons.mpr ⟨trivial, endRecord_reports.ends hafter⟩
  have hcandid : Candid middle := (candid_append.mp (candid_append.mp hc).2).1
  have hwritten : RecordEnd.Of middle (inner.map fun _ => key) recordEnd :=
    he.congr (overtaken_between hbegin hend)
  have hbegun : (beginRecord q key (v.itemOf q new key moment).slice).Takes Action.Uncounted :=
    ⟨rfl, fun _ => ⟨rfl, fun _ => trivial⟩⟩
  simp only [countersOf_append, countersOf_cons, hbegun.countersOf hbefore, hwrites.counters,
    endRecord_counters hafter, hwrites.outcome hcandid hwritten]
  rfl

theorem RecordDeeds.counters (h : v.RecordDeeds q new moment path result deeds) (hc : Candid path) :
    countersOf path = deeds.map Deed.counter := by
  obtain ⟨hends, recordEnd, hend, rfl⟩ := h
  cases hkey : new.key with
  | some key => exact recordAt_counters hkey hends hc hend
  | none =>
    rw [recordAt_minted hkey] at hends
    obtain ⟨_, rest, key, rfl, hmint, hrest⟩ := hends.of_bind
    obtain rfl := hmint.of_perform
    rw [countersOf_append]
    have hkeyed : (new.withKey key).key = some key := rfl
    exact recordAt_counters hkeyed hrest (candid_append.mp hc).2 (hend.congr (by simp [Overtaken]))

-- ---------------------------------------------------------------------------
-- Maintenance
-- ---------------------------------------------------------------------------

def MaintenanceDeeds (v : View) (q : QueueName) (path : List Exchange)
    (result : Except Error Advance) (deeds : List Deed) : Prop :=
  (v.advanceBrowseStart q).run.Ends path result ∧
    ∃ maintenanceEnd, MaintenanceEnd.Of q path result maintenanceEnd ∧
      deeds = [.maintenance q maintenanceEnd]

theorem maintenanceDeeds_of_ends (h : (v.advanceBrowseStart q).run.Ends path result) :
    ∃ deeds, v.MaintenanceDeeds q path result deeds := by
  by_cases hraised : RaisedIn q path
  · exact ⟨_, h, .advanced, .advanced result hraised, rfl⟩
  · cases result with
    | error e => exact ⟨_, h, .failed, .failed e, rfl⟩
    | ok answer => exact ⟨_, h, .unchanged, .unchanged answer hraised, rfl⟩

def maintenanceEnd : Except Error Advance → MaintenanceEnd
  | .ok .advanced => .advanced
  | .ok .unchanged => .unchanged
  | .error _ => .failed

/-- Its result tells whether the conditional write was applied. -/
theorem maintenanceEnd_of (h : (v.advanceBrowseStart q).run.Ends path result)
    (he : MaintenanceEnd.Of q path result last) : last = maintenanceEnd result := by
  cases he with
  | failed e => rfl
  | advanced _ hraised =>
    cases result with
    | error e =>
      obtain ⟨slice, hx⟩ := hraised
      exact (advanceBrowseStart_allOrNothing.readsOnly path e h _ _ hx).elim
    | ok answer =>
      obtain rfl := (advanceBrowseStart_advanced_iff h).mpr hraised
      rfl
  | unchanged answer hraised =>
    cases answer with
    | advanced => exact absurd ((advanceBrowseStart_advanced_iff h).mp rfl) hraised
    | unchanged => rfl

theorem reportMaintenance_ends (h : (reportMaintenance result).Ends path value) :
    countersOf path = [] ∧ value = (maintenanceEnd (result.map (·.result))).label := by
  rcases result with e | ⟨_ | _, source, target⟩
  · obtain ⟨rfl, rfl⟩ := h.of_done
    exact ⟨rfl, rfl⟩
  · obtain ⟨_, _, _, rfl, hfrom, h⟩ := h.of_bind
    obtain ⟨_, _, _, rfl, hto, h⟩ := h.of_bind
    obtain ⟨_, _, _, rfl, hevent, h⟩ := h.of_bind
    obtain ⟨_, hinner, hsame⟩ := Operation.countersOf_inSpan hevent
    obtain ⟨rfl, rfl⟩ := h.of_done
    obtain rfl := hfrom.of_perform
    obtain rfl := hto.of_perform
    obtain rfl := hinner.of_perform
    rw [countersOf_append, countersOf_append, countersOf_append, hsame]
    exact ⟨rfl, rfl⟩
  · obtain ⟨rfl, rfl⟩ := h.of_done
    exact ⟨rfl, rfl⟩

theorem MaintenanceDeeds.counters (h : v.MaintenanceDeeds q path result deeds) :
    countersOf path = deeds.map Deed.counter := by
  obtain ⟨hends, last, hlast, rfl⟩ := h
  obtain rfl := maintenanceEnd_of hends hlast
  obtain ⟨middle, m, told, outcome, rfl, hmaintain, htold, rfl⟩ := advanceBrowseStart_ends hends
  obtain ⟨hnone, rfl⟩ := reportMaintenance_ends htold
  have htakes : (v.maintain q).run.Takes Action.Uncounted := by
    refine maintain_takes.mono fun action ha => ?_
    cases action with
    | report r => cases r <;> first | exact ha.elim | rfl
    | _ => rfl
  simp only [overseen, countersOf_cons, countersOf_append, htakes.countersOf hmaintain, hnone]
  rfl

-- ---------------------------------------------------------------------------
-- Deletes
-- ---------------------------------------------------------------------------

/-- A delete that succeeds is a deed, and so is the maintenance that follows it if it is due. -/
inductive DeleteDeeds (v : View) (q : QueueName) (key : Key) (slice : Slice) :
    List Exchange → Except Error Unit → List Deed → Prop
  | failed {path : List Exchange} {e : Error} (h : (bury q key slice).run.Ends path (.error e)) :
    DeleteDeeds v q key slice path (.error e) []
  | deleted {before asked : List Exchange} (h : (bury q key slice).run.Ends before (.ok ()))
    (hasked : v.maintenanceIsDue.Ends asked false) :
    DeleteDeeds v q key slice (before ++ asked) (.ok ()) [.delete q]
  | maintained {before asked entered middle left : List Exchange} {outcome : Except Error Advance}
    {deeds : List Deed} (h : (bury q key slice).run.Ends before (.ok ()))
    (hasked : v.maintenanceIsDue.Ends asked true) (hentered : Silent entered)
    (hmiddle : v.MaintenanceDeeds q middle outcome deeds) (hleft : Silent left) :
    DeleteDeeds v q key slice (before ++ (asked ++ (entered ++ (middle ++ left)))) (.ok ())
      (.delete q :: deeds)

theorem warned_silent (outcome : Except Error Advance) : Silent (warned outcome) := by
  cases outcome with
  | ok => exact fun _ hx => nomatch hx
  | error e => simp [Silent, warned, Action.Silent]

theorem deleteDeeds_of_ends (h : (v.delete q key slice).run.Ends path result) :
    ∃ deeds, v.DeleteDeeds q key slice path result deeds := by
  obtain ⟨e, hbury, rfl⟩ | ⟨before, _, _, rfl, hbury, h⟩ := Attempt.ends_bind_cases h
  · exact ⟨[], .failed hbury⟩
  obtain ⟨rfl, asked, due, rest, rfl, hasked, hfollows⟩ := followUp_ends h
  cases hfollows with
  | skipped =>
    rw [List.append_nil]
    exact ⟨_, .deleted hbury hasked⟩
  | @maintained middle outcome hmiddle =>
    obtain ⟨deeds, hmaintains⟩ := maintenanceDeeds_of_ends hmiddle
    have hentered : Silent [⟨.report (.enter "view.delete"), ()⟩] :=
      List.forall_mem_singleton.mpr trivial
    have hleft : Silent (⟨.report .leave, ()⟩ :: warned outcome) :=
      List.forall_mem_cons.mpr ⟨trivial, warned_silent outcome⟩
    exact ⟨_, .maintained hbury hasked hentered hmaintains hleft⟩

/-- A delete is counted if it succeeds. -/
theorem bury_counters (h : (bury q key slice).run.Ends path result) : countersOf path =
    match result with
    | .ok _ => [(Deed.delete q).counter]
    | .error _ => [] := by
  obtain rfl := bury_ends h
  cases result <;> rfl

theorem maintenanceIsDue_counters (h : v.maintenanceIsDue.Ends path due) :
    countersOf path = [] := by
  refine countersOf_eq_nil fun x hx => ?_
  have hcounts := maintenanceIsDue_takes.ends h x hx
  rw [Action.Uncounted, hcounts]
  rfl

theorem DeleteDeeds.counters (h : v.DeleteDeeds q key slice path result deeds) :
    countersOf path = deeds.map Deed.counter := by
  cases h with
  | failed h => exact bury_counters h
  | deleted h hasked =>
    rw [countersOf_append, bury_counters h, maintenanceIsDue_counters hasked]
    rfl
  | maintained h hasked hentered hmiddle hleft =>
    simp only [countersOf_append, bury_counters h, maintenanceIsDue_counters hasked,
      hentered.counters, hmiddle.counters, hleft.counters, List.nil_append, List.append_nil]
    rfl

end View

end

end SpoolIndex
