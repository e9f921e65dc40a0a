import SpoolIndex.Proofs.View.Rows
import SpoolIndex.View.Browse

/-!
# The actions of a browse

Once it is opened, a browse scans partitions, looks up tombstones, reads the
clock and reports, and does nothing else (`Browse.pull_takes`).
-/

namespace SpoolIndex

def StoreCall.IsLookup : StoreCall → Prop
  | scanItems .. | hasTombstone .. => True
  | _ => False

theorem StoreCall.IsLookup.isRead (h : IsLookup c) : c.IsRead := by
  cases c with
  | scanItems | hasTombstone => trivial
  | _ => cases h

def Action.IsBrowsing : Action → Prop
  | store c => c.IsLookup
  | now | report _ => True
  | _ => False

theorem Action.IsBrowsing.allowed {action : Action} (h : action.IsBrowsing) :
    action.Allowed StoreCall.IsLookup := by
  cases action with
  | store c => exact h
  | _ => trivial

theorem Operation.Takes.reads {op : Operation α} (h : op.Takes Action.IsBrowsing) :
    op.Calls StoreCall.IsRead :=
  Operation.Calls.mono (Operation.Takes.mono h fun _ ha => ha.allowed) fun _ hc => hc.isRead

def Report.OfBrowse (r : Report) : Prop := ∀ span, r = .enter span → span = "view.browse"

structure Action.Browses (P : Action → Prop) : Prop where
  lookup {c : StoreCall} (hc : c.IsLookup) : P (.store c)
  now : P .now
  report {r : Report} (hr : r.OfBrowse) : P (.report r)

theorem Action.browses_isBrowsing : Action.Browses IsBrowsing :=
  ⟨fun hc => hc, trivial, fun _ => trivial⟩

section
variable {P : Action → Prop} {v : View}

namespace PartitionScan

theorem start_takes (hP : ∀ {c}, StoreCall.IsLookup c → P (.store c)) :
    (start v p).Takes P := by
  have hpages : StoreCall.IsLookup (.scanItems p none v.pageSize) := trivial
  refine (Operation.takes_perform (hP hpages)).bind ?_
  rintro (e | page) <;> trivial

theorem refill_takes (hP : ∀ {c}, StoreCall.IsLookup c → P (.store c)) :
    (refill v room s).Takes P := by
  induction room generalizing s with
  | zero => trivial
  | succ room ih =>
    have hpages (after : Option Token) :
        (itemPages s.partition v.pageSize after).run.Takes P := Operation.takes_perform (hP trivial)
    refine (Rows.pull_takes hpages).bind ?_
    rintro ⟨_ | row, rows⟩
    · trivial
    · exact ih

theorem step_takes (hP : ∀ {c}, StoreCall.IsLookup c → P (.store c)) {s : PartitionScan} :
    (s.step v).Takes P := by
  refine (refill_takes hP).bind fun s => ?_
  obtain ⟨p, rows, waiting, failed⟩ := s
  rcases waiting with _ | ⟨e | x, waiting⟩
  · trivial
  · trivial
  · have hlook : StoreCall.IsLookup (.hasTombstone x.queue x.key) := trivial
    refine (Operation.takes_perform (hP hlook)).bind ?_
    rintro (e | _ | _) <;> trivial

end PartitionScan

namespace Browse

theorem draw_takes (hP : P .now) : (draw v q room place found).Takes P := by
  induction room generalizing place found with
  | zero => trivial
  | succ room ih =>
    cases place with
    | none => trivial
    | some place =>
      refine (Operation.takes_perform hP).bind fun t => ?_
      split
      · trivial
      · exact ih

theorem takes_event (hP : ∀ {r}, Report.OfBrowse r → P (.report r)) :
    (Operation.inSpan "view.browse" (Operation.event level message fields)).Takes P := by
  have henter : Report.OfBrowse (.enter "view.browse") := by
    rintro _ ⟨⟩
    rfl
  have hevent : Report.OfBrowse (.event level message fields) := nofun
  have hleave : Report.OfBrowse .leave := nofun
  exact (Operation.takes_perform (hP henter)).bind fun _ =>
    (Operation.takes_perform (hP hevent)).bind fun _ =>
      (Operation.takes_perform (hP hleave)).bind fun _ => trivial

theorem deliver_takes (hP : ∀ {r}, Report.OfBrowse r → P (.report r)) {b : Browse} :
    (deliver v b result).Takes P := by
  have hcount (instrument : Instrument) (labels : List (String × String)) :
      (Operation.count instrument labels).Takes P := Operation.takes_perform (hP nofun)
  have hwarn (message : String) (fields : List (String × Field)) :
      (Operation.inSpan "view.browse" (Operation.event .warn message fields)).Takes P :=
    takes_event hP
  unfold deliver
  split
  · trivial
  · split
    · exact (hcount _ _).bind fun _ => trivial
    · exact (hwarn _ _).bind fun _ => (hcount _ _).bind fun _ => trivial
    · exact (hwarn _ _).bind fun _ => (hcount _ _).bind fun _ => trivial
    · trivial

theorem step_takes (hP : Action.Browses P) {b : Browse} : (b.step v).Takes P := by
  obtain ⟨q, cursor, drawn, reading, stopped, failures⟩ := b
  cases reading with
  | some s =>
    refine (PartitionScan.step_takes hP.lookup).bind ?_
    rintro ⟨result | _ | _, s⟩
    · exact deliver_takes hP.report
    · trivial
    · trivial
  | none =>
    refine (draw_takes hP.now).bind ?_
    rintro ⟨fresh, cursor⟩
    dsimp only
    split
    · trivial
    · exact (PartitionScan.start_takes hP.lookup).bind fun _ => trivial

theorem advance_takes (hP : Action.Browses P) {b : Browse} : (b.advance v steps).Takes P := by
  induction steps generalizing b with
  | zero => trivial
  | succ steps ih =>
    refine (step_takes hP).bind ?_
    rintro ⟨result | _ | _, b⟩
    · trivial
    · exact ih
    · trivial

theorem pull_takes (hP : Action.Browses P) {b : Browse} : (b.pull v).Takes P := advance_takes hP

theorem pull_calls {b : Browse} : (b.pull v).Calls StoreCall.IsLookup :=
  (pull_takes Action.browses_isBrowsing).mono fun _ h => h.allowed

theorem pullMany_calls {b : Browse} : (b.pullMany v limit found).Calls StoreCall.IsLookup := by
  induction limit generalizing b found with
  | zero => trivial
  | succ limit ih =>
    refine pull_calls.bind ?_
    rintro ⟨_ | result, b⟩
    · trivial
    · exact ih

end Browse

end

theorem Browse.ofQueue_takes {P : Action → Prop} (hstart : P (.store (.readStart q)))
    (hP : ∀ {r}, Report.OfBrowse r → P (.report r)) : (Browse.ofQueue q).run.Takes P := by
  have hlift {op : Operation Unit} (h : op.Takes P) : (liftM op : Attempt Unit).run.Takes P := by
    rw [ExceptT.run_liftM]
    exact h.map
  refine Attempt.takes_bind (hlift (Operation.takes_perform (hP nofun))) fun _ => ?_
  refine Attempt.takes_bind (Operation.takes_perform hstart) fun start => ?_
  cases start with
  | none =>
    have hevent : (Operation.inSpan "view.browse" (liftM (Operation.event .debug
        "queue never written to, nothing to browse" []) : Attempt Unit).run).Takes P :=
      takes_event hP
    exact Attempt.takes_bind hevent fun _ => trivial
  | some start =>
    exact Attempt.takes_bind (hlift (Operation.takes_perform (hP nofun))) fun _ => trivial

theorem Browse.ofQueue_calls : (Browse.ofQueue q).run.Calls (· = .readStart q) :=
  ofQueue_takes rfl fun _ => trivial

theorem View.countItems_calls {v : View} {b : Browse} :
    (v.countItems limit n b).run.Calls StoreCall.IsLookup := by
  induction limit generalizing n b with
  | zero => trivial
  | succ limit ih =>
    refine Attempt.calls_bind (Attempt.calls_lift Browse.pull_calls) ?_
    rintro ⟨_ | e | x, b⟩
    · trivial
    · trivial
    · exact ih

theorem View.size_calls {v : View} : (v.size q).run.Calls StoreCall.IsRead :=
  Attempt.calls_bind (Browse.ofQueue_takes trivial fun _ => trivial)
    fun _ => countItems_calls.mono fun _ hc => hc.isRead

end SpoolIndex
