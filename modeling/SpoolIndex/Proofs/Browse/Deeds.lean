import SpoolIndex.Proofs.Browse.Calls
import SpoolIndex.Proofs.View.Deeds

/-!
# Deeds of a browse

To yield an item is a deed of a browse, and so is to fail at a partition, whether the
error is yielded or put aside. What a pull adds to the counters is told by what it
yields and puts aside (`Browse.pull_accounted`).
-/

namespace SpoolIndex

def Progress.yielded : Progress α → Option α
  | yield value => some value
  | working | ended => none

namespace Browse

/-- What it comes to that a browse of the queue puts these failures aside and then yields this. -/
def deedsOf (v : View) (q : QueueName) (aside : List PartitionFailure)
    (yielded : Option (Except Error Item)) : List Deed :=
  aside.map (fun _ => .failure v.failurePolicy) ++ match yielded with
    | some (.ok _) => [.item q]
    | some (.error _) => [.failure v.failurePolicy]
    | none => []

theorem deedsOf_append : deedsOf v q (aside ++ aside') yielded =
    deedsOf v q aside none ++ deedsOf v q aside' yielded := by
  simp only [deedsOf, List.map_append, List.append_assoc, List.append_nil]

/-- From one state to another the browse has counted what it has put aside and yielded. -/
structure Accounted (v : View) (b : Browse) (path : List Exchange)
    (yielded : Option (Except Error Item)) (b' : Browse) : Prop where
  queue : b'.queue = b.queue
  aside : ∃ aside, b'.failures = b.failures ++ aside ∧
    countersOf path = (deedsOf v b.queue aside yielded).map Deed.counter

variable {v : View} {b b₁ b' : Browse} {path path' : List Exchange}
  {yielded : Option (Except Error Item)}

theorem Accounted.nothing (hq : b'.queue = b.queue) (hf : b'.failures = b.failures)
    (hp : countersOf path = []) : Accounted v b path none b' :=
  ⟨hq, [], by rw [hf, List.append_nil], hp⟩

theorem Accounted.trans (h : Accounted v b path none b₁) (h' : Accounted v b₁ path' yielded b') :
    Accounted v b (path ++ path') yielded b' := by
  obtain ⟨hq, aside, hf, hp⟩ := h
  obtain ⟨hq', aside', hf', hp'⟩ := h'
  refine ⟨hq'.trans hq, aside ++ aside', by rw [hf', hf, List.append_assoc], ?_⟩
  rw [countersOf_append, hp, hp', hq, deedsOf_append, List.map_append]

end Browse

theorem PartitionScan.step_ends {s : PartitionScan} (h : (s.step v).Ends path (progress, s')) :
    countersOf path = [] ∧
      ∀ e, progress.yielded = some (.error e) → ∃ p source, e = .partition p source := by
  have htakes : (s.step v).Takes Action.Uncounted := step_takes fun _ => rfl
  refine ⟨htakes.countersOf h, fun e he => ?_⟩
  have hdeliver {s : PartitionScan} {result : Except Error Item} {path : List Exchange}
      (hresult : ∀ e, result = .error e → ∃ p source, e = .partition p source)
      (h : (pure (s.deliver result) : Operation _).Ends path (progress, s')) :
      ∃ p source, e = .partition p source := by
    obtain ⟨-, hd⟩ := h.of_done
    unfold deliver at hd
    split at hd
    · cases hd
      cases he
    · cases hd
      exact hresult e (Option.some.inj he)
  obtain ⟨_, _, s, rfl, -, h⟩ := h.of_bind
  obtain ⟨p, rows, waiting, failed⟩ := s
  rcases waiting with _ | ⟨e' | x, waiting⟩
  · obtain ⟨-, hd⟩ := h.of_done
    cases hd
    cases he
  · exact hdeliver (fun _ he => ⟨_, _, (Except.error.inj he).symm⟩) h
  · obtain ⟨_, _, reply, rfl, -, h⟩ := h.of_bind
    rcases reply with e' | _ | _
    · exact hdeliver (fun _ he => ⟨_, _, (Except.error.inj he).symm⟩) h
    · exact hdeliver (fun _ he => by cases he) h
    · obtain ⟨-, hd⟩ := h.of_done
      cases hd
      cases he

namespace Browse

variable {v : View} {b b' : Browse} {path : List Exchange} {yielded : Option (Except Error Item)}

theorem deliver_accounted (h : (deliver v b result).Ends path (progress, b'))
    (hresult : ∀ e, result = .error e → ∃ p source, e = .partition p source) :
    Accounted v b path progress.yielded b' := by
  have hwarned {message : String} {fields : List (String × Field)} {path : List Exchange}
      {value : Unit} (h : (Operation.inSpan "view.browse"
        (Operation.event .warn message fields)).Ends path value) : countersOf path = [] := by
    obtain ⟨_, hevent, hsame⟩ := Operation.countersOf_inSpan h
    obtain rfl := hevent.of_perform
    exact hsame
  unfold deliver at h
  split at h
  · obtain ⟨rfl, he⟩ := h.of_done
    cases he
    exact .nothing rfl rfl rfl
  cases result with
  | ok x =>
    obtain ⟨_, _, _, rfl, hcount, h⟩ := h.of_bind
    obtain ⟨rfl, he⟩ := h.of_done
    cases he
    refine ⟨rfl, [], (List.append_nil _).symm, ?_⟩
    rw [List.append_nil, Operation.countersOf_count hcount rfl]
    rfl
  | error e =>
    obtain ⟨p, source, rfl⟩ := hresult e rfl
    cases hp : v.failurePolicy with
    | failFast =>
      simp only [hp] at h
      obtain ⟨_, _, _, rfl, hwarn, h⟩ := h.of_bind
      obtain ⟨_, _, _, rfl, hcount, h⟩ := h.of_bind
      obtain ⟨rfl, he⟩ := h.of_done
      cases he
      refine ⟨rfl, [], (List.append_nil _).symm, ?_⟩
      rw [countersOf_append, hwarned hwarn, List.append_nil, Operation.countersOf_count hcount rfl]
      simp [deedsOf, Progress.yielded, hp, Deed.counter]
    | skipAndContinue =>
      simp only [hp] at h
      obtain ⟨_, _, _, rfl, hwarn, h⟩ := h.of_bind
      obtain ⟨_, _, _, rfl, hcount, h⟩ := h.of_bind
      obtain ⟨rfl, he⟩ := h.of_done
      cases he
      refine ⟨rfl, [⟨p, source⟩], rfl, ?_⟩
      rw [countersOf_append, hwarned hwarn, List.append_nil, Operation.countersOf_count hcount rfl]
      simp [deedsOf, Progress.yielded, hp, Deed.counter]

theorem step_accounted (h : (b.step v).Ends path (progress, b')) :
    Accounted v b path progress.yielded b' := by
  obtain ⟨q, cursor, drawn, reading, stopped, failures⟩ := b
  cases reading with
  | some s =>
    obtain ⟨_, _, ⟨scanned, s'⟩, rfl, hscan, h⟩ := h.of_bind
    obtain ⟨hnone, hresult⟩ := PartitionScan.step_ends hscan
    cases scanned with
    | yield result =>
      have hdeliver := deliver_accounted h fun e he => hresult e (congrArg some he)
      obtain ⟨hq, aside, hf, hp⟩ := hdeliver
      exact ⟨hq, aside, hf, by rw [countersOf_append, hnone, hp]; rfl⟩
    | working | ended =>
      obtain ⟨rfl, he⟩ := h.of_done
      cases he
      exact .nothing rfl rfl (by rw [List.append_nil, hnone])
  | none =>
    obtain ⟨_, _, ⟨fresh, cursor'⟩, rfl, hdraw, h⟩ := h.of_bind
    have hdrawn := (draw_takes (P := Action.Uncounted) rfl).countersOf hdraw
    dsimp only at h
    split at h
    · obtain ⟨rfl, he⟩ := h.of_done
      cases he
      exact .nothing rfl rfl (by rw [List.append_nil, hdrawn])
    · obtain ⟨_, _, s, rfl, hstart, h⟩ := h.of_bind
      have hstarted : countersOf _ = [] :=
        (PartitionScan.start_takes (P := Action.Uncounted) fun _ => rfl).countersOf hstart
      obtain ⟨rfl, he⟩ := h.of_done
      cases he
      refine .nothing rfl rfl ?_
      rw [List.append_nil, countersOf_append, hdrawn, hstarted]
      rfl

theorem advance_accounted (h : (b.advance v steps).Ends path (yielded, b')) :
    Accounted v b path yielded b' := by
  induction steps generalizing b path with
  | zero =>
    obtain ⟨rfl, he⟩ := h.of_done
    cases he
    exact .nothing rfl rfl rfl
  | succ steps ih =>
    obtain ⟨_, _, ⟨progress, b₁⟩, rfl, hstep, h⟩ := h.of_bind
    have hfirst := step_accounted hstep
    cases progress with
    | working => exact hfirst.trans (ih h)
    | yield result =>
      obtain ⟨rfl, he⟩ := h.of_done
      cases he
      rw [List.append_nil]
      exact hfirst
    | ended =>
      obtain ⟨rfl, he⟩ := h.of_done
      cases he
      rw [List.append_nil]
      exact hfirst

theorem pull_accounted (h : (b.pull v).Ends path (yielded, b')) :
    Accounted v b path yielded b' := advance_accounted h

-- ---------------------------------------------------------------------------
-- Pulls, one after the other
-- ---------------------------------------------------------------------------

def PullDeeds (v : View) (b : Browse) (path : List Exchange) (yielded : Option (Except Error Item))
    (b' : Browse) (deeds : List Deed) : Prop :=
  (b.pull v).Ends path (yielded, b') ∧
    ∃ aside, b'.failures = b.failures ++ aside ∧ deeds = deedsOf v b.queue aside yielded

theorem pullDeeds_of_ends (h : (b.pull v).Ends path (yielded, b')) :
    ∃ deeds, PullDeeds v b path yielded b' deeds := by
  obtain ⟨-, aside, hf, -⟩ := pull_accounted h
  exact ⟨_, h, aside, hf, rfl⟩

theorem PullDeeds.counters (h : PullDeeds v b path yielded b' deeds) :
    countersOf path = deeds.map Deed.counter := by
  obtain ⟨hends, aside, hf, rfl⟩ := h
  obtain ⟨-, aside', hf', hp⟩ := pull_accounted hends
  obtain rfl : aside' = aside := List.append_cancel_left (hf'.symm.trans hf)
  exact hp

/-- Pulls from a browse until it is enough, with what is done about each item, and their deeds. -/
inductive WalkDeeds (v : View) (handle : Item → List Exchange → List Deed → Prop) :
    Browse → List Exchange → List Deed → Prop
  | enough (b : Browse) : WalkDeeds v handle b [] []
  | ended {b b' : Browse} {path : List Exchange} {yielded : Option (Except Error Item)}
    {deeds : List Deed} (h : PullDeeds v b path yielded b' deeds)
    (hended : ∀ x, yielded ≠ some (.ok x)) : WalkDeeds v handle b path deeds
  | item {b b' : Browse} {x : Item} {before middle after : List Exchange}
    {deeds deeds' deeds'' : List Deed} (h : PullDeeds v b before (some (.ok x)) b' deeds)
    (hx : handle x middle deeds') (hrest : WalkDeeds v handle b' after deeds'') :
    WalkDeeds v handle b (before ++ (middle ++ after)) (deeds ++ (deeds' ++ deeds''))

theorem WalkDeeds.counters {handle : Item → List Exchange → List Deed → Prop}
    (h : WalkDeeds v handle b path deeds)
    (hhandle : ∀ x path deeds, handle x path deeds → countersOf path = deeds.map Deed.counter) :
    countersOf path = deeds.map Deed.counter := by
  induction h with
  | enough b => rfl
  | ended h _ => exact h.counters
  | item h hx _ ih =>
    rw [countersOf_append, countersOf_append, h.counters, hhandle _ _ _ hx, ih]
    simp

end Browse

end SpoolIndex
