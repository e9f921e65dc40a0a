import SpoolIndex.Proofs.Installation.Isolation
import SpoolIndex.Proofs.View.Upkeep
import SpoolIndex.Proofs.View.Writing

/-!
# Deletes and the maintenance after them

A delete goes one of three ways (`View.Deletes`): its tombstone is not written, it is
written and that is all, or maintenance of the queue follows, which may fail or be cut
short at any call. Only in the last case may the browse start of the queue be raised,
and then past no row that is live (`Store.Raised`). The deletes of a sequence that
succeed are counted, and the count decides after which of them maintenance is due
(`View.deletes_scheduled`).
-/

namespace SpoolIndex

structure Deletion where
  queue : QueueName
  key : Key
  slice : Slice

namespace View

def erase (v : View) (d : Deletion) : Attempt Unit := v.delete d.queue d.key d.slice

def eraseEach (v : View) : List Deletion → Operation (List (Except Error Unit))
  | [] => return []
  | d :: later => do
    let result ← (v.erase d).run
    return result :: (← eraseEach v later)

def MaintainsAfter (v : View) (n : Nat) : Prop :=
  match v.advancePolicy with
  | .manual => False
  | .eager => True
  | .everyNth k => max 1 k.toNat ∣ n

def countsDeletes (v : View) : Bool :=
  match v.advancePolicy with
  | .everyNth _ => true
  | _ => false

def Maintained (v : View) (q : QueueName) (path : List Exchange) : Prop :=
  ∃ before middle after result, path = before ++ middle ++ after ∧
    (v.advanceBrowseStart q).run.Ends middle result

end View

/-- The browse start of the queue is raised, past no row in the buckets of the view that has no
tombstone. -/
def Store.Raised (v : View) (q : QueueName) (s s' : Store) : Prop :=
  ∃ old new, s.start q = some old ∧ old < new ∧ s' = s.setStart q new ∧
    ∀ p, p.queue = q → p.bucket.id < v.allocator.bucketCount → old ≤ p.slice → p.slice < new →
      ∀ x ∈ s.items p, x.key ∈ s.tombstones q

-- ---------------------------------------------------------------------------
-- Maintenance on a store whose calls may fail
-- ---------------------------------------------------------------------------

section
variable {v : View} {q : QueueName} {s s' : Store} {path : List Exchange}

theorem Store.Advances.raised (h : s.Advances v q s') (hs : s.Proper) :
    s' = s ∨ s.Raised v q s' := by
  refine h.imp_right ?_
  rintro ⟨start, target, hstart, hlt, rfl, hadmits⟩
  refine ⟨start, target, hstart, hlt, rfl, ?_⟩
  rintro p rfl hb hlow hhigh x hx
  have hguards : s.Guards p x.key := ⟨hs, ⟨x, hx, rfl⟩, .inr ⟨start, hstart, hlow⟩⟩
  obtain hburied | hle := hadmits p x.key rfl hb hguards
  · exact hburied
  · exact absurd hle (Slice.not_le.mpr hhigh)

-- ---------------------------------------------------------------------------
-- What happens once in a delete
-- ---------------------------------------------------------------------------

/-- What neither writes a tombstone nor counts a delete nor begins maintenance. -/
def Action.Incidental : Action → Prop
  | .store (.putTombstone ..) | .countDelete => False
  | .report (.span name _) => name ≠ "view.maintenance"
  | _ => True

namespace View

theorem maintenanceIsDue_ends (he : v.maintenanceIsDue.Ends asked due) :
    (v.countsDeletes ∧ ∃ n, asked = [⟨.countDelete, n⟩] ∧ (due = true ↔ v.MaintainsAfter n)) ∨
      ¬v.countsDeletes ∧ asked = [] ∧ ∀ n, due = true ↔ v.MaintainsAfter n := by
  cases hpolicy : v.advancePolicy with
  | manual =>
    simp only [maintenanceIsDue, hpolicy] at he
    obtain ⟨rfl, rfl⟩ := he.of_done
    simp [countsDeletes, MaintainsAfter, hpolicy]
  | eager =>
    simp only [maintenanceIsDue, hpolicy] at he
    obtain ⟨rfl, rfl⟩ := he.of_done
    simp [countsDeletes, MaintainsAfter, hpolicy]
  | everyNth k =>
    simp only [maintenanceIsDue, hpolicy] at he
    obtain ⟨_, _, n, rfl, hcount, hdone⟩ := he.of_bind
    obtain rfl := hcount.of_perform
    obtain ⟨rfl, rfl⟩ := hdone.of_done
    refine .inl ⟨by simp [countsDeletes, hpolicy], n, rfl, ?_⟩
    simp [MaintainsAfter, hpolicy, Nat.dvd_iff_mod_eq_zero]

theorem reportMaintenance_takes : (reportMaintenance result).Takes Action.Incidental := by
  rcases result with e | ⟨_ | _, source, target⟩
  · trivial
  · refine (Operation.takes_perform trivial).bind fun _ => ?_
    refine (Operation.takes_perform trivial).bind fun _ => ?_
    refine Operation.Takes.bind ?_ fun _ => trivial
    exact (Operation.takes_perform trivial).bind fun _ =>
      (Operation.takes_perform trivial).bind fun _ =>
        (Operation.takes_perform trivial).bind fun _ => trivial
  · trivial

theorem advanceBrowseStart_incidental (he : (v.advanceBrowseStart q).run.Ends path result) :
    ∃ rest, path = ⟨.report (.span "view.maintenance" [("view.queue", .text q.text)]), ()⟩ :: rest ∧
      ∀ x ∈ rest, x.action.Incidental := by
  obtain ⟨middle, m, told, outcome, rfl, hmaintain, htold, -⟩ := advanceBrowseStart_ends he
  have hmiddle : ∀ x ∈ middle, x.action.Incidental := by
    refine (maintain_takes.mono fun action ha => ?_).ends hmaintain
    cases action with
    | store c =>
      obtain hread | ⟨_, _, rfl, -⟩ := ha
      · cases c <;> trivial
      · trivial
    | report r => cases r <;> trivial
    | _ => trivial
  refine ⟨_, rfl, List.forall_mem_cons.mpr ⟨trivial, List.forall_mem_append.mpr ⟨hmiddle, ?_⟩⟩⟩
  refine List.forall_mem_cons.mpr ⟨trivial, List.forall_mem_append.mpr ⟨?_, ?_⟩⟩
  · exact reportMaintenance_takes.ends htold
  · exact List.forall_mem_singleton.mpr trivial

theorem warned_incidental (outcome : Except Error Advance) :
    ∀ x ∈ warned outcome, x.action.Incidental := by
  cases outcome <;> simp [warned, Action.Incidental]

end View

-- ---------------------------------------------------------------------------
-- What a delete comes to
-- ---------------------------------------------------------------------------

def talliesOf (path : List Exchange) : List Nat :=
  path.filterMap fun
    | ⟨.countDelete, n⟩ => some n
    | _ => none

theorem talliesOf_append (path path' : List Exchange) :
    talliesOf (path ++ path') = talliesOf path ++ talliesOf path' := List.filterMap_append

theorem talliesOf_eq_nil (h : ∀ x ∈ path, x.action ≠ .countDelete) : talliesOf path = [] := by
  refine List.filterMap_eq_nil_iff.mpr ?_
  rintro ⟨action, reply⟩ hx
  cases action with
  | countDelete => exact absurd rfl (h _ hx)
  | _ => rfl

namespace View

theorem Follows.of_mem (h : v.Follows q due rest) (hx : x ∈ rest) : x.action.Incidental ∨
    due = true ∧ x.action = .report (.span "view.maintenance" [("view.queue", .text q.text)]) := by
  cases h with
  | skipped => cases hx
  | @maintained middle outcome hmiddle =>
    obtain ⟨rest, rfl, hrest⟩ := advanceBrowseStart_incidental hmiddle
    simp only [List.mem_append, List.mem_cons] at hx
    obtain rfl | (rfl | hx) | rfl | hx := hx
    · exact .inl trivial
    · exact .inr ⟨rfl, rfl⟩
    · exact .inl (hrest x hx)
    · exact .inl trivial
    · exact .inl (warned_incidental outcome x hx)

theorem Maintained.begins (h : v.Maintained q path) :
    ⟨.report (.span "view.maintenance" [("view.queue", .text q.text)]), ()⟩ ∈ path := by
  obtain ⟨before, middle, after, _, rfl, hmiddle⟩ := h
  obtain ⟨rest, rfl, -⟩ := advanceBrowseStart_incidental hmiddle
  simp

/-- A delete succeeds or fails with the write of its tombstone, which it makes once. -/
theorem Deletes.error_iff (h : v.Deletes q key slice path result) (e : Error) :
    result = .error e ↔ ⟨.store (.putTombstone q key), .error e⟩ ∈ path := by
  cases h with
  | failed e' => simp [buried, counted, eq_comm]
  | @written asked rest _ hasked hrest =>
    have hcounts : ⟨.store (.putTombstone q key), .error e⟩ ∉ asked := by
      intro hx
      cases maintenanceIsDue_takes.ends hasked _ hx
    have hfollows : ⟨.store (.putTombstone q key), .error e⟩ ∉ rest := by
      intro hx
      obtain hx | ⟨-, hx⟩ := hrest.of_mem hx
      · exact hx
      · cases hx
    simp [buried, counted, hcounts, hfollows]

/-- A delete that fails leaves the store alone, and one that succeeds writes its tombstone and at
most raises the browse start of its queue. -/
theorem Deletes.leaves (h : v.Deletes q key slice path result) (hl : 0 < v.pageSize) (hs : s.Proper)
    (hu : s.Undergoes Store.Tries path s') :
    (result = .ok () ∧ (s' = s.bury q key ∨ (s.bury q key).Raised v q s')) ∨
      (result ≠ .ok () ∧ s' = s) := by
  have hput {written : Except Error Unit} {s' : Store}
      (h : s.Undergoes Store.Tries (buried q key slice written) s') :
      s.Tries (.store (.putTombstone q key)) written s' :=
    undergoes_buried (fun _ _ _ _ h => Store.Suffers.of_report (.tries h)) h
  cases h with
  | failed e =>
    cases hput hu with
    | fails => exact .inr ⟨nofun, rfl⟩
    | answers h => exact nomatch h.store_eq.1
  | written hasked hrest =>
    obtain ⟨s₁, hbury, hu⟩ := Store.undergoes_append.mp hu
    obtain ⟨s₂, hasking, hu⟩ := Store.undergoes_append.mp hu
    obtain rfl : s₁ = s.bury q key := (Store.Suffers.of_ok (.tries (hput hbury))).2
    obtain rfl := hasking.unchanged (Operation.Calls.readsOnly maintenanceIsDue_calls hasked)
    have hadvances := hrest.advances hl (hu.mono fun _ _ _ _ h => .tries h)
    exact .inl ⟨rfl, hadvances.raised ((s.grows_bury q key).proper hs)⟩

theorem Follows.tallies (h : v.Follows q due path) : talliesOf path = [] :=
  talliesOf_eq_nil fun x hx hc => by
    obtain hincidental | ⟨-, hbegins⟩ := h.of_mem hx
    · rw [hc] at hincidental
      exact hincidental
    · rw [hc] at hbegins
      cases hbegins

theorem tallies_buried (q : QueueName) (key : Key) (slice : Slice) (written : Except Error Unit) :
    talliesOf (buried q key slice written) = [] := by
  cases written <;> rfl

theorem not_begins_buried {written : Except Error Unit} (q' : QueueName) :
    ⟨.report (.span "view.maintenance" [("view.queue", .text q'.text)]), ()⟩ ∉
      buried q key slice written := by
  cases written <;> simp [buried, counted]

theorem Deletes.schedule (h : v.Deletes q key slice path result) :
    (result ≠ .ok () ∧ talliesOf path = [] ∧ ∀ q', ¬v.Maintained q' path) ∨
      result = .ok () ∧ ∃ asked due, v.maintenanceIsDue.Ends asked due ∧
        talliesOf path = talliesOf asked ∧ ∀ q', v.Maintained q' path ↔ q' = q ∧ due = true := by
  cases h with
  | failed e =>
    exact .inl ⟨nofun, tallies_buried .., fun q' hmaintained =>
      not_begins_buried q' hmaintained.begins⟩
  | @written asked rest due hasked hrest =>
    refine .inr ⟨rfl, asked, due, hasked, ?_, fun q' => ⟨fun hmaintained => ?_, ?_⟩⟩
    · rw [talliesOf_append, talliesOf_append, tallies_buried, hrest.tallies, List.nil_append,
        List.append_nil]
    · obtain hbegins | hbegins := List.mem_append.mp hmaintained.begins
      · exact absurd hbegins (not_begins_buried q')
      obtain hbegins | hbegins := List.mem_append.mp hbegins
      · exact nomatch maintenanceIsDue_takes.ends hasked _ hbegins
      obtain hincidental | ⟨rfl, hqueue⟩ := hrest.of_mem hbegins
      · exact absurd rfl hincidental
      · cases q
        cases q'
        cases hqueue
        exact ⟨rfl, rfl⟩
    · rintro ⟨rfl, rfl⟩
      cases hrest with
      | @maintained middle outcome hmiddle =>
        exact ⟨buried q' key slice (.ok ()) ++ (asked ++ [⟨.report (.enter "view.delete"), ()⟩]),
          middle, ⟨.report .leave, ()⟩ :: warned outcome, outcome, by simp, hmiddle⟩

end View

end

-- ---------------------------------------------------------------------------
-- Sequences of deletes
-- ---------------------------------------------------------------------------

/-- Only to count a delete changes the count of deletes, which has 64 bits. -/
structure Counts (answer : (action : Action) → σ → action.Reply × σ) (count : σ → Nat) : Prop where
  counted : ∀ w, count w + 1 < 2 ^ 64 →
    (answer .countDelete w).1 = count w + 1 ∧ count (answer .countDelete w).2 = count w + 1
  kept : ∀ action w, action ≠ .countDelete → count (answer action w).2 = count w

section
variable {v : View} {answer : (action : Action) → σ → action.Reply × σ} {store : σ → Store}
  {count : σ → Nat} {w : σ}

theorem Counts.tallies (hc : Counts answer count) (op : Operation α) (w : σ)
    (hfew : count w + (talliesOf (op.transcript answer w)).length < 2 ^ 64) :
    talliesOf (op.transcript answer w) =
        List.range' (count w + 1) (talliesOf (op.transcript answer w)).length ∧
      count (op.run answer w).2 = count w + (talliesOf (op.transcript answer w)).length := by
  induction op generalizing w with
  | done value => exact ⟨rfl, rfl⟩
  | act action next ih =>
    by_cases hcount : action = .countDelete
    · subst hcount
      have hcons : talliesOf ((Operation.act .countDelete next).transcript answer w) =
          (answer .countDelete w).1 :: talliesOf
            ((next (answer .countDelete w).1).transcript answer (answer .countDelete w).2) := rfl
      rw [hcons, List.length_cons] at hfew ⊢
      obtain ⟨hreply, hnext⟩ := hc.counted w (by omega)
      obtain ⟨htallies, hlast⟩ := ih (answer .countDelete w).1 (answer .countDelete w).2
        (by rw [hnext]; omega)
      rw [hnext] at htallies hlast
      refine ⟨?_, ?_⟩
      · rw [List.range'_succ, ← htallies, hreply]
      · rw [Operation.run_act, hlast]
        omega
    · have hcons : talliesOf ((Operation.act action next).transcript answer w) =
          talliesOf ((next (answer action w).1).transcript answer (answer action w).2) := by
        cases action <;> first | exact absurd rfl hcount | rfl
      have hkept := hc.kept action w hcount
      rw [hcons, ← hkept] at hfew ⊢
      exact ih _ _ hfew

namespace View

def deletesCounted (v : View) (results : List (Except Error Unit)) : Nat :=
  if v.countsDeletes then results.countP (·.isOk) else 0

theorem deletesCounted_le (v : View) (results : List (Except Error Unit)) :
    v.deletesCounted results ≤ results.length := by
  unfold deletesCounted
  split
  · exact List.countP_le_length
  · exact Nat.zero_le _

theorem deletesCounted_error (v : View) (h : result ≠ .ok ()) : v.deletesCounted [result] = 0 := by
  cases result with
  | ok => exact absurd rfl h
  | error e => simp [deletesCounted, Except.isOk, Except.toBool]

theorem maintainsAfter_deletesCounted (v : View) (results : List (Except Error Unit)) :
    v.MaintainsAfter (v.deletesCounted results + 1) ↔
      v.MaintainsAfter (results.countP (·.isOk) + 1) := by
  unfold MaintainsAfter deletesCounted countsDeletes
  cases v.advancePolicy <;> rfl

theorem deletesCounted_cons (v : View) (result : Except Error Unit)
    (results : List (Except Error Unit)) : v.deletesCounted (result :: results) =
      v.deletesCounted [result] + v.deletesCounted results := by
  unfold deletesCounted
  split
  · simp [List.countP_cons, Nat.add_comm]
  · rfl

/-- A delete that succeeds is counted, and its number tells whether maintenance is due. -/
theorem erase_schedule (hc : Counts answer count) (d : Deletion) (w : σ)
    (hfew : count w + 1 < 2 ^ 64) :
    let op := (v.erase d).run
    let result := (op.run answer w).1
    count (op.run answer w).2 = count w + v.deletesCounted [result] ∧
      ∀ q, v.Maintained q (op.transcript answer w) ↔
        q = d.queue ∧ result = .ok () ∧ v.MaintainsAfter (count w + 1) := by
  intro op result
  have htallies := hc.tallies op w
  obtain ⟨hresult, hnone, hmaintained⟩ | ⟨hresult, asked, due, hasked, htold, hmaintained⟩ :=
    (deletes_of_ends (op.ends_transcript answer w)).schedule
  · rw [hnone] at htallies
    refine ⟨?_, fun q => ⟨fun h => absurd h (hmaintained q), fun h => absurd h.2.1 hresult⟩⟩
    rw [v.deletesCounted_error hresult]
    exact (htallies (Nat.lt_of_succ_lt hfew)).2
  · have hresult : result = .ok () := hresult
    rw [htold] at htallies
    simp only [hmaintained, hresult, true_and]
    obtain ⟨hcounts, n, rfl, hdue⟩ | ⟨hcounts, rfl, hdue⟩ := maintenanceIsDue_ends hasked
    · obtain ⟨hnumber, hlast⟩ := htallies hfew
      obtain rfl : n = count w + 1 := (List.cons.inj hnumber).1
      have hcounted : v.deletesCounted [.ok ()] = 1 := by
        simp [deletesCounted, hcounts, Except.isOk, Except.toBool]
      rw [hcounted]
      exact ⟨hlast, fun q => and_congr_right' hdue⟩
    · obtain ⟨-, hlast⟩ := htallies (Nat.lt_of_succ_lt hfew)
      have hcounted : v.deletesCounted [.ok ()] = 0 := by simp [deletesCounted, hcounts]
      rw [hcounted]
      exact ⟨hlast, fun q => and_congr_right' (hdue _)⟩

theorem run_eraseEach_cons (d : Deletion) (later : List Deletion) (w : σ) :
    let first := (v.erase d).run.run answer w
    let rest := (v.eraseEach later).run answer first.2
    (v.eraseEach (d :: later)).run answer w = (first.1 :: rest.1, rest.2) := by
  intro first rest
  refine (Operation.run_bind answer _ _ w).trans ?_
  exact Operation.run_bind answer _ _ _

theorem eraseEach_schedule (hc : Counts answer count) (past : List Deletion) (w : σ)
    (hfew : count w + past.length < 2 ^ 64) :
    let ended := (v.eraseEach past).run answer w
    ended.1.length = past.length ∧ count ended.2 = count w + v.deletesCounted ended.1 := by
  induction past generalizing w with
  | nil =>
    refine ⟨rfl, ?_⟩
    unfold deletesCounted
    split <;> rfl
  | cons d later ih =>
    rw [List.length_cons] at hfew
    have hone : v.deletesCounted [((v.erase d).run.run answer w).1] ≤ 1 := v.deletesCounted_le _
    obtain ⟨hfirst, -⟩ := erase_schedule (v := v) hc d w (by omega)
    obtain ⟨hlength, hrest⟩ := ih ((v.erase d).run.run answer w).2 (by omega)
    rw [run_eraseEach_cons]
    dsimp only
    refine ⟨congrArg (· + 1) hlength, ?_⟩
    rw [deletesCounted_cons, hrest, hfirst, Nat.add_assoc]

/-- In a sequence of deletes on a store whose calls may fail without effect, a delete fails if and
only if the write of its tombstone does, and has changed nothing then. One that succeeds writes its
tombstone, and at most raises the browse start of its queue, past no row that is live. It has
maintenance run on its queue, which may fail as it will, if and only if the policy says so for the
number that it has among the deletes that succeed. -/
theorem deletes_scheduled (config : Config)
    (hstore : ∀ action w, (store w).Tries action (answer action w).1 (store (answer action w).2))
    (hcount : Counts answer count) (w : σ) (hs : (store w).Proper) (hfresh : count w = 0)
    (past : List Deletion) (d : Deletion) (hfew : past.length + 1 < 2 ^ 64) :
    let v := View.ofConfig config
    let before := (v.eraseEach past).run answer w
    let op := (v.erase d).run
    let result := (op.run answer before.2).1
    let after := (op.run answer before.2).2
    let path := op.transcript answer before.2
    (∀ e, result = .error e ↔ ⟨.store (.putTombstone d.queue d.key), .error e⟩ ∈ path) ∧
      (result ≠ .ok () → store after = store before.2 ∧ count after = count before.2) ∧
      (result = .ok () → d.key ∈ (store after).tombstones d.queue ∧
        (store after = (store before.2).bury d.queue d.key ∨
          ((store before.2).bury d.queue d.key).Raised v d.queue (store after))) ∧
      ∀ q, v.Maintained q path ↔
        q = d.queue ∧ result = .ok () ∧ v.MaintainsAfter (before.1.countP (·.isOk) + 1) := by
  intro v before op result after path
  have hl : 0 < v.pageSize := View.ofConfig_pageSize_pos config
  have hproper : (store before.2).Proper := by
    have hgrows : (store w).Grows (store before.2) :=
      ((v.eraseEach past).undergoes_transcript w hstore).keeps .refl .trans
        fun _ _ _ _ htries => htries.grows
    exact hgrows.proper hs
  obtain ⟨hlength, hcounted⟩ : before.1.length = past.length ∧
      count before.2 = count w + v.deletesCounted before.1 :=
    eraseEach_schedule hcount past w (by omega)
  rw [hfresh, Nat.zero_add] at hcounted
  have hfew : count before.2 + 1 < 2 ^ 64 := by
    have hle := v.deletesCounted_le before.1
    omega
  obtain ⟨hlast, hmaintained⟩ := erase_schedule (v := v) hcount d before.2 hfew
  have hdeletes : v.Deletes d.queue d.key d.slice path result :=
    deletes_of_ends (op.ends_transcript answer before.2)
  have hleaves := hdeletes.leaves hl hproper (op.undergoes_transcript before.2 hstore)
  refine ⟨hdeletes.error_iff, fun herror => ?_, fun hok => ?_, fun q => ?_⟩
  · obtain ⟨hok, -⟩ | ⟨-, hstore⟩ := hleaves
    · exact absurd hok herror
    · refine ⟨hstore, hlast.trans ?_⟩
      rw [v.deletesCounted_error herror, Nat.add_zero]
  · obtain ⟨-, hstore⟩ | ⟨herror, -⟩ := hleaves
    · refine ⟨?_, hstore⟩
      have hburied : d.key ∈ ((store before.2).bury d.queue d.key).tombstones d.queue :=
        Store.mem_tombstones_bury.mpr (.inl ⟨rfl, rfl⟩)
      obtain hstore | ⟨old, new, -, -, hstore, -⟩ := hstore
      · rw [hstore]
        exact hburied
      · rw [hstore]
        exact hburied
    · exact absurd hok herror
  · rw [← maintainsAfter_deletesCounted, ← hcounted]
    exact hmaintained q

end View

end

namespace Sample

def alternating : Config := { Config.default with advancePolicy := .everyNth 2 }

def unreadableCounting : (action : Action) → Store × Nat → action.Reply × (Store × Nat)
  | .countDelete, (s, n) => (n + 1, s, n + 1)
  | .store c, (s, n) => ((unreadable (.store c) s).1, (unreadable (.store c) s).2, n)
  | action, (s, n) => ((s.answer twoHours action).1, s, n)

theorem unreadableCounting_counts : Counts unreadableCounting Prod.snd where
  counted _ _ := ⟨rfl, rfl⟩
  kept action w h := by
    cases action <;> first | rfl | exact absurd rfl h

theorem unreadable_tries (c : StoreCall) (s : Store) :
    s.Tries (.store c) (unreadable (.store c) s).1 (unreadable (.store c) s).2 := by
  cases c with
  | hasItems p => exact .fails _ _
  | _ => exact .answers (.store _)

theorem unreadableCounting_tries (action : Action) (w : Store × Nat) :
    w.1.Tries action (unreadableCounting action w).1 (unreadableCounting action w).2.1 := by
  cases action with
  | store c => exact unreadable_tries c w.1
  | _ => exact .answers (.other (by rintro _ ⟨⟩) _)

/-- The second delete is followed by maintenance, which fails, and it still succeeds. -/
theorem secondDelete_maintained :
    let v := View.ofConfig alternating
    let letter : Deletion := ⟨letters, .ofNat 1, .clamp 0⟩
    let mail : Deletion := ⟨spool, .ofNat 2, .clamp 7⟩
    let before := (v.eraseEach [letter]).run unreadableCounting (opened, 0)
    let op := (v.erase mail).run
    let result := (op.run unreadableCounting before.2).1
    before.1 = [.ok ()] ∧ result = .ok () ∧
      ∀ q, v.Maintained q (op.transcript unreadableCounting before.2) ↔ q = spool := by
  intro v letter mail before op result
  have hletter : before.1 = [.ok ()] := rfl
  have hok : result.isOk := by decide +kernel
  have hmail : result = .ok () := by
    cases hresult : result with
    | ok => rfl
    | error e =>
      rw [hresult] at hok
      cases hok
  obtain ⟨-, -, -, hmaintained⟩ := View.deletes_scheduled alternating unreadableCounting_tries
    unreadableCounting_counts (opened, 0) opened_proper rfl [letter] mail (by decide)
  have hdue : v.MaintainsAfter (before.1.countP (·.isOk) + 1) := by
    rw [hletter]
    exact ⟨1, rfl⟩
  exact ⟨hletter, hmail, fun q => (hmaintained q).trans
    ⟨fun h => h.1, fun h => ⟨h, hmail, hdue⟩⟩⟩

end Sample

end SpoolIndex
