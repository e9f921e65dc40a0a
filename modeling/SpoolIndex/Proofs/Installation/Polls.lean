import SpoolIndex.Proofs.Browse.Listing
import SpoolIndex.Proofs.Installation.Runs

/-!
# Browsing a queue while it changes

A browse is polled to its end while requests, of whatever views, are carried out
between the polls. It yields each item that is there all the while, once and in
order, and none that was deleted before it was opened (`Browse.polls_find`). It
reads rows and tombstones only, so a browse start that moves meanwhile makes no
difference to it (`Installation.run_pull_advanced`).
-/

namespace SpoolIndex

/-- A browse is polled to its end, and `turns n` happens before the `n`-th poll. It comes with the
installations that the polls met, what they gave, and the installation in the end. -/
inductive Polls (v : View) (seat : Seat) : (Nat → List Happening) → Browse → Installation →
    List Installation → List (Except Error Item) → Installation → Prop
  | last {turns : Nat → List Happening} {b b' : Browse} {w w' : Installation}
    (h : (w.through (turns 0)).run seat (b.pull v) = ((none, b'), w')) :
    Polls v seat turns b w [w.through (turns 0)] [] w'
  | next {turns : Nat → List Happening} {b b' : Browse} {w w₁ w' : Installation}
    {met : List Installation} {result : Except Error Item} {results : List (Except Error Item)}
    (h : (w.through (turns 0)).run seat (b.pull v) = ((some result, b'), w₁))
    (hs : Polls v seat (fun n => turns (n + 1)) b' w₁ met results w') :
    Polls v seat turns b w (w.through (turns 0) :: met) (result :: results) w'

/-- An item that is stored in `s`, is due by the clock at every poll, and has no tombstone even in
`s'`. -/
structure Stays (v : View) (seat : Seat) (q : QueueName) (s : Store) (met : List Installation)
    (s' : Store) (x : Item) : Prop where
  stored : x ∈ s.items x.partition
  queue : x.queue = q
  bucket : x.bucket.id < v.allocator.bucketCount
  timely : ∀ w ∈ met, x.slice ≤ v.allocator.sliceOf (w.now seat.clock)
  live : x.key ∉ s'.tombstones q

section
variable {v : View} {seat : Seat} {q : QueueName} {w : Installation} {s s' : Store}
  {calls : List StoreCall} {b : Browse}

theorem Stays.grows (h : Stays v seat q s met s' x) (hg : s.Grows s₁) :
    Stays v seat q s₁ met s' x :=
  ⟨hg.items _ x h.stored, h.queue, h.bucket, h.timely, h.live⟩

theorem Stays.tail (h : Stays v seat q s (w :: met) s' x) : Stays v seat q s met s' x :=
  ⟨h.stored, h.queue, h.bucket, fun w hw => h.timely w (List.mem_cons_of_mem _ hw), h.live⟩

theorem Stays.sought (h : Stays v seat q s (w :: met) s' x) (hg : s₁.Grows s') :
    Browse.Sought (.alone I (w.now seat.clock)) v q s s₁ x := by
  refine ⟨h.stored, h.queue, h.bucket, ?_, fun ht => h.live (hg.tombstones _ _ ht)⟩
  rintro t rfl
  exact h.timely w List.mem_cons_self

-- ---------------------------------------------------------------------------
-- The polls
-- ---------------------------------------------------------------------------

theorem Browse.run_pull (seat : Seat) (hl : 0 < v.pageSize) (hfan : 0 < v.fanOut)
    (hw : w.Stores s calls) (hs : s.Proper) (hb : b.From v q (fun _ => True) s low) :
    ∃ new, (w.run seat (b.pull v)).2.Stores (s.after new) (new ++ calls) ∧
      Browse.Pulled (.alone Store.Proper (w.now seat.clock)) v q (fun _ => True) s low b
        (w.run seat (b.pull v)).1 (s.after new) := by
  have hk : (Contract.alone Store.Proper (w.now seat.clock)).AllowsReads :=
    Contract.alone_allowsReads fun _ h => h
  have hkeeps := Browse.pull_keeps hk hl hfan (fun _ _ _ _ => trivial) hb
  obtain ⟨new, hs', -, -, hp⟩ := Installation.run_keeps seat hw hs hkeeps
  exact ⟨new, hs', hp⟩

/-- Polls come to an end, whatever happens in between. -/
theorem Browse.polls_from (hl : 0 < v.pageSize) (hfan : 0 < v.fanOut)
    (turns : Nat → List Happening) (hw : w.Stores s calls) (hs : s.Proper)
    (hb : b.From v q (fun _ => True) s low) (hsteps : v.places * Partition.span < low + steps) :
    ∃ met items w' s' calls', Polls v seat turns b w met (items.map .ok) w' ∧
      w'.Stores s' calls' ∧ s.Grows s' ∧
      Listing v q (fun _ => True) s s' low b (Stays v seat q s met s') items := by
  induction steps generalizing turns w s calls b low with
  | zero => exact absurd hb.bound (Nat.not_le.mpr hsteps)
  | succ steps ih =>
    obtain ⟨others, hw₁⟩ := Installation.through_stores hw (turns 0)
    have hg₁ := s.grows_after others
    obtain ⟨new, hw₂, hp⟩ := Browse.run_pull seat hl hfan hw₁ (hg₁.proper hs) (hb.grows hg₁)
    have hg₂ := (s.after others).grows_after new
    have hs₂ := hg₂.proper (hg₁.proper hs)
    cases hrun : (w.through (turns 0)).run seat (b.pull v) with | mk result w₂
    rw [hrun] at hw₂ hp
    obtain ⟨_ | e | x, b'⟩ := result
    · refine ⟨_, [], w₂, _, _, .last hrun, hw₂, hg₁.trans hg₂, ?_⟩
      exact .nil hp fun x hx => (hx.grows hg₁).sought (.refl _)
    · exact hp.elim
    · have hlow := hp.low_le
      obtain ⟨met, items, w', s', calls', hpolls, hw', hg', hlist⟩ :=
        ih (fun n => turns (n + 1)) hw₂ hs₂ hp.rest (by omega)
      have hg := hg₁.trans hg₂
      have hstays (y : Item) (hy : Stays v seat q s (w.through (turns 0) :: met) s' y) :
          Stays v seat q _ met s' y := (hy.grows hg).tail
      refine ⟨_, x :: items, w', s', calls', .next hrun hpolls, hw', hg.trans hg', ?_⟩
      exact (hlist.mono hstays).cons hp hs₂ hg₁ hg₂ hg' fun y hy => (hy.grows hg₁).sought hg'

end

-- ---------------------------------------------------------------------------
-- What a browse does not look at
-- ---------------------------------------------------------------------------

def Store.SameRows (s s' : Store) : Prop := s'.items = s.items ∧ s'.tombstones = s.tombstones

theorem Store.SameRows.lookup {s s' : Store} (h : s.SameRows s') (hc : c.IsLookup) :
    (s'.perform c).1 = (s.perform c).1 := by
  obtain ⟨hi, ht⟩ := h
  cases c with
  | scanItems p after limit => simp only [Store.perform, hi]
  | hasTombstone q key => simp only [Store.perform, ht]
  | _ => exact hc.elim

theorem Store.sameRows_swapStart (s : Store) (q : QueueName) (condition : SwapCondition)
    (slice : Slice) : s.SameRows (s.perform (.swapStart q condition slice)).2 := by
  simp only [Store.perform]
  split <;> exact ⟨rfl, rfl⟩

namespace Installation

section
variable {seat : Seat} {w w' : Installation}

/-- Installations that a browse from the seat cannot tell apart. -/
structure Alike (seat : Seat) (w w' : Installation) : Prop where
  now : w'.now seat.clock = w.now seat.clock
  rows : ∃ s calls s' calls', w.Stores s calls ∧ w'.Stores s' calls' ∧ s.SameRows s'

theorem Alike.answer {action : Action} (h : Alike seat w w') (ha : action.IsBrowsing) :
    (answer seat action w').1 = (answer seat action w).1 ∧
      Alike seat (answer seat action w).2 (answer seat action w').2 := by
  obtain ⟨hnow, s, calls, s', calls', hs, hs', hrows⟩ := h
  cases action with
  | store c =>
    rw [answer_store hs, answer_store hs']
    refine ⟨hrows.lookup ha, hnow, _, _, _, _, rfl, rfl, ?_⟩
    rw [StoreCall.IsRead.perform ha.isRead, StoreCall.IsRead.perform ha.isRead]
    exact hrows
  | now => exact ⟨hnow, hnow, s, calls, s', calls', hs, hs', hrows⟩
  | report r => exact ⟨rfl, hnow, s, calls, s', calls', hs, hs', hrows⟩
  | _ => exact ha.elim

theorem Alike.run {op : Operation α} (h : Alike seat w w') (ho : op.Takes Action.IsBrowsing) :
    (w'.run seat op).1 = (w.run seat op).1 := by
  obtain ⟨-, s, calls, s', calls', hs, hs', -⟩ := id h
  rw [run_eq op hs, run_eq op hs']
  clear hs hs'
  induction op generalizing w w' with
  | done value => rfl
  | act action next ih =>
    obtain ⟨hreply, hnext⟩ := h.answer ho.1
    rw [Operation.run_act, Operation.run_act, hreply]
    exact ih _ hnext (ho.2 _)

theorem alike_advanced {s : Store} (u : View) (q : QueueName) (other : Seat)
    (hw : w.Stores s calls) : Alike seat w (w.run other ((Request.advance q).perform u).run).2 := by
  let I := s.SameRows
  have hmaintain (s₁ : Store) : (u.maintain q).run.Keeps (.alone I (w.now other.clock))
      (fun _ _ => True) s₁ := by
    refine View.maintain_calls.keeps ?_
    rintro c s₂ (hr | ⟨_, slice, rfl, -⟩) - ⟨hi, ht⟩
    · rw [hr.perform]
      exact ⟨hi, ht⟩
    · obtain ⟨hi', ht'⟩ := s₂.sameRows_swapStart q .below slice
      exact ⟨hi'.trans hi, ht'.trans ht⟩
  have hkeeps : ((Request.advance q).perform u).run.Keeps (.alone I (w.now other.clock))
      (fun _ _ => True) s := Request.keeps_then (View.advanceBrowseStart_keeps (hmaintain s))
  obtain ⟨new, hs, hclocks, hrows, -⟩ := run_keeps (I := I) other hw ⟨rfl, rfl⟩ hkeeps
  exact ⟨by rw [now, hclocks]; rfl, s, calls, _, _, hw, hs, hrows⟩

/-- An advance of a browse start, of whatever queue and by whatever view, changes neither what the
next poll gives nor the browse after it. -/
theorem run_pull_advanced {s : Store} {v : View} {b : Browse} (u : View) (q : QueueName)
    (other : Seat) (hw : w.Stores s calls) :
    ((w.run other ((Request.advance q).perform u).run).2.run seat (b.pull v)).1 =
      (w.run seat (b.pull v)).1 :=
  (alike_advanced u q other hw).run (Browse.pull_takes Action.browses_isBrowsing)

end

end Installation

-- ---------------------------------------------------------------------------
-- The whole browse
-- ---------------------------------------------------------------------------

section
variable {v : View} {seat : Seat} {q : QueueName} {w : Installation} {s s' : Store}
  {calls : List StoreCall}

theorem Browse.run_ofQueue (seat : Seat) (q : QueueName) (hw : w.Stores s calls) (hs : s.Proper) :
    ∃ w₀ calls₀, w.run seat (Browse.ofQueue q).run = (.ok (opened q (s.start q)), w₀) ∧
      w₀.Stores s calls₀ := by
  obtain ⟨new, hs', -, hsame, hr, -⟩ :=
    Installation.run_keeps seat hw rfl (ofQueue_keeps (Contract.alone_same hs))
  rw [← hsame] at hs' hr
  exact ⟨_, _, Prod.ext hr rfl, hs'⟩

/-- What the items are that a browse opened at store `s` yields until store `s'`. -/
structure Browse.Finds (v : View) (seat : Seat) (q : QueueName) (s : Store)
    (met : List Installation) (items : List Item) (s' : Store) : Prop where
  /-- What stays is found once. -/
  once : ∀ x start, s.start q = some start → start ≤ x.slice → Stays v seat q s met s' x →
    ∃ before after, items = before ++ x :: after ∧ x ∉ before ∧ x ∉ after
  /-- What was deleted before is not found. -/
  live : ∀ x ∈ items, x.queue = q ∧ x.key ∉ s.tombstones q
  sorted : items.Pairwise Item.Precedes

theorem Listing.finds {items : List Item}
    (h : Listing v q T s s' low (Browse.opened q (s.start q)) (Stays v seat q s met s') items) :
    Browse.Finds v seat q s met items s' where
  once x start hstart hle hx := by
    have hmem : x ∈ items := by
      refine h.complete x hx ?_
      rw [hstart]
      exact Browse.ahead_opened v q hle
    obtain ⟨before, after, rfl⟩ := List.append_of_mem hmem
    obtain ⟨-, hafter, hbefore⟩ := List.pairwise_append.mp h.nodup
    refine ⟨before, after, rfl, fun hx => ?_, fun hx => ?_⟩
    · exact hbefore x hx x List.mem_cons_self rfl
    · exact (List.pairwise_cons.mp hafter).1 x hx rfl
  live x hx := ⟨(h.visited x hx).queue, h.live x hx⟩
  sorted := h.precedes

/-- A browse that is polled to its end while anything happens between the polls comes to an end
without an error, and finds what stays, once and in order. An advance of a browse start before a
poll makes no difference to it. -/
theorem Browse.polls_find (seat : Seat) (q : QueueName) (hl : 0 < v.pageSize)
    (hfan : 0 < v.fanOut) (hw : w.Stores s calls) (hs : s.Proper)
    (turns : Nat → List Happening) :
    ∃ b w₀ met items w' s' calls', w.run seat (Browse.ofQueue q).run = (.ok b, w₀) ∧
      Polls v seat turns b w₀ met (items.map .ok) w' ∧ w'.Stores s' calls' ∧
      Browse.Finds v seat q s met items s' ∧
      ∀ (w₁ : Installation) (s₁ : Store) (calls₁ : List StoreCall) (b₁ : Browse) (u : View)
        (other : Seat) (r : QueueName), w₁.Stores s₁ calls₁ →
        ((w₁.run other ((Request.advance r).perform u).run).2.run seat (b₁.pull v)).1 =
          (w₁.run seat (b₁.pull v)).1 := by
  obtain ⟨w₀, calls₀, hrun, hw₀⟩ := Browse.run_ofQueue seat q hw hs
  obtain ⟨met, items, w', s', calls', hpolls, hw', -, hlist⟩ :=
    Browse.polls_from hl hfan turns hw₀ hs (from_opened v q (fun _ => True) s (s.start q))
      (lt_patience v _)
  refine ⟨_, w₀, met, items, w', s', calls', hrun, hpolls, hw', hlist.finds, ?_⟩
  exact fun w₁ s₁ calls₁ b₁ u other r hw₁ => Installation.run_pull_advanced u r other hw₁

end

namespace Sample

def earlyItem : Item := view.itemOf spool mail default .epoch

def installation : Installation := .new (.memory ⟨opened.append earlyItem, [], []⟩) [twoHours]

/-- Before the first poll the browse start moves as far as it may and another mail is recorded;
before the second one all mails are deleted. -/
def turns : Nat → List Happening
  | 0 => [.request view seat (.advance spool),
      .request view seat (.record spool (mail.withKey ⟨1, by decide⟩))]
  | 1 => [.request view seat (.deleteMatching spool (.name "mail"))]
  | _ => []

theorem polls_found : 0 < view.pageSize ∧ 0 < view.fanOut ∧
    installation.Stores (opened.append earlyItem) [] ∧ (opened.append earlyItem).Proper ∧
    ∃ b w₀ met items w' s' calls',
      installation.run seat (Browse.ofQueue spool).run = (.ok b, w₀) ∧
      Polls view seat turns b w₀ met (items.map .ok) w' ∧ w'.Stores s' calls' ∧
      Browse.Finds view seat spool (opened.append earlyItem) met items s' := by
  have hw : installation.Stores (opened.append earlyItem) [] := rfl
  have hs : (opened.append earlyItem).Proper := Store.proper_append opened_proper earlyItem
  have hl : 0 < view.pageSize := by decide
  have hfan : 0 < view.fanOut := by decide
  obtain ⟨b, w₀, met, items, w', s', calls', hrun, hpolls, hw', hfinds, -⟩ :=
    Browse.polls_find (v := view) seat spool hl hfan hw hs turns
  exact ⟨hl, hfan, hw, hs, b, w₀, met, items, w', s', calls', hrun, hpolls, hw', hfinds⟩

end Sample

end SpoolIndex
