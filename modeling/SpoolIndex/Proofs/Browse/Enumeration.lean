import SpoolIndex.Proofs.Allocation.Tiling
import SpoolIndex.Proofs.Browse.Deeds
import SpoolIndex.Proofs.Browse.PartialFailure

/-!
# The partitions that a browse draws

A browse draws its partitions one by one, in any number of draws that continue one
another (`Browse.draw_add`, `Browse.Enumerated.advance`). Though slices stop at the
ends of their range and buckets are 32-bit numbers, the cursor moves as numbers
without bounds do (`Browse.draw_exact`), whatever the clock says in between. While
the clock stands still, the draws give the partitions in range and end after the last
of them (`Browse.draw_standing`).
-/

namespace SpoolIndex

def Partition.place (p : Partition) : Int × Nat := (p.slice.index, p.bucket.id.toNat)

theorem Operation.Ends.bind {op : Operation α} {f : α → Operation β} (h : op.Ends path value)
    (hf : (f value).Ends path' value') : (op >>= f).Ends (path ++ path') value' := by
  induction h with
  | done value => exact hf
  | act h ih => exact .act (ih hf)

theorem Operation.Ends.eval_eq {op : Operation α} {reply : (action : Action) → action.Reply}
    (h : op.Ends path value) (hr : ∀ x ∈ path, x.reply = reply x.action) :
    op.eval reply = value := by
  induction h with
  | done value => rfl
  | act h ih =>
    obtain ⟨hfirst, hrest⟩ := List.forall_mem_cons.mp hr
    rw [eval, ← hfirst]
    exact ih hrest

namespace Browse

def place (cursor : Slice × UInt32) : Int × Nat := (cursor.1.index, cursor.2.toNat)

section
variable {v : View} {q : QueueName}

-- ---------------------------------------------------------------------------
-- One draw after the other
-- ---------------------------------------------------------------------------

@[simp] theorem draw_zero (v : View) (q : QueueName) (cursor : Option (Slice × UInt32))
    (found : List Partition) : draw v q 0 cursor found = pure (found.reverse, cursor) := rfl

@[simp] theorem draw_none (v : View) (q : QueueName) (room : Nat) (found : List Partition) :
    draw v q room none found = pure (found.reverse, none) := by
  cases room <;> rfl

theorem draw_succ (v : View) (q : QueueName) (room : Nat) (slice : Slice) (bucket : UInt32)
    (found : List Partition) : draw v q (room + 1) (some (slice, bucket)) found = (do
      let now ← Operation.now
      if v.allocator.sliceOf now < slice then return (found.reverse, none)
      else draw v q room (following v slice bucket) (⟨q, slice, ⟨bucket⟩⟩ :: found)) := rfl

theorem draw_add (v : View) (q : QueueName) (m n : Nat) (cursor : Option (Slice × UInt32))
    (found : List Partition) : draw v q (m + n) cursor found =
      (draw v q m cursor found >>= fun drawn => draw v q n drawn.2 drawn.1.reverse) := by
  induction m generalizing cursor found with
  | zero => simp
  | succ m ih =>
    cases cursor with
    | none => simp
    | some cursor =>
      obtain ⟨slice, bucket⟩ := cursor
      rw [Nat.add_right_comm, draw_succ, draw_succ, bind_assoc]
      congr 1
      funext now
      split
      · simp
      · exact ih _ _

theorem draw_found (v : View) (q : QueueName) (room : Nat) (cursor : Option (Slice × UInt32))
    (found : List Partition) : draw v q room cursor found =
      (draw v q room cursor [] >>= fun drawn => pure (found.reverse ++ drawn.1, drawn.2)) := by
  induction room generalizing cursor found with
  | zero => simp
  | succ room ih =>
    cases cursor with
    | none => simp
    | some cursor =>
      obtain ⟨slice, bucket⟩ := cursor
      rw [draw_succ, draw_succ, bind_assoc]
      congr 1
      funext now
      split
      · simp
      · rw [ih, ih _ [_], bind_assoc]
        simp

-- ---------------------------------------------------------------------------
-- Numbers without bounds
-- ---------------------------------------------------------------------------

/-- As `draw`, with slices and buckets that are numbers without bounds. -/
def drawExactly (v : View) : (room : Nat) → Option (Int × Nat) → List (Int × Nat) →
    Operation (List (Int × Nat) × Option (Int × Nat))
  | 0, cursor, drawn => return (drawn.reverse, cursor)
  | _, none, drawn => return (drawn.reverse, none)
  | room + 1, some (slice, bucket), drawn => do
    let now ← Operation.now
    if now.millis / v.allocator.window < slice then return (drawn.reverse, none)
    else
      let next := if bucket + 1 < v.allocator.bucketCount.toNat then (slice, bucket + 1)
        else (slice + 1, 0)
      drawExactly v room (some next) ((slice, bucket) :: drawn)

theorem lt_max_of_le_sliceOf {slice : Slice} {t : Instant} (h : slice ≤ v.allocator.sliceOf t) :
    slice < Slice.max :=
  Int.lt_of_le_of_lt h (v.allocator.sliceOf_lt_max t)

theorem place_following {slice : Slice} (h : slice < Slice.max) (bucket : UInt32) :
    (following v slice bucket).map place =
      some (if bucket.toNat + 1 < v.allocator.bucketCount.toNat then (slice.index, bucket.toNat + 1)
        else (slice.index + 1, 0)) := by
  have hcount := v.allocator.bucketCount.toNat_lt
  unfold following
  split
  · have hnext : (bucket + 1).toNat = bucket.toNat + 1 := by
      rw [UInt32.toNat_add, UInt32.toNat_one]
      omega
    simp [place, hnext]
  · simp [place, Slice.index_next h]

theorem draw_exact (v : View) (q : QueueName) (room : Nat) (cursor : Option (Slice × UInt32))
    (found : List Partition) :
    (draw v q room cursor found >>= fun drawn =>
      pure (drawn.1.map Partition.place, drawn.2.map place)) =
      drawExactly v room (cursor.map place) (found.map Partition.place) := by
  induction room generalizing cursor found with
  | zero => simp [drawExactly]
  | succ room ih =>
    cases cursor with
    | none => simp [drawExactly]
    | some cursor =>
      obtain ⟨slice, bucket⟩ := cursor
      rw [draw_succ, bind_assoc, Option.map_some, place, drawExactly]
      congr 1
      funext now
      have hbeyond : v.allocator.sliceOf now < slice ↔ now.millis / v.allocator.window < slice.index
        := by rw [Slice.lt_def, Allocator.index_sliceOf]
      by_cases hlt : v.allocator.sliceOf now < slice
      · rw [if_pos hlt, if_pos (hbeyond.mp hlt)]
        simp
      · rw [if_neg hlt, if_neg (mt hbeyond.mpr hlt), ih,
          place_following (lt_max_of_le_sliceOf (Slice.not_lt.mp hlt))]
        rfl

-- ---------------------------------------------------------------------------
-- Cursors and buckets
-- ---------------------------------------------------------------------------

def CursorWithin (v : View) (cursor : Option (Slice × UInt32)) : Prop :=
  ∀ slice bucket, cursor = some (slice, bucket) → bucket < v.allocator.bucketCount

theorem cursorWithin_first (v : View) (slice : Slice) : CursorWithin v (some (slice, 0)) := by
  intro _ _ h
  cases h
  exact v.allocator.bucketCount_pos

theorem cursorWithin_following (v : View) (slice : Slice) (bucket : UInt32) :
    CursorWithin v (following v slice bucket) := by
  intro slice' bucket' h
  unfold following at h
  split at h
  · rename_i hlt
    cases h
    have hcount := v.allocator.bucketCount.toNat_lt
    rw [UInt32.lt_iff_toNat_lt, UInt32.toNat_add, UInt32.toNat_one]
    omega
  · split at h
    · cases h
      exact v.allocator.bucketCount_pos
    · cases h

theorem draw_within {cursor cursor' : Option (Slice × UInt32)} (hc : CursorWithin v cursor)
    (hf : ∀ p ∈ found, p.bucket.id < v.allocator.bucketCount)
    (h : (draw v q room cursor found).Ends path (ps, cursor')) :
    CursorWithin v cursor' ∧ ∀ p ∈ ps, p.bucket.id < v.allocator.bucketCount := by
  induction room generalizing cursor found path with
  | zero =>
    obtain ⟨-, he⟩ := h.of_done
    cases he
    exact ⟨hc, fun p hp => hf p (List.mem_reverse.mp hp)⟩
  | succ room ih =>
    rcases cursor with _ | ⟨slice, bucket⟩
    · obtain ⟨-, he⟩ := h.of_done
      cases he
      exact ⟨hc, fun p hp => hf p (List.mem_reverse.mp hp)⟩
    · obtain ⟨_, _, now, rfl, -, h⟩ := h.of_bind
      split at h
      · obtain ⟨-, he⟩ := h.of_done
        cases he
        refine ⟨?_, fun p hp => hf p (List.mem_reverse.mp hp)⟩
        intro _ _ h
        cases h
      · refine ih (cursorWithin_following v slice bucket) ?_ h
        exact List.forall_mem_cons.mpr ⟨hc slice bucket rfl, hf⟩

-- ---------------------------------------------------------------------------
-- A clock that stands still
-- ---------------------------------------------------------------------------

theorem following_ne_none_of_begun {slice : Slice} {t : Instant}
    (h : slice ≤ v.allocator.sliceOf t) (bucket : UInt32) : following v slice bucket ≠ none := by
  have hmax : slice < Slice.max := lt_max_of_le_sliceOf h
  simp only [following, hmax, ↓reduceIte]
  split <;> exact Option.some_ne_none _

/-- A draw takes the partitions that are to come, and finds the end behind the last of them. -/
theorem draw_comes_take {reply : (action : Action) → action.Reply}
    {cursor : Option (Slice × UInt32)} {ps : List Partition} (hc : cursor ≠ none)
    (h : Comes v q (v.allocator.sliceOf (reply .now)) cursor ps) (room : Nat)
    (found : List Partition) :
    ∃ cursor', (draw v q room cursor found).eval reply =
        (found.reverse ++ ps.take room, cursor') ∧ (cursor' = none ↔ ps.length < room) := by
  induction room generalizing cursor ps found with
  | zero => exact ⟨cursor, by simp, by simp [hc]⟩
  | succ room ih =>
    have hnow : Operation.now.eval reply = reply .now := rfl
    cases h with
    | finished => exact absurd rfl hc
    | @beyond slice bucket hlt =>
      refine ⟨none, ?_, by simp⟩
      rw [draw_succ, Operation.eval_bind, hnow, if_pos hlt]
      simp
    | @visit slice bucket ps hle hrest =>
      have hnext := following_ne_none_of_begun (Slice.not_lt.mp hle) bucket
      obtain ⟨cursor', hdraw, hend⟩ := ih hnext hrest (⟨q, slice, ⟨bucket⟩⟩ :: found)
      refine ⟨cursor', ?_, by simp [hend]⟩
      rw [draw_succ, Operation.eval_bind, hnow, if_neg hle, hdraw]
      simp

theorem length_range (v : View) (q : QueueName) (start last : Slice) :
    (v.range q start last).length =
      (last.index - start.index + 1).toNat * v.allocator.bucketCount.toNat := by
  have hbuckets (slice : Slice) :
      (v.buckets q slice).length = v.allocator.bucketCount.toNat := by simp [View.buckets]
  have hslices : (Slice.upTo start last).length = (last.index - start.index + 1).toNat := by
    simp [Slice.upTo]
  simp only [View.range, List.length_flatMap, hbuckets, List.map_const', List.sum_replicate_nat,
    hslices]

/-- While the clock stands still, the enumeration gives the partitions from the start to now and is
over after the last of them. -/
theorem draw_standing (v : View) (q : QueueName) (start : Slice) (room : Nat)
    (reply : (action : Action) → action.Reply) :
    ∃ cursor : Option (Slice × UInt32),
      let ps := v.range q start (v.allocator.sliceOf (reply .now))
      (draw v q room (some (start, 0)) []).eval reply = (ps.take room, cursor) ∧
        (cursor = none ↔ ps.length < room) :=
  draw_comes_take (Option.some_ne_none _) (comes_range start _) room []

-- ---------------------------------------------------------------------------
-- Whole browses
-- ---------------------------------------------------------------------------

/-- What the browse has drawn and not read yet, and its cursor, are what one enumeration from the
start comes to, by clocks of this kind. -/
def Enumerated (v : View) (start : Slice) (clock : Instant → Prop) (b : Browse) : Prop :=
  ∃ room path visited,
    (draw v b.queue room (some (start, 0)) []).Ends path (visited ++ b.drawn, b.cursor) ∧
      ∀ t : Instant, ⟨.now, t⟩ ∈ path → clock t

variable {b b' : Browse} {start : Slice} {clock : Instant → Prop}

theorem enumerated_startingAt (v : View) (q : QueueName) (start : Slice) (clock : Instant → Prop) :
    Enumerated v start clock (startingAt q start) := by
  refine ⟨0, [], [], .done _, fun t ht => ?_⟩
  cases ht

theorem Enumerated.of_drawn (h : Enumerated v start clock b) (hq : b'.queue = b.queue)
    (hdrawn : b'.drawn <:+ b.drawn) (hcursor : b'.cursor = b.cursor) :
    Enumerated v start clock b' := by
  obtain ⟨room, path, visited, h, hclock⟩ := h
  obtain ⟨read, hread⟩ := hdrawn
  rw [← hq, ← hcursor, ← hread, ← List.append_assoc] at h
  exact ⟨room, path, visited ++ read, h, hclock⟩

theorem Enumerated.draw (h : Enumerated v start clock b)
    (hd : (Browse.draw v b.queue room b.cursor []).Ends path (fresh, cursor'))
    (hpath : ∀ t, ⟨.now, t⟩ ∈ path → clock t) :
    Enumerated v start clock { b with cursor := cursor', drawn := b.drawn ++ fresh } := by
  obtain ⟨room', path', visited, h, hclock⟩ := h
  refine ⟨room' + room, path' ++ path, visited, ?_, ?_⟩
  · rw [draw_add]
    refine h.bind ?_
    rw [draw_found, List.reverse_reverse, ← List.append_nil path, ← List.append_assoc]
    exact hd.bind (.done _)
  · exact fun t ht => (List.mem_append.mp ht).elim (hclock t) (hpath t)

theorem deliver_place (h : (deliver v b result).Ends path (progress, b')) :
    b'.queue = b.queue ∧ b'.drawn = b.drawn ∧ b'.cursor = b.cursor := by
  have hdone {r : Progress (Except Error Item) × Browse} {path : List Exchange}
      (hr : r.2.queue = b.queue ∧ r.2.drawn = b.drawn ∧ r.2.cursor = b.cursor)
      (h : (pure r : Operation _).Ends path (progress, b')) :
      b'.queue = b.queue ∧ b'.drawn = b.drawn ∧ b'.cursor = b.cursor := by
    obtain ⟨-, rfl⟩ := h.of_done
    exact hr
  unfold deliver at h
  split at h
  · exact hdone ⟨rfl, rfl, rfl⟩ h
  split at h
  · obtain ⟨_, _, _, rfl, -, h⟩ := h.of_bind
    exact hdone ⟨rfl, rfl, rfl⟩ h
  · obtain ⟨_, _, _, rfl, -, h⟩ := h.of_bind
    obtain ⟨_, _, _, rfl, -, h⟩ := h.of_bind
    exact hdone ⟨rfl, rfl, rfl⟩ h
  · obtain ⟨_, _, _, rfl, -, h⟩ := h.of_bind
    obtain ⟨_, _, _, rfl, -, h⟩ := h.of_bind
    exact hdone ⟨rfl, rfl, rfl⟩ h
  · exact hdone ⟨rfl, rfl, rfl⟩ h

theorem Enumerated.step (h : Enumerated v start clock b)
    (he : (b.step v).Ends path (progress, b')) (hpath : ∀ t, ⟨.now, t⟩ ∈ path → clock t) :
    Enumerated v start clock b' := by
  obtain ⟨q, cursor, drawn, reading, stopped, failures⟩ := b
  cases reading with
  | some s =>
    obtain ⟨_, _, ⟨scanned, s'⟩, rfl, -, he⟩ := he.of_bind
    cases scanned with
    | yield result =>
      obtain ⟨hq, hdrawn, hcursor⟩ := deliver_place he
      exact h.of_drawn hq (hdrawn ▸ List.suffix_rfl) hcursor
    | working | ended =>
      obtain ⟨-, he⟩ := he.of_done
      cases he
      exact h.of_drawn rfl List.suffix_rfl rfl
  | none =>
    obtain ⟨_, _, ⟨fresh, cursor'⟩, rfl, hdraw, he⟩ := he.of_bind
    have hdrawn := h.draw hdraw fun t ht => hpath t (List.mem_append_left _ ht)
    dsimp only at he
    split at he
    · rename_i hnil
      obtain ⟨-, he⟩ := he.of_done
      cases he
      obtain ⟨rfl, -⟩ := List.append_eq_nil_iff.mp hnil
      exact hdrawn.of_drawn rfl List.nil_suffix rfl
    · rename_i p rest hcons
      obtain ⟨_, _, s, rfl, -, he⟩ := he.of_bind
      obtain ⟨-, he⟩ := he.of_done
      cases he
      exact hdrawn.of_drawn rfl ⟨[p], hcons.symm⟩ rfl

/-- However much is pulled from a browse, it draws its partitions by one enumeration. -/
theorem Enumerated.advance (h : Enumerated v start clock b)
    (he : (b.advance v steps).Ends path (yielded, b'))
    (hpath : ∀ t, ⟨.now, t⟩ ∈ path → clock t) : Enumerated v start clock b' := by
  induction steps generalizing b path with
  | zero =>
    obtain ⟨-, he⟩ := he.of_done
    cases he
    exact h
  | succ steps ih =>
    obtain ⟨_, _, ⟨progress, b₁⟩, rfl, hstep, he⟩ := he.of_bind
    have hnext := h.step hstep fun t ht => hpath t (List.mem_append_left _ ht)
    cases progress with
    | working => exact ih hnext he fun t ht => hpath t (List.mem_append_right _ ht)
    | yield | ended =>
      obtain ⟨-, he⟩ := he.of_done
      cases he
      exact hnext

/-- A browse whose clock stands still has drawn the first partitions that there are from its start
to now, and all of them once its cursor has come to the end. -/
theorem Enumerated.standing (h : Enumerated v start (· = t) b) : ∃ visited,
    visited ++ b.drawn <+: v.range b.queue start (v.allocator.sliceOf t) ∧
      (b.cursor = none → visited ++ b.drawn = v.range b.queue start (v.allocator.sliceOf t)) := by
  obtain ⟨room, path, visited, h, hclock⟩ := h
  have hreply : ∀ x ∈ path, x.reply = (Store.empty.answer t x.action).1 := by
    rintro ⟨action, reply⟩ hx
    obtain rfl : action = .now := (draw_takes (P := (· = .now)) rfl).ends h _ hx
    exact hclock reply hx
  obtain ⟨cursor, hdraw, hend⟩ := draw_standing v b.queue start room
    fun action => (Store.empty.answer t action).1
  rw [h.eval_eq hreply] at hdraw
  obtain ⟨hdrawn, hcursor⟩ := Prod.mk.inj hdraw
  refine ⟨visited, hdrawn ▸ List.take_prefix _ _, fun hnone => ?_⟩
  rw [hdrawn]
  exact List.take_of_length_le (Nat.le_of_lt (hend.mp (hcursor.symm.trans hnone)))

end

end Browse

end SpoolIndex
