import SpoolIndex.Proofs.Browse.ScanCuts

/-!
# Browses that skip what fails

Under skip-and-continue a browse goes on behind a cut with the next partition. It
yields the live items that no cut hides, in order, and comes to its end without an
error (`Browse.Skipping.pull`), and so does a count (`View.countItems_skipping`).
-/

namespace SpoolIndex

/-- A call that failed while the partition was read. -/
structure Cut where
  partition : Partition
  call : StoreCall

def Cut.Hides (cut : Cut) (x : Item) : Prop :=
  x.partition = cut.partition ∧ cut.call.Hides x.key

theorem Partition.Visited.eq_of_rank {v : View} {q : QueueName} {T : Slice → Prop}
    {p p' : Partition} (h : p.Visited v q T) (h' : p'.Visited v q T) (he : p.rank v = p'.rank v) :
    p = p' := by
  obtain ⟨q₁, slice, ⟨bucket⟩⟩ := p
  obtain ⟨q₂, slice', ⟨bucket'⟩⟩ := p'
  obtain ⟨rfl, rfl⟩ := View.rank_inj h.bucket h'.bucket he
  obtain rfl : q₁ = q := h.queue
  obtain rfl : q₂ = q₁ := h'.queue
  rfl

namespace Browse

/-- The cuts are those of the calls that failed, each in a partition of the browse that it read, and
they hide no item before place `low`. -/
structure Cuts (v : View) (q : QueueName) (t : Instant) (s : Store) (low : Nat)
    (failed : StoreCall → Prop) (cuts : List Cut) : Prop where
  calls : ∀ c, (∃ cut ∈ cuts, cut.call = c) ↔ failed c
  visited : ∀ cut ∈ cuts, cut.partition.Visited v q (· ≤ v.allocator.sliceOf t)
  reads : ∀ cut ∈ cuts, cut.call.Reads cut.partition s
  low_le : ∀ cut ∈ cuts, ∀ x, cut.Hides x → low ≤ v.spot x

structure Due (v : View) (q : QueueName) (t : Instant) (s : Store) (cuts : List Cut) (low : Nat)
    (x : Item) : Prop where
  sighted : Sighted v q (· ≤ v.allocator.sliceOf t) s low x
  seen : ∀ cut ∈ cuts, ¬cut.Hides x

/-- The browse has the partitions from the `k`-th on before it. -/
structure Facing (v : View) (q : QueueName) (t : Instant) (s : Store) (k : Nat) (b : Browse) :
    Prop where
  queue : b.queue = q
  stopped : b.stopped = false
  upcoming : Upcoming v q (· ≤ v.allocator.sliceOf t) k b.drawn b.cursor
  pending : ∀ x, Sighted v q (· ≤ v.allocator.sliceOf t) s (k * Partition.span) x →
    Pending v x b.drawn b.cursor

/-- A browse with these cuts behind it and a place before it, which takes less than `n` more
steps. -/
inductive Skipping (v : View) (q : QueueName) (t : Instant) (s : Store) (n : Nat) (b : Browse) :
    List Cut → Nat → Prop
  | drawing {k : Nat} {cuts : List Cut} (hb : b.Facing v q t s k) (hr : b.reading = none)
    (hcuts : ∀ cut ∈ cuts, cut.partition.rank v < k)
    (hn : (v.places - k) * (Key.count + 3) < n) : Skipping v q t s n b cuts (k * Partition.span)
  | reading {p : Partition} {scan : PartitionScan} {key m : Nat} {earlier : List Cut}
    {lost : List StoreCall} (hb : b.Facing v q t s (p.rank v + 1)) (hr : b.reading = some scan)
    (hp : p.Visited v q (· ≤ v.allocator.sliceOf t))
    (hearlier : ∀ cut ∈ earlier, cut.partition.rank v < p.rank v)
    (hscan : scan.Skipping p s lost key m)
    (hn : (v.places - (p.rank v + 1)) * (Key.count + 3) + m < n) :
    Skipping v q t s n b (earlier ++ lost.map (Cut.mk p)) (p.rank v * Partition.span + 1 + key)

/-- What a step comes to: the next item that is due, or no item at all, but never an error. -/
def Skipping.Next (v : View) (q : QueueName) (t : Instant) (s : Store) (n : Nat)
    (cuts : List Cut) (low : Nat) : Progress (Except Error Item) × Browse → Prop
  | (.ended, _) => ∀ x, ¬Due v q t s cuts low x
  | (.working, b') => ∃ low', low ≤ low' ∧ b'.Skipping v q t s n cuts low' ∧
      ∀ x, Due v q t s cuts low x → low' ≤ v.spot x
  | (.yield (.ok x), b') => Due v q t s cuts low x ∧
      b'.Skipping v q t s n cuts (v.spot x + 1) ∧
      ∀ y, Due v q t s cuts low y → y = x ∨ v.spot x < v.spot y
  | (.yield (.error _), _) => False

variable {v : View} {q : QueueName} {t : Instant} {s s' : Store} {b : Browse}
  {cuts earlier new new' : List Cut} {lost : List StoreCall} {p : Partition} {low low' key n : Nat}
  {x : Item} {path before after : List Exchange}

theorem cuts_nil (h : ∀ c, ¬failed c) : Cuts v q t s low failed [] :=
  ⟨fun c => ⟨(fun ⟨_, hcut, _⟩ => nomatch hcut), fun hc => absurd hc (h c)⟩,
    (fun _ hcut => nomatch hcut), (fun _ hcut => nomatch hcut), fun _ hcut => nomatch hcut⟩

theorem Cuts.append (h : Cuts v q t s low failed new) (h' : Cuts v q t s' low' failed' new')
    (hitems : s'.items = s.items) (hlow : low ≤ low')
    (hall : ∀ c, all c ↔ failed c ∨ failed' c) : Cuts v q t s low all (new ++ new') where
  calls c := by
    rw [hall, ← h.calls, ← h'.calls]
    simp only [List.mem_append, or_and_right, exists_or]
  visited := List.forall_mem_append.mpr ⟨h.visited, h'.visited⟩
  reads := List.forall_mem_append.mpr ⟨h.reads, fun cut hcut => by
    have hreads := h'.reads cut hcut
    unfold StoreCall.Reads at hreads ⊢
    rwa [hitems] at hreads⟩
  low_le := List.forall_mem_append.mpr ⟨h.low_le, fun cut hcut x hx =>
    Nat.le_trans hlow (h'.low_le cut hcut x hx)⟩

theorem Cuts.congr (h : Cuts v q t s low failed new) (hall : ∀ c, all c ↔ failed c) :
    Cuts v q t s low all new :=
  { h with calls := fun c => (h.calls c).trans (hall c).symm }

theorem Cuts.mono (h : Cuts v q t s low' failed new) (hlow : low ≤ low') :
    Cuts v q t s low failed new :=
  { h with low_le := fun cut hcut x hx => Nat.le_trans hlow (h.low_le cut hcut x hx) }

theorem Due.mono (h : Due v q t s new' low' x) (hcuts : new ⊆ new') (hlow : low ≤ low') :
    Due v q t s new low x :=
  ⟨h.sighted.mono hlow, fun cut hcut => h.seen cut (hcuts hcut)⟩

theorem Sighted.here_or_after
    (h : Sighted v q (· ≤ v.allocator.sliceOf t) s (p.rank v * Partition.span + 1 + key) x)
    (hp : p.Visited v q (· ≤ v.allocator.sliceOf t)) :
    x.partition = p ∧ key ≤ x.key.bits ∨ (p.rank v + 1) * Partition.span ≤ v.spot x := by
  have hlow := h.low_le
  have hspot : v.spot x = x.partition.rank v * Partition.span + 1 + x.key.bits := rfl
  have hrank : p.rank v ≤ x.partition.rank v := View.le_spot_iff.mp (by omega)
  obtain heq | hlt := Nat.eq_or_lt_of_le hrank
  · rw [← heq] at hspot
    exact .inl ⟨h.visited.eq_of_rank hp heq.symm, by omega⟩
  · exact .inr (View.le_spot_iff.mpr hlt)

theorem due_here (hp : p.Visited v q (· ≤ v.allocator.sliceOf t))
    (hearlier : ∀ cut ∈ earlier, cut.partition.rank v < p.rank v) (hx : x.partition = p) :
    Due v q t s (earlier ++ lost.map (Cut.mk p)) (p.rank v * Partition.span + 1 + key) x ↔
      PartitionScan.Due p s lost key x := by
  subst hx
  have hspot : v.spot x = x.partition.rank v * Partition.span + 1 + x.key.bits := rfl
  constructor
  · intro h
    have hlow := h.sighted.low_le
    refine ⟨h.sighted.stored, hp.queue ▸ h.sighted.live, by omega, fun c hc hhides => ?_⟩
    exact h.seen ⟨x.partition, c⟩ (by simp [hc]) ⟨rfl, hhides⟩
  · intro h
    have hlow := h.low_le
    refine ⟨⟨h.stored, hp, hp.queue ▸ h.live, by omega⟩, fun cut hcut hhides => ?_⟩
    obtain hcut | hcut := List.mem_append.mp hcut
    · have hlt := hearlier cut hcut
      rw [← hhides.1] at hlt
      exact absurd hlt (Nat.lt_irrefl _)
    · obtain ⟨c, hc, rfl⟩ := List.mem_map.mp hcut
      exact h.seen c hc hhides.2

theorem Due.here_or_after (hp : p.Visited v q (· ≤ v.allocator.sliceOf t))
    (hearlier : ∀ cut ∈ earlier, cut.partition.rank v < p.rank v)
    (h : Due v q t s (earlier ++ lost.map (Cut.mk p)) (p.rank v * Partition.span + 1 + key) x) :
    x.partition = p ∧ PartitionScan.Due p s lost key x ∨
      (p.rank v + 1) * Partition.span ≤ v.spot x :=
  (h.sighted.here_or_after hp).imp_left fun ⟨hx, _⟩ =>
    ⟨hx, (due_here hp hearlier hx).mp h⟩

theorem cuts_here (hp : p.Visited v q (· ≤ v.allocator.sliceOf t))
    (h : PartitionScan.Cutting p s key lost) :
    Cuts v q t s (p.rank v * Partition.span + 1 + key) (· ∈ lost) (lost.map (Cut.mk p)) where
  calls c := by
    constructor
    · rintro ⟨cut, hcut, rfl⟩
      obtain ⟨c, hc, rfl⟩ := List.mem_map.mp hcut
      exact hc
    · exact fun hc => ⟨⟨p, c⟩, List.mem_map_of_mem hc, rfl⟩
  visited := by simpa using fun _ _ => hp
  reads := by simpa using fun c hc => (h c hc).1
  low_le := by
    intro cut hcut x hx
    obtain ⟨c, hc, rfl⟩ := List.mem_map.mp hcut
    obtain ⟨hpart, hhides⟩ := hx
    have hpart : x.partition = p := hpart
    have hspot : v.spot x = x.partition.rank v * Partition.span + 1 + x.key.bits := rfl
    have hkey := (h c hc).2 x.key hhides
    rw [hpart] at hspot
    omega

-- ---------------------------------------------------------------------------
-- One step of a browse
-- ---------------------------------------------------------------------------

theorem deliver_skipping (hv : v.failurePolicy = .skipAndContinue) (hb : b.stopped = false)
    (he : (deliver v b (.error (.partition p e))).Ends path r) :
    r = (.working, { b with failures := b.failures ++ [⟨p, e⟩] }) := by
  unfold deliver at he
  simp only [hb, hv] at he
  obtain ⟨_, _, _, -, -, he⟩ := Operation.Ends.of_bind he
  obtain ⟨_, _, _, -, -, he⟩ := he.of_bind
  rw [he.of_done.2, hb]

/-- What a step in the partition at hand comes to. -/
theorem Skipping.Next.handOn (hv : v.failurePolicy = .skipAndContinue) (hs : s.Proper)
    (hb : b.Facing v q t s (p.rank v + 1)) (hp : p.Visited v q (· ≤ v.allocator.sliceOf t))
    (hearlier : ∀ cut ∈ earlier, cut.partition.rank v < p.rank v) (hkey : key ≤ Key.count)
    (hn : (v.places - (p.rank v + 1)) * (Key.count + 3) + m < n)
    (h : PartitionScan.Skipping.Next p s lost key m r) (he : (handOn v b r).Ends path r') :
    Next v q t s n (earlier ++ lost.map (Cut.mk p)) (p.rank v * Partition.span + 1 + key) r' := by
  obtain ⟨hspan, -⟩ := span_le hp hkey
  have hfirst {x : Item}
      (hx : Due v q t s (earlier ++ lost.map (Cut.mk p)) (p.rank v * Partition.span + 1 + key) x) :=
    hx.here_or_after hp hearlier
  have hb' (reading : Option PartitionScan) (failures : List PartitionFailure) :
      Facing v q t s (p.rank v + 1) { b with reading := reading, failures := failures } :=
    ⟨hb.queue, hb.stopped, hb.upcoming, hb.pending⟩
  obtain ⟨(e | x) | _ | _, scan⟩ := r
  · obtain ⟨⟨source, rfl⟩, hscan⟩ := h
    obtain rfl := deliver_skipping (b := { b with reading := some scan }) hv hb.stopped he
    exact ⟨_, Nat.le_refl _, .reading (hb' _ _) rfl hp hearlier hscan hn,
      fun x hx => hx.sighted.low_le⟩
  · obtain ⟨hx, hscan, hall⟩ := h
    have he : (deliver v { b with reading := some scan } (.ok x)).Ends path r' := he
    rw [deliver_ok (b := { b with reading := some scan }) hb.stopped] at he
    obtain ⟨_, _, _, -, -, he⟩ := Operation.Ends.of_bind he
    obtain ⟨-, rfl⟩ := he.of_done
    obtain rfl : x.partition = p := hs.placed p x hx.stored
    have hspot : v.spot x = x.partition.rank v * Partition.span + 1 + x.key.bits := rfl
    refine ⟨(due_here hp hearlier rfl).mpr hx, ?_, fun y hy => ?_⟩
    · rw [hspot, Nat.add_assoc]
      exact .reading (hb' _ _) rfl hp hearlier hscan hn
    · obtain ⟨hspan', -⟩ := span_le hp (Nat.le_of_lt x.key.bits_lt)
      obtain ⟨hpart, hy⟩ | hy := hfirst hy
      · refine (hall y hy).imp_right fun hlt => ?_
        have hspot' : v.spot y = y.partition.rank v * Partition.span + 1 + y.key.bits := rfl
        rw [hpart] at hspot'
        omega
      · exact .inr (by omega)
  · obtain ⟨key', hlt, hscan, hall⟩ := h
    obtain ⟨-, rfl⟩ := he.of_done
    have hkey' := hscan.low_le
    obtain ⟨hspan', -⟩ := span_le hp hkey'
    refine ⟨_, by omega, .reading (hb' _ _) rfl hp hearlier hscan hn, fun x hx => ?_⟩
    obtain ⟨rfl, hx⟩ | hx := hfirst hx
    · have hspot : v.spot x = x.partition.rank v * Partition.span + 1 + x.key.bits := rfl
      have := hall x hx
      omega
    · omega
  · obtain ⟨-, rfl⟩ := he.of_done
    refine ⟨(p.rank v + 1) * Partition.span, by omega, .drawing (hb' _ _) rfl ?_ (by omega),
      fun x hx => ?_⟩
    · intro cut hcut
      obtain hcut | hcut := List.mem_append.mp hcut
      · exact Nat.lt_succ_of_lt (hearlier cut hcut)
      · obtain ⟨c, -, rfl⟩ := List.mem_map.mp hcut
        exact Nat.lt_succ_self _
    · obtain ⟨-, hx⟩ | hx := hfirst hx
      · exact absurd hx (h x)
      · exact hx

theorem step_drawing_skipping (hs : s.Proper) (hl : 0 < v.pageSize) (hfan : 0 < v.fanOut)
    (hb : b.Facing v q t s k) (hr : b.reading = none)
    (hcuts : ∀ cut ∈ cuts, cut.partition.rank v < k)
    (hn : (v.places - k) * (Key.count + 3) < n + 1) (he : (b.step v).Ends path r)
    (hp : s.Falters t path) :
    ∃ new, Cuts v q t s (k * Partition.span) (· ∈ failedCalls path) new ∧
      Skipping.Next v q t s n (cuts ++ new) (k * Partition.span) r := by
  obtain ⟨q', cursor, drawn, reading, stopped, failures⟩ := b
  obtain rfl : reading = none := hr
  obtain ⟨hq, hstopped, hup, hpending⟩ := hb
  obtain rfl : q' = q := hq
  obtain ⟨drawing, rest, ⟨fresh, place⟩, rfl, hdraw, hrest⟩ := Operation.Ends.of_bind he
  obtain ⟨hdrawing, hresting⟩ := Store.falters_append.mp hp
  -- drawing calls no store, so it finds the partitions that come next
  have hcalm : failedCalls drawing = [] :=
    Operation.Storeless.failedCalls (draw_takes trivial) hdraw
  have hkeeps : (draw v q' (v.fanOut - drawn.length) cursor []).Keeps (.alone (Eq s) t) _ s :=
    draw_keeps View.timely_alone (by simpa using hup)
  obtain ⟨-, hup', -, hfinished, hcomes⟩ :=
    hkeeps.told rfl (draw_takes trivial) hdraw (hdrawing.told hcalm)
  rw [failedCalls_append, hcalm, List.nil_append]
  have hpend (x : Item)
      (hx : Sighted v q' (· ≤ v.allocator.sliceOf t) s (k * Partition.span) x) :
      Pending v x (drawn ++ fresh) place := by
    have hsought : Sought (.alone (Eq s) t) v q' s s x :=
      ⟨hx.stored, hx.visited.queue, hx.visited.bucket, fun _ ht => ht ▸ hx.visited.timely, hx.live⟩
    exact hcomes x s s hsought (by simpa using hpending x hx)
  dsimp only at hup' hfinished hrest
  cases hps : drawn ++ fresh with
  | nil =>
    rw [hps] at hrest hpend
    obtain ⟨rfl, rfl⟩ := hrest.of_done
    refine ⟨[], cuts_nil (fun _ hc => nomatch hc), fun x hx => ?_⟩
    rw [List.append_nil] at hx
    obtain ⟨rfl, rfl⟩ := List.append_eq_nil_iff.mp hps
    obtain rfl : place = none := hfinished (by simpa using hfan) rfl
    obtain hx | ⟨_, _, hx, -⟩ := hpend x hx.sighted <;> cases hx
  | cons p ps =>
    rw [hps] at hup' hrest hpend
    obtain ⟨hvisited, rfl, hup'⟩ := hup'
    obtain ⟨starting, _, scan, rfl, hstart, hlast⟩ := hrest.of_bind
    obtain ⟨rfl, rfl⟩ := hlast.of_done
    obtain ⟨hstarting, -⟩ := Store.falters_append.mp hresting
    rw [List.append_nil]
    obtain ⟨hscan, hcutting⟩ := PartitionScan.start_skipping hs hl hstart hstarting
    have hplaces : p.rank v < v.places := View.rank_lt_places hvisited.bucket
    have hrank (x : Item)
        (hx : Sighted v q' (· ≤ v.allocator.sliceOf t) s (p.rank v * Partition.span) x) :
        p.rank v * Partition.span + 1 + 0 ≤ v.spot x := by
      have hspot : v.spot x = x.partition.rank v * Partition.span + 1 + x.key.bits := rfl
      have hle : p.rank v * Partition.span ≤ x.partition.rank v * Partition.span :=
        Nat.mul_le_mul_right _ (View.le_spot_iff.mp hx.low_le)
      omega
    have hfacing :
        Facing v q' t s (p.rank v + 1) ⟨q', place, ps, some scan, stopped, failures⟩ := by
      refine ⟨rfl, hstopped, hup', fun x hx => ?_⟩
      refine (hpend x (hx.mono (Nat.mul_le_mul_right _ (Nat.le_succ _)))).imp_left fun hmem => ?_
      refine (List.mem_cons.mp hmem).resolve_left ?_
      rintro rfl
      exact Nat.lt_irrefl _ (View.le_spot_iff.mp hx.low_le)
    have hsteps : (v.places - (p.rank v + 1)) * (Key.count + 3) + (Key.count + 2) < n := by
      have hleft : v.places - p.rank v = v.places - (p.rank v + 1) + 1 := by omega
      rw [hleft, Nat.add_mul, Nat.one_mul] at hn
      omega
    exact ⟨_, (cuts_here hvisited hcutting).mono (by omega), _, by omega,
      .reading hfacing rfl hvisited hcuts hscan hsteps, fun x hx => hrank x hx.sighted⟩

theorem Skipping.step (hv : v.failurePolicy = .skipAndContinue) (hs : s.Proper)
    (hl : 0 < v.pageSize) (hfan : 0 < v.fanOut) (h : b.Skipping v q t s (n + 1) cuts low)
    (he : (b.step v).Ends path r) (hp : s.Falters t path) :
    ∃ new, Cuts v q t s low (· ∈ failedCalls path) new ∧ Next v q t s n (cuts ++ new) low r := by
  cases h with
  | drawing hb hr hcuts hn => exact step_drawing_skipping hs hl hfan hb hr hcuts hn he hp
  | @reading p scan key m earlier lost hb hr hvisited hearlier hscan hn =>
    rw [step_eq hr] at he
    obtain ⟨stepping, rest, r', rfl, hstep, hrest⟩ := he.of_bind
    obtain ⟨hstepping, -⟩ := Store.falters_append.mp hp
    have hcalm : failedCalls rest = [] := handOn_storeless.failedCalls hrest
    obtain ⟨m, rfl⟩ : ∃ n, m = n + 1 := by
      have hsteps := hscan.steps
      have hle := hscan.low_le
      have hflag := scan.failed.toNat_le
      exact ⟨m - 1, by omega⟩
    obtain ⟨hnext, hcutting⟩ := hscan.step hs hl hstep hstepping
    rw [failedCalls_append, hcalm, List.append_nil]
    refine ⟨_, cuts_here hvisited hcutting, ?_⟩
    rw [List.append_assoc, ← List.map_append]
    exact .handOn hv hs hb hvisited hearlier hscan.low_le (by omega) hnext hrest

-- ---------------------------------------------------------------------------
-- One pull
-- ---------------------------------------------------------------------------

def Skipping.Pulled (v : View) (q : QueueName) (t : Instant) (s : Store) (n : Nat)
    (cuts : List Cut) (low : Nat) : Option (Except Error Item) × Browse → Prop
  | (none, _) => ∀ x, ¬Due v q t s cuts low x
  | (some (.ok x), b') => Due v q t s cuts low x ∧
      (∃ m < n, b'.Skipping v q t s m cuts (v.spot x + 1)) ∧
      ∀ y, Due v q t s cuts low y → y = x ∨ v.spot x < v.spot y
  | (some (.error _), _) => False

theorem Skipping.pos (h : b.Skipping v q t s n cuts low) : 0 < n := by
  cases h <;> omega

/-- A step that yields nothing leaves all that is due to the steps after it. -/
theorem Skipping.Pulled.after_step (h : Pulled v q t s n (cuts ++ new) low' r) (hlow : low ≤ low')
    (hall : ∀ x, Due v q t s cuts low x → low' ≤ v.spot x) :
    Pulled v q t s (n + 1) (cuts ++ new) low r := by
  have hdue {x : Item} (hx : Due v q t s (cuts ++ new) low x) : Due v q t s (cuts ++ new) low' x :=
    ⟨{ hx.sighted with low_le := hall x (hx.mono (List.subset_append_left _ _) (Nat.le_refl _)) },
      hx.seen⟩
  obtain ⟨_ | e | x, b'⟩ := r
  · exact fun x hx => h x (hdue hx)
  · exact h
  · obtain ⟨hx, ⟨m, hm, hb'⟩, hnext⟩ := h
    exact ⟨hx.mono (List.Subset.refl _) hlow, ⟨m, Nat.lt_succ_of_lt hm, hb'⟩,
      fun y hy => hnext y (hdue hy)⟩

theorem Skipping.advance (hv : v.failurePolicy = .skipAndContinue) (hs : s.Proper)
    (hl : 0 < v.pageSize) (hfan : 0 < v.fanOut) (h : b.Skipping v q t s n cuts low)
    (hn : n ≤ steps) (he : (b.advance v steps).Ends path r) (hp : s.Falters t path) :
    ∃ new, Cuts v q t s low (· ∈ failedCalls path) new ∧ Pulled v q t s n (cuts ++ new) low r := by
  induction steps generalizing b n cuts low path with
  | zero => exact absurd h.pos (Nat.not_lt.mpr hn)
  | succ steps ih =>
    obtain ⟨n, rfl⟩ : ∃ m, n = m + 1 := ⟨n - 1, by have := h.pos; omega⟩
    obtain ⟨stepping, rest, r', rfl, hstep, hrest⟩ := Operation.Ends.of_bind he
    obtain ⟨hstepping, hresting⟩ := Store.falters_append.mp hp
    obtain ⟨new, hnew, hnext⟩ := h.step hv hs hl hfan hstep hstepping
    obtain ⟨(e | x) | _ | _, b'⟩ := r'
    · exact hnext.elim
    · obtain ⟨rfl, rfl⟩ := hrest.of_done
      obtain ⟨hx, hb', hall⟩ := hnext
      rw [List.append_nil]
      exact ⟨new, hnew, hx, ⟨n, Nat.lt_succ_self n, hb'⟩, hall⟩
    · obtain ⟨low', hle, hb', hall⟩ := hnext
      obtain ⟨new', hnew', hpulled⟩ := ih hb' (Nat.le_of_succ_le_succ hn) hrest hresting
      refine ⟨new ++ new', hnew.append hnew' rfl hle fun c => ?_, ?_⟩
      · rw [failedCalls_append, List.mem_append]
      · rw [← List.append_assoc]
        exact hpulled.after_step hle hall
    · obtain ⟨rfl, rfl⟩ := hrest.of_done
      rw [List.append_nil]
      exact ⟨new, hnew, hnext⟩

/-- A pull yields the next live item that no cut hides. -/
theorem Skipping.pull (hv : v.failurePolicy = .skipAndContinue) (hs : s.Proper)
    (hl : 0 < v.pageSize) (hfan : 0 < v.fanOut) (h : b.Skipping v q t s n cuts low)
    (hn : n ≤ patience) (he : (b.pull v).Ends path r) (hp : s.Falters t path) :
    ∃ new, Cuts v q t s low (· ∈ failedCalls path) new ∧ Pulled v q t s n (cuts ++ new) low r :=
  h.advance hv hs hl hfan hn he hp

theorem due_cons (hx : Due v q t s cuts low x)
    (hall : ∀ y, Due v q t s cuts low y → y = x ∨ v.spot x < v.spot y)
    (hnew : Cuts v q t s' (v.spot x + 1) failed new) :
    Due v q t s (cuts ++ new) low y ↔ y = x ∨ Due v q t s (cuts ++ new) (v.spot x + 1) y := by
  constructor
  · intro hy
    refine (hall y (hy.mono (List.subset_append_left _ _) (Nat.le_refl _))).imp_right fun hlt => ?_
    exact ⟨{ hy.sighted with low_le := hlt }, hy.seen⟩
  · rintro (rfl | hy)
    · refine ⟨hx.sighted, fun cut hcut hhides => ?_⟩
      obtain hcut | hcut := List.mem_append.mp hcut
      · exact hx.seen cut hcut hhides
      · exact Nat.lt_irrefl _ (hnew.low_le cut hcut y hhides)
    · exact hy.mono (List.Subset.refl _) (Nat.le_succ_of_le hx.sighted.low_le)

theorem Skipping.later (h : b.Skipping v q t s n cuts low) (hitems : s'.items = s.items)
    (hg : s.Grows s') : b.Skipping v q t s' n cuts low := by
  have hfacing {k : Nat} (hb : b.Facing v q t s k) : b.Facing v q t s' k :=
    { hb with pending := fun x hx => hb.pending x (hx.sooner hg hitems (Nat.le_refl _)) }
  cases h with
  | drawing hb hr hcuts hn => exact .drawing (hfacing hb) hr hcuts hn
  | reading hb hr hp hearlier hscan hn =>
    exact .reading (hfacing hb) hr hp hearlier (hscan.later hitems hg) hn

theorem places_lt_patience (v : View) : v.places * (Key.count + 3) < patience := by
  have hcount : v.allocator.bucketCount.toNat ≤ 2 ^ 32 - 1 :=
    Nat.le_sub_one_of_lt v.allocator.bucketCount.toNat_lt
  have hplaces : v.places ≤ 2 ^ 64 * (2 ^ 32 - 1) := Nat.mul_le_mul_left _ hcount
  exact Nat.lt_of_le_of_lt (Nat.mul_le_mul_right _ hplaces) (by decide)

theorem opened_skipping (v : View) (q : QueueName) (t : Instant) (s : Store)
    (start : Option Slice) : (opened q start).Skipping v q t s patience [] (floor v start) := by
  have hpatience := places_lt_patience v
  cases start with
  | none =>
    refine .drawing ⟨rfl, rfl, trivial, fun x hx => ?_⟩ rfl (fun _ hcut => nomatch hcut) ?_
    · have hlt : x.partition.rank v < v.places := View.rank_lt_places hx.visited.bucket
      exact absurd (View.le_spot_iff.mp hx.low_le) (Nat.not_le.mpr hlt)
    · rw [Nat.sub_self]
      omega
  | some start =>
    refine .drawing ⟨rfl, rfl, ⟨v.allocator.bucketCount_pos, rfl⟩, fun x hx => ?_⟩ rfl
      (fun _ hcut => nomatch hcut) ?_
    · exact .inr ⟨start, 0, rfl, View.le_spot_iff.mp hx.low_le⟩
    · exact Nat.lt_of_le_of_lt (Nat.mul_le_mul_right _ (Nat.sub_le _ _)) hpatience

end Browse

-- ---------------------------------------------------------------------------
-- Counting
-- ---------------------------------------------------------------------------

section
variable {v : View} {q : QueueName} {t : Instant} {s : Store} {b : Browse}
  {cuts : List Cut} {low : Nat} {path : List Exchange} {result : Except Error Nat}

theorem View.countItems_skipping (hv : v.failurePolicy = .skipAndContinue) (hs : s.Proper)
    (hl : 0 < v.pageSize) (hfan : 0 < v.fanOut) (h : b.Skipping v q t s m cuts low)
    (hm : m ≤ limit) (hpatience : m ≤ Browse.patience)
    (he : (v.countItems limit n b).run.Ends path result) (hp : s.Falters t path) :
    ∃ new, Browse.Cuts v q t s low (· ∈ failedCalls path) new ∧
      ∃ items : List Item, result = .ok (n + items.length) ∧ items.Nodup ∧
        ∀ x, x ∈ items ↔ Browse.Due v q t s (cuts ++ new) low x := by
  induction limit generalizing b n m cuts low path with
  | zero => exact absurd h.pos (Nat.not_lt.mpr hm)
  | succ limit ih =>
    obtain ⟨pulling, rest, r, rfl, hpull, hrest⟩ := Attempt.ends_lift_bind he
    obtain ⟨hpulling, hresting⟩ := Store.falters_append.mp hp
    obtain ⟨new, hnew, hpulled⟩ := h.pull hv hs hl hfan hpatience hpull hpulling
    obtain ⟨_ | e | x, b'⟩ := r
    · obtain ⟨rfl, rfl⟩ := hrest.of_done
      rw [List.append_nil]
      refine ⟨new, hnew, [], rfl, .nil, fun x => ⟨(fun hx => nomatch hx), fun hx => ?_⟩⟩
      exact absurd hx (hpulled x)
    · exact hpulled.elim
    · obtain ⟨hx, ⟨m', hlt, hb'⟩, hall⟩ := hpulled
      obtain ⟨new', hnew', items, rfl, hnodup, hitems⟩ :=
        ih hb' (by omega) (by omega) hrest hresting
      have hlow := hx.sighted.low_le
      refine ⟨new ++ new', hnew.append hnew' rfl (by omega) fun c => ?_, x :: items, ?_, ?_, ?_⟩
      · rw [failedCalls_append, List.mem_append]
      · rw [List.length_cons, Nat.add_right_comm, Nat.add_assoc]
      · refine List.nodup_cons.mpr ⟨fun hmem => ?_, hnodup⟩
        exact Nat.lt_irrefl _ ((hitems x).mp hmem).sighted.low_le
      · intro y
        rw [List.mem_cons, hitems, ← List.append_assoc]
        exact (Browse.due_cons hx hall hnew').symm

end

end SpoolIndex
