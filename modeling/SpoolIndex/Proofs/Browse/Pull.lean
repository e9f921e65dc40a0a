import SpoolIndex.Proofs.Browse.Places
import SpoolIndex.Proofs.Browse.Scan

/-!
# Pulling from a browse

A browse yields items in ascending order, none with a tombstone, and passes over
no item that it is to find (`Browse.pull_keeps`), whatever others add to the
store in the meantime. `Browse.From` says how far it has come, as a number that
each of its steps raises; that is also why it never runs out of steps.
-/

namespace SpoolIndex

/-- A partition that a browse of the queue may visit, if its slice is one of `T`. -/
structure Partition.Visited (v : View) (q : QueueName) (T : Slice → Prop) (p : Partition) :
    Prop where
  queue : p.queue = q
  bucket : p.bucket.id < v.allocator.bucketCount
  timely : T p.slice

namespace Browse

/-- The partitions drawn and the cursor follow each other from the `n`-th place on. -/
def Upcoming (v : View) (q : QueueName) (T : Slice → Prop) :
    Nat → List Partition → Option (Slice × UInt32) → Prop
  | _, [], none => True
  | n, [], some (slice, bucket) => bucket < v.allocator.bucketCount ∧ v.rank slice bucket = n
  | n, p :: drawn, cursor => p.Visited v q T ∧ p.rank v = n ∧ Upcoming v q T (n + 1) drawn cursor

/-- What is left of the browse has places from `low` on. -/
structure From (v : View) (q : QueueName) (T : Slice → Prop) (s : Store) (low : Nat) (b : Browse) :
    Prop where
  queue : b.queue = q
  stopped : b.stopped = false
  failures : b.failures = []
  bound : low ≤ v.places * Partition.span
  upcoming : ∃ n, Upcoming v q T n b.drawn b.cursor ∧ match b.reading with
    | none => low ≤ n * Partition.span
    | some scan => ∃ p key, p.Visited v q T ∧ p.rank v + 1 = n ∧ scan.From p s key ∧
        key ≤ Key.count ∧ low ≤ p.rank v * Partition.span + 1 + key

def Pending (v : View) (x : Item) (drawn : List Partition) (cursor : Option (Slice × UInt32)) :
    Prop :=
  x.partition ∈ drawn ∨
    ∃ slice bucket, cursor = some (slice, bucket) ∧ v.rank slice bucket ≤ x.partition.rank v

def Ahead (v : View) (b : Browse) (x : Item) : Prop :=
  (∃ scan, b.reading = some scan ∧ scan.partition = x.partition ∧ scan.Ahead x.key) ∨
    Pending v x b.drawn b.cursor

/-- An item of the queue that a browse is to find: it is stored in the beginning and lives to the
end, its bucket is one of the view's, and no reading of the clock is before its slice. -/
structure Sought (k : Contract) (v : View) (q : QueueName) (s s' : Store) (x : Item) : Prop where
  stored : x ∈ s.items x.partition
  queue : x.queue = q
  bucket : x.bucket.id < v.allocator.bucketCount
  timely : ∀ t, k.clock t → x.slice ≤ v.allocator.sliceOf t
  live : x.key ∉ s'.tombstones q

section
variable {k : Contract} {v : View} {q : QueueName} {T : Slice → Prop} {s s' : Store} {b : Browse}

theorem From.grows (h : b.From v q T s low) (hg : s.Grows s') : b.From v q T s' low := by
  obtain ⟨hq, hs, hf, hb, n, hn, hr⟩ := h
  refine ⟨hq, hs, hf, hb, n, hn, ?_⟩
  cases hreading : b.reading with
  | none => simpa only [hreading] using hr
  | some scan =>
    simp only [hreading] at hr ⊢
    obtain ⟨p, key, hp, hrank, hscan, hkey⟩ := hr
    exact ⟨p, key, hp, hrank, hscan.grows hg, hkey⟩

-- ---------------------------------------------------------------------------
-- Drawing partitions
-- ---------------------------------------------------------------------------

theorem Upcoming.finish (h : Upcoming v q T n ps place) : Upcoming v q T n ps none := by
  induction ps generalizing n with
  | nil => trivial
  | cons p ps ih => exact ⟨h.1, h.2.1, ih h.2.2⟩

theorem Upcoming.draw (h : Upcoming v q T n ps (some (slice, bucket))) (ht : T slice) :
    Upcoming v q T n (ps ++ [⟨q, slice, ⟨bucket⟩⟩]) (following v slice bucket) := by
  induction ps generalizing n with
  | nil =>
    refine ⟨⟨rfl, h.1, ht⟩, h.2, ?_⟩
    cases hf : following v slice bucket with
    | none => trivial
    | some place =>
      obtain ⟨hb, hr⟩ := View.rank_following h.1 hf
      exact ⟨hb, by rw [hr, h.2]⟩
  | cons p ps ih => exact ⟨h.1, h.2.1, ih h.2.2⟩

theorem Pending.draw (h : Pending v x ps (some (slice, bucket)))
    (hb : bucket < v.allocator.bucketCount) (hx : Sought k v q s s' x) :
    Pending v x (ps ++ [⟨q, slice, ⟨bucket⟩⟩]) (following v slice bucket) := by
  rcases h with h | ⟨slice', bucket', he, hle⟩
  · exact .inl (List.mem_append_left _ h)
  cases he
  by_cases heq : v.rank slice bucket = x.partition.rank v
  · obtain ⟨hs, hb⟩ := View.rank_inj hb hx.bucket heq
    refine .inl (List.mem_append_right _ (List.mem_singleton.mpr ?_))
    simp only [Item.partition, hx.queue, hs, hb]
  · have hlt : v.rank slice bucket < x.partition.rank v := Nat.lt_of_le_of_ne hle heq
    obtain ⟨place, hf⟩ := Option.ne_none_iff_exists'.mp (View.following_ne_none hx.bucket hlt)
    have hr := (View.rank_following hb hf).2
    exact .inr ⟨place.1, place.2, hf, by rw [hr]; exact hlt⟩

theorem Upcoming.bucket_lt (h : Upcoming v q T n ps (some (slice, bucket))) :
    bucket < v.allocator.bucketCount := by
  induction ps generalizing n with
  | nil => exact h.1
  | cons p ps ih => exact ih h.2.2

structure Draws (k : Contract) (v : View) (q : QueueName) (T : Slice → Prop) (n room : Nat)
    (ps found : List Partition) (place : Option (Slice × UInt32))
    (r : List Partition × Option (Slice × UInt32)) : Prop where
  upcoming : Upcoming v q T n (ps ++ r.1) r.2
  kept : ∀ p ∈ found, p ∈ r.1
  finished : 0 < room → ps ++ r.1 = [] → r.2 = none
  pending : ∀ x s s', Sought k v q s s' x → Pending v x (ps ++ found.reverse) place →
    Pending v x (ps ++ r.1) r.2

theorem draw_keeps (hT : ∀ t slice, k.clock t → slice ≤ v.allocator.sliceOf t → T slice)
    (h : Upcoming v q T n (ps ++ found.reverse) place) :
    (draw v q room place found).Keeps k
      (fun r s' => s' = s ∧ Draws k v q T n room ps found place r) s := by
  have hfound : ∀ p ∈ found, p ∈ found.reverse := fun p hp => List.mem_reverse.mpr hp
  induction room generalizing place found with
  | zero => exact ⟨rfl, h, hfound, fun h => absurd h (Nat.lt_irrefl 0), fun _ _ _ _ hx => hx⟩
  | succ room ih =>
    cases place with
    | none => exact ⟨rfl, h, hfound, fun _ _ => rfl, fun _ _ _ _ hx => hx⟩
    | some place =>
      obtain ⟨slice, bucket⟩ := place
      refine Operation.keeps_bind.mpr (Operation.keeps_now.mpr fun t ht => ?_)
      split
      · rename_i hlt
        refine ⟨rfl, h.finish, hfound, fun _ _ => rfl, fun x s₁ s₂ hx hp => ?_⟩
        rcases hp with hp | ⟨slice', bucket', he, hle⟩
        · exact .inl hp
        · -- the item is not beyond now, but the cursor is
          cases he
          have hle := Slice.le_trans (View.slice_le_of_rank hx.bucket hle) (hx.timely t ht)
          exact absurd hle (Slice.not_le.mpr hlt)
      · rename_i hlt
        have hdraw := h.draw (hT t slice ht (Slice.not_lt.mp hlt))
        rw [List.append_assoc, ← List.reverse_cons] at hdraw
        refine (ih hdraw fun p hp => List.mem_reverse.mpr hp).mono ?_
        rintro r s' ⟨rfl, hr⟩
        refine ⟨rfl, hr.upcoming, fun p hp => hr.kept p (List.mem_cons_of_mem _ hp), ?_, ?_⟩
        · intro _ hnil
          have hmem := List.mem_append_right ps (hr.kept _ List.mem_cons_self)
          rw [hnil] at hmem
          cases hmem
        · intro x s₁ s₂ hx hp
          have hp := hp.draw h.bucket_lt hx
          rw [List.append_assoc, ← List.reverse_cons] at hp
          exact hr.pending x s₁ s₂ hx hp

-- ---------------------------------------------------------------------------
-- One step
-- ---------------------------------------------------------------------------

structure Yields (k : Contract) (v : View) (q : QueueName) (T : Slice → Prop) (s : Store)
    (low : Nat) (b : Browse) (x : Item) (b' : Browse) (s' : Store) : Prop where
  stored : x ∈ s'.items x.partition
  visited : x.partition.Visited v q T
  live : x.key ∉ s.tombstones q
  low_le : low ≤ v.spot x
  rest : b'.From v q T s' (v.spot x + 1)
  ahead : ∀ y, Sought k v q s s' y → b.Ahead v y →
    (y.partition = x.partition ∧ y.key = x.key) ∨ b'.Ahead v y

def Stepped (k : Contract) (v : View) (q : QueueName) (T : Slice → Prop) (s : Store) (low : Nat)
    (b : Browse) : Progress (Except Error Item) × Browse → Store → Prop
  | (.ended, b'), s' => b'.failures = [] ∧ ∀ x, Sought k v q s s' x → ¬b.Ahead v x
  | (.working, b'), s' => b'.From v q T s' (low + 1) ∧
      ∀ x, Sought k v q s s' x → b.Ahead v x → b'.Ahead v x
  | (.yield (.ok x), b'), s' => Yields k v q T s low b x b' s'
  | (.yield (.error _), _), _ => False

theorem span_le {p : Partition} (hp : p.Visited v q T) (hkey : key ≤ Key.count) :
    p.rank v * Partition.span + 1 + key + 1 ≤ (p.rank v + 1) * Partition.span ∧
      (p.rank v + 1) * Partition.span ≤ v.places * Partition.span := by
  refine ⟨?_, Nat.mul_le_mul_right _ (View.rank_lt_places hp.bucket)⟩
  rw [Nat.add_mul, Nat.one_mul]
  have hspan : Partition.span = Key.count + 2 := rfl
  omega

theorem deliver_ok (hs : b.stopped = false) : deliver v b (.ok x) =
    (Operation.count .itemsBrowsed [("queue", b.queue.text)] >>=
      fun _ => pure (.yield (.ok x), b)) := by
  unfold deliver
  rw [hs]
  rfl

theorem step_reading (hk : k.AllowsReads) (hl : 0 < v.pageSize) (h : b.From v q T s low)
    (hr : b.reading = some scan) : (b.step v).Keeps k (Stepped k v q T s low b) s := by
  obtain ⟨q', cursor, drawn, reading, stopped, failures⟩ := b
  obtain rfl : reading = some scan := hr
  obtain ⟨hq, hs, hf, hbound, n, hn, p, key, hp, rfl, hscan, hkey, hlow⟩ := h
  obtain ⟨hspan, hplaces⟩ := span_le hp hkey
  have hpart : scan.partition = p := hscan.partition
  have hkeeps := (PartitionScan.step_keeps hk hl hscan).grows hk.toOrderly
  refine Operation.keeps_bind.mpr (hkeeps.mono ?_)
  rintro ⟨(e | x) | _ | _, scan'⟩ s' ⟨hstep, hg⟩
  · exact hstep.elim
  · obtain ⟨hx, hxp, hkx, hlive, hrest, hahead⟩ := hstep
    have hbits := x.key.bits_lt
    rw [handOn, deliver_ok (b := ⟨q', cursor, drawn, some scan', stopped, failures⟩) hs]
    refine Operation.keeps_bind.mpr (Operation.keeps_count.mpr ?_)
    subst hxp
    have hspot : v.spot x = x.partition.rank v * Partition.span + 1 + x.key.bits := rfl
    obtain ⟨hspan, hplaces⟩ := span_le hp (Nat.le_of_lt hbits)
    refine ⟨hx, hp, hp.queue ▸ hlive, by omega, ⟨hq, hs, hf, by omega, _, hn, ?_⟩,
      fun y hy ha => ?_⟩
    · exact ⟨x.partition, _, hp, rfl, hrest, hbits, by omega⟩
    · rcases ha with ⟨scan₁, he, hy', ha⟩ | ha
      · cases he
        have hyx : y.partition = x.partition := hy'.symm.trans hpart
        rcases hahead y (hyx ▸ hy.stored) ha with he | ha
        · exact .inl ⟨hyx, he⟩
        · exact .inr (.inl ⟨scan', rfl, hrest.partition.trans hyx.symm, ha⟩)
      · exact .inr (.inr ha)
  · obtain ⟨hrest, hlt, hahead⟩ := hstep
    refine ⟨⟨hq, hs, hf, by omega, _, hn, p, key + 1, hp, rfl, hrest, hlt, by omega⟩,
      fun y hy ha => ?_⟩
    rcases ha with ⟨scan₁, he, hy', ha⟩ | ha
    · cases he
      have hyp : y.partition = p := hy'.symm.trans hpart
      rcases hahead y (hyp ▸ hy.stored) ha with ht | ha
      · rw [hp.queue] at ht
        exact absurd ht hy.live
      · exact .inl ⟨scan', rfl, hrest.partition.trans hyp.symm, ha⟩
    · exact .inr ha
  · refine ⟨⟨hq, hs, hf, by omega, _, hn, by dsimp only; omega⟩, fun y hy ha => ?_⟩
    rcases ha with ⟨scan₁, he, hy', ha⟩ | ha
    · cases he
      have hyp : y.partition = p := hy'.symm.trans hpart
      exact absurd ha (hstep y (hyp ▸ hy.stored))
    · exact .inr ha

theorem step_drawing (hk : k.AllowsReads) (hl : 0 < v.pageSize) (hfan : 0 < v.fanOut)
    (hT : ∀ t slice, k.clock t → slice ≤ v.allocator.sliceOf t → T slice)
    (h : b.From v q T s low) (hr : b.reading = none) :
    (b.step v).Keeps k (Stepped k v q T s low b) s := by
  obtain ⟨q', cursor, drawn, reading, stopped, failures⟩ := b
  obtain rfl : reading = none := hr
  obtain ⟨hq, hs, hf, hbound, n, hn, hlow⟩ := h
  obtain rfl : q' = q := hq
  have hdraw : (draw v q' (v.fanOut - drawn.length) cursor []).Keeps k (fun r s' => s' = s ∧
      Draws k v q' T n (v.fanOut - drawn.length) drawn [] cursor r) s :=
    draw_keeps hT (by simpa using hn)
  refine Operation.keeps_bind.mpr (hdraw.mono ?_)
  rintro ⟨fresh, place⟩ s' ⟨rfl, hd⟩
  have hpend (x : Item) (s₁ : Store) (hx : Sought k v q' s' s₁ x)
      (ha : Ahead v ⟨q', cursor, drawn, none, stopped, failures⟩ x) :
      Pending v x (drawn ++ fresh) place := by
    refine hd.pending x s' s₁ hx ?_
    rcases ha with ⟨scan, hr, -⟩ | ha
    · cases hr
    · simpa using ha
  have hup := hd.upcoming
  have hfinished := hd.finished
  dsimp only at hup hfinished ⊢
  cases hps : drawn ++ fresh with
  | nil =>
    obtain ⟨rfl, rfl⟩ := List.append_eq_nil_iff.mp hps
    obtain rfl : place = none := hfinished (by simpa using hfan) rfl
    refine ⟨hf, fun x hx ha => ?_⟩
    rcases hpend x s' hx ha with hp | ⟨slice, bucket, he, -⟩
    · cases hp
    · cases he
  | cons p ps =>
    rw [hps] at hup
    obtain ⟨hp, rfl, hup⟩ := hup
    obtain ⟨hspan, hplaces⟩ := span_le hp (Nat.zero_le _)
    have hlow : low ≤ p.rank v * Partition.span := hlow
    refine Operation.keeps_bind.mpr ((PartitionScan.start_keeps hk hl).mono ?_)
    rintro scan s'' ⟨hscan, hahead⟩
    refine ⟨⟨rfl, hs, hf, by omega, _, hup, p, 0, hp, rfl, hscan, Nat.zero_le _, by omega⟩, ?_⟩
    intro x hx ha
    rcases hpend x s'' hx ha with hmem | hplace
    · rw [hps] at hmem
      rcases List.mem_cons.mp hmem with he | hmem
      · exact .inl ⟨scan, rfl, hscan.partition.trans he.symm, hahead x (he ▸ hx.stored)⟩
      · exact .inr (.inl hmem)
    · exact .inr (.inr hplace)

theorem step_keeps (hk : k.AllowsReads) (hl : 0 < v.pageSize) (hfan : 0 < v.fanOut)
    (hT : ∀ t slice, k.clock t → slice ≤ v.allocator.sliceOf t → T slice)
    (h : b.From v q T s low) : (b.step v).Keeps k (Stepped k v q T s low b) s := by
  cases hr : b.reading with
  | none => exact step_drawing hk hl hfan hT h hr
  | some scan => exact step_reading hk hl h hr

-- ---------------------------------------------------------------------------
-- One pull
-- ---------------------------------------------------------------------------

def Pulled (k : Contract) (v : View) (q : QueueName) (T : Slice → Prop) (s : Store) (low : Nat)
    (b : Browse) : Option (Except Error Item) × Browse → Store → Prop
  | (none, b'), s' => b'.failures = [] ∧ ∀ x, Sought k v q s s' x → ¬b.Ahead v x
  | (some (.ok x), b'), s' => Yields k v q T s low b x b' s'
  | (some (.error _), _), _ => False

theorem Sought.later (h : Sought k v q s s'' x) (hg : s.Grows s') : Sought k v q s' s'' x :=
  ⟨hg.items _ x h.stored, h.queue, h.bucket, h.timely, h.live⟩

theorem Sought.sooner (h : Sought k v q s s'' x) (hg : s'.Grows s'') : Sought k v q s s' x :=
  ⟨h.stored, h.queue, h.bucket, h.timely, fun ht => h.live (hg.tombstones _ _ ht)⟩

theorem Pulled.after_step {b₁ : Browse} {s₁ : Store}
    (hahead : ∀ x, Sought k v q s s₁ x → b.Ahead v x → b₁.Ahead v x) (hg : s.Grows s₁)
    (hg' : s₁.Grows s') (h : Pulled k v q T s₁ (low + 1) b₁ r s') :
    Pulled k v q T s low b r s' := by
  obtain ⟨_ | e | x, b'⟩ := r
  · exact ⟨h.1, fun x hx ha => h.2 x (hx.later hg) (hahead x (hx.sooner hg') ha)⟩
  · exact h
  · refine ⟨h.stored, h.visited, fun ht => h.live (hg.tombstones _ _ ht), ?_, h.rest, ?_⟩
    · exact Nat.le_of_succ_le h.low_le
    · exact fun y hy ha => h.ahead y (hy.later hg) (hahead y (hy.sooner hg') ha)

/-- No browse runs out of steps, even with some rows waiting at its end. -/
theorem lookahead_lt_patience (v : View) (low : Nat) :
    v.places * Partition.span + lookahead < low + patience := by
  have hcount : v.allocator.bucketCount.toNat + 1 ≤ 2 ^ 32 := v.allocator.bucketCount.toNat_lt
  have hroom : lookahead < 2 ^ 64 * Partition.span := by decide
  calc v.places * Partition.span + lookahead
      < v.places * Partition.span + 2 ^ 64 * Partition.span := Nat.add_lt_add_left hroom _
    _ = 2 ^ 64 * (v.allocator.bucketCount.toNat + 1) * Partition.span := by
        rw [View.places, ← Nat.add_mul, Nat.mul_add, Nat.mul_one]
    _ ≤ 2 ^ 64 * 2 ^ 32 * Partition.span :=
        Nat.mul_le_mul_right _ (Nat.mul_le_mul_left _ hcount)
    _ ≤ low + patience := Nat.le_add_left _ _

theorem lt_patience (v : View) (low : Nat) : v.places * Partition.span < low + patience :=
  Nat.lt_of_le_of_lt (Nat.le_add_right _ lookahead) (lookahead_lt_patience v low)

theorem advance_keeps (hk : k.AllowsReads) (hl : 0 < v.pageSize) (hfan : 0 < v.fanOut)
    (hT : ∀ t slice, k.clock t → slice ≤ v.allocator.sliceOf t → T slice)
    (h : b.From v q T s low) (hsteps : v.places * Partition.span < low + steps) :
    (b.advance v steps).Keeps k (Pulled k v q T s low b) s := by
  induction steps generalizing s low b with
  | zero => exact absurd h.bound (Nat.not_le.mpr hsteps)
  | succ steps ih =>
    refine Operation.keeps_bind.mpr (((step_keeps hk hl hfan hT h).grows hk.toOrderly).mono ?_)
    rintro ⟨(e | x) | _ | _, b'⟩ s' ⟨hstep, hg⟩
    · exact hstep
    · exact hstep
    · obtain ⟨hrest, hahead⟩ := hstep
      refine ((ih hrest (by omega)).grows hk.toOrderly).mono ?_
      exact fun r s'' ⟨hp, hg'⟩ => hp.after_step hahead hg hg'
    · exact hstep

/-- A pull yields the next item that is to be found. -/
theorem pull_keeps (hk : k.AllowsReads) (hl : 0 < v.pageSize) (hfan : 0 < v.fanOut)
    (hT : ∀ t slice, k.clock t → slice ≤ v.allocator.sliceOf t → T slice)
    (h : b.From v q T s low) : (b.pull v).Keeps k (Pulled k v q T s low b) s :=
  advance_keeps hk hl hfan hT h (lt_patience v low)

-- ---------------------------------------------------------------------------
-- Opening
-- ---------------------------------------------------------------------------

def opened (q : QueueName) : Option Slice → Browse
  | none => empty q
  | some start => startingAt q start

/-- The number that the browse begins at; that of a queue that is not open is behind all. -/
def floor (v : View) : Option Slice → Nat
  | none => v.places * Partition.span
  | some start => v.rank start 0 * Partition.span

theorem ofQueue_keeps (hk : k.AllowsReads) : (ofQueue q).run.Keeps k
    (fun result s' => result = .ok (opened q (s'.start q)) ∧ s.Grows s') s := by
  refine Attempt.keeps_bind.mpr (Attempt.keeps_lift.mpr (Operation.keeps_report.mpr ?_))
  refine Attempt.keeps_bind.mpr (Attempt.keeps_call.mpr fun met ho _ => ⟨hk.own_read trivial, ?_⟩)
  have hg := hk.grows ho
  cases hs : met.start q with
  | none =>
    simp only [Store.perform, hs]
    refine Attempt.keeps_bind.mpr (Attempt.keeps_inSpan.mpr (Attempt.keeps_lift.mpr ?_))
    exact Operation.keeps_event.mpr ⟨by rw [hs]; rfl, hg⟩
  | some start =>
    simp only [Store.perform, hs]
    refine Attempt.keeps_bind.mpr (Attempt.keeps_lift.mpr (Operation.keeps_report.mpr ?_))
    exact ⟨by rw [hs]; rfl, hg⟩

theorem from_opened (v : View) (q : QueueName) (T : Slice → Prop) (s : Store)
    (start : Option Slice) : (opened q start).From v q T s (floor v start) := by
  cases start with
  | none => exact ⟨rfl, rfl, rfl, Nat.le_refl _, v.places, trivial, Nat.le_refl _⟩
  | some start =>
    have hpos := v.allocator.bucketCount_pos
    refine ⟨rfl, rfl, rfl, ?_, v.rank start 0, ⟨hpos, rfl⟩, Nat.le_refl _⟩
    exact Nat.mul_le_mul_right _ (Nat.le_of_lt (View.rank_lt_places hpos))

theorem start_le_of_floor {start : Option Slice} (hx : x.partition.Visited v q T)
    (h : floor v start ≤ v.spot x) : ∃ slice, start = some slice ∧ slice ≤ x.slice := by
  obtain ⟨hspan, hplaces⟩ := span_le hx (Nat.le_of_lt x.key.bits_lt)
  have hspot : v.spot x = x.partition.rank v * Partition.span + 1 + x.key.bits := rfl
  cases start with
  | none =>
    have h : v.places * Partition.span ≤ v.spot x := h
    omega
  | some slice =>
    refine ⟨slice, rfl, ?_⟩
    by_cases hle : slice ≤ x.slice
    · exact hle
    · have hlt : x.partition.rank v < v.rank slice 0 :=
        View.rank_lt_of_slice hx.bucket (Slice.not_le.mp hle)
      have hmul : (x.partition.rank v + 1) * Partition.span ≤ v.rank slice 0 * Partition.span :=
        Nat.mul_le_mul_right _ hlt
      have h : v.rank slice 0 * Partition.span ≤ v.spot x := h
      omega

theorem ahead_opened (v : View) (q : QueueName) (h : start ≤ x.slice) :
    (opened q (some start)).Ahead v x :=
  .inr (.inr ⟨start, 0, rfl, View.rank_first_le h⟩)

end

end Browse

end SpoolIndex
