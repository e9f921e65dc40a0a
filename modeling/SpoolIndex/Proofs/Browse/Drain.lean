import SpoolIndex.Proofs.Browse.Outage
import SpoolIndex.Proofs.Browse.Pull

/-!
# What a browse comes to while some lookups fail

The partitions that a browse visits are a list (`View.range`), and so are the entries
that an outage lets it come to, items and failures in the order of the partitions
(`Outage.entries`). `Outage.Streams` says which entries are left. A step takes at most
the first of them (`Outage.step_streams`), a pull hands on the first that the policy
lets through (`Outage.advance_streams`), and pulls to the end come to them all
(`Outage.pullMany_skipping`) or to those up to the first failure
(`Outage.pullMany_failFast`).
-/

namespace SpoolIndex

-- ---------------------------------------------------------------------------
-- The partitions of a browse
-- ---------------------------------------------------------------------------

def Slice.upTo (start last : Slice) : List Slice :=
  (List.range (last.index - start.index + 1).toNat).map fun (n : Nat) => .clamp (start.index + n)

theorem Slice.upTo_of_lt {start last : Slice} (h : last < start) : start.upTo last = [] := by
  rw [Slice.lt_def] at h
  have hzero : (last.index - start.index + 1).toNat = 0 := by omega
  rw [upTo, hzero]
  rfl

theorem Slice.upTo_of_le {start last : Slice} (h : start ≤ last) : start.upTo last =
    start :: if start < Slice.max then start.next.upTo last else [] := by
  rw [Slice.le_def] at h
  have hlast := last.le_highest
  have hlow := start.lowest_le
  have hclamp : Slice.clamp (start.index + (0 : Nat)) = start := by
    refine Slice.ext_index ?_
    rw [Slice.index_clamp]
    omega
  split
  · rename_i hmax
    have hnext := Slice.index_next hmax
    have hcount : (last.index - start.index + 1).toNat =
      (last.index - start.next.index + 1).toNat + 1 := by omega
    rw [upTo, hcount, List.range_succ_eq_map, List.map_cons, hclamp, List.map_map, upTo]
    congr 1
    refine List.map_congr_left fun n _ => ?_
    simp only [Function.comp, hnext]
    congr 1
    omega
  · rename_i hmax
    rw [Slice.lt_def, Slice.index_max] at hmax
    have hone : (last.index - start.index + 1).toNat = 1 := by omega
    rw [upTo, hone]
    simp only [List.range_one, List.map_cons, hclamp, List.map_nil]

def View.buckets (v : View) (q : QueueName) (slice : Slice) : List Partition :=
  (List.range v.allocator.bucketCount.toNat).map fun bucket => ⟨q, slice, ⟨UInt32.ofNat bucket⟩⟩

def View.range (v : View) (q : QueueName) (start last : Slice) : List Partition :=
  (start.upTo last).flatMap (v.buckets q)

namespace Browse

section
variable {v : View} {q : QueueName} {last slice : Slice} {bucket : UInt32} {ps : List Partition}

/-- The cursor comes to these partitions, with the last slice as it is. -/
inductive Comes (v : View) (q : QueueName) (last : Slice) :
    Option (Slice × UInt32) → List Partition → Prop
  | finished : Comes v q last none []
  | beyond {slice : Slice} {bucket : UInt32} (h : last < slice) :
    Comes v q last (some (slice, bucket)) []
  | visit {slice : Slice} {bucket : UInt32} {ps : List Partition} (h : ¬last < slice)
    (hrest : Comes v q last (following v slice bucket) ps) :
    Comes v q last (some (slice, bucket)) (⟨q, slice, ⟨bucket⟩⟩ :: ps)

theorem comes_buckets (hle : ¬last < slice)
    (hrest : Comes v q last (if slice < Slice.max then some (slice.next, 0) else none) ps)
    (left : Nat) (hleft : bucket.toNat + left + 1 = v.allocator.bucketCount.toNat) :
    Comes v q last (some (slice, bucket))
      ((List.range' bucket.toNat (left + 1)).map (fun n => ⟨q, slice, ⟨UInt32.ofNat n⟩⟩) ++
        ps) := by
  have hcount := v.allocator.bucketCount.toNat_lt
  induction left generalizing bucket with
  | zero =>
    rw [List.range'_one, List.map_singleton, UInt32.ofNat_toNat]
    refine .visit hle ?_
    rw [following, if_neg (by omega)]
    exact hrest
  | succ left ih =>
    have hnext : (bucket + 1).toNat = bucket.toNat + 1 := by
      rw [UInt32.toNat_add, UInt32.toNat_one]
      omega
    rw [List.range'_succ, List.map_cons, UInt32.ofNat_toNat, ← hnext]
    refine .visit hle ?_
    rw [following, if_pos (by omega)]
    exact ih (by omega)

theorem comes_range (start last : Slice) :
    Comes v q last (some (start, 0)) (v.range q start last) := by
  by_cases hlt : last < start
  · rw [View.range, Slice.upTo_of_lt hlt]
    exact .beyond hlt
  · have hpos := UInt32.lt_iff_toNat_lt.mp v.allocator.bucketCount_pos
    rw [View.range, Slice.upTo_of_le (Slice.not_lt.mp hlt), List.flatMap_cons, View.buckets,
      List.range_eq_range']
    rw [UInt32.toNat_zero] at hpos
    obtain ⟨left, hcount⟩ : ∃ left, v.allocator.bucketCount.toNat = left + 1 :=
      ⟨v.allocator.bucketCount.toNat - 1, by omega⟩
    rw [hcount]
    refine comes_buckets hlt ?_ left (by rw [UInt32.toNat_zero]; omega)
    by_cases hmax : start < Slice.max
    · simp only [hmax, ↓reduceIte]
      exact comes_range start.next last
    · simp only [hmax, ↓reduceIte]
      exact .finished
termination_by (Slice.highest - start.index).toNat
decreasing_by
  have hnext := Slice.index_next hmax
  have hle := start.next.le_highest
  omega

theorem draw_comes {w : Outage} {place : Option (Slice × UInt32)}
    (h : Comes v q (v.allocator.sliceOf w.clock) place ps) (found : List Partition) (room : Nat) :
    ∃ fresh rest place',
      (draw v q room place found).eval w.reply = (found.reverse ++ fresh, place') ∧
        ps = fresh ++ rest ∧ Comes v q (v.allocator.sliceOf w.clock) place' rest ∧
        (0 < room → fresh = [] → rest = []) := by
  induction room generalizing place found ps with
  | zero => exact ⟨[], ps, place, by simp [draw], rfl, h, fun h => absurd h (Nat.lt_irrefl 0)⟩
  | succ room ih =>
    have hnow : Operation.now.eval w.reply = w.clock := rfl
    cases h with
    | finished => exact ⟨[], [], none, by simp [draw], rfl, .finished, fun _ _ => rfl⟩
    | @beyond slice bucket hlt =>
      refine ⟨[], [], none, ?_, rfl, .finished, fun _ _ => rfl⟩
      rw [draw, Operation.eval_bind, hnow, if_pos hlt]
      simp
    | @visit slice bucket ps hle hrest =>
      obtain ⟨fresh, rest, place', hdraw, rfl, hcomes, -⟩ :=
        ih hrest (⟨q, slice, ⟨bucket⟩⟩ :: found)
      refine ⟨⟨q, slice, ⟨bucket⟩⟩ :: fresh, rest, place', ?_, rfl, hcomes, fun _ h => nomatch h⟩
      rw [draw, Operation.eval_bind, hnow, if_neg hle, hdraw]
      simp

end

end Browse

namespace Outage

-- ---------------------------------------------------------------------------
-- The entries of a browse
-- ---------------------------------------------------------------------------

section
variable (w : Outage) (v : View)

def entriesOf (p : Partition) (rows : List (Except Error Item)) :
    List (Except PartitionFailure Item) :=
  (w.outcome rows).1.map .ok ++ (w.outcome rows).2.toList.map fun e => .error ⟨p, e⟩

def entries (p : Partition) : List (Except PartitionFailure Item) :=
  w.entriesOf p (w.rowsOf v p (w.visits v p))

def handed (entry : Except PartitionFailure Item) : Except Error Item :=
  entry.mapError fun f => .partition f.partition f.error

@[simp]
theorem handed_ok (x : Item) : handed (.ok x) = .ok x := rfl

@[simp]
theorem handed_error (f : PartitionFailure) :
    handed (.error f) = .error (.partition f.partition f.error) := rfl

end

section
variable {w : Outage} {v : View} {q : QueueName} {p : Partition}

theorem length_rowsOf_pageVisits (rows : List Item) (room : Nat) :
    (w.rowsOf v p (pageVisits v.pageSize room rows)).length ≤ rows.length + 1 := by
  induction rows generalizing room with
  | nil => exact Nat.zero_le _
  | cons x rows ih =>
    rw [pageVisits, rowsOf, List.length_cons, List.length_cons]
    split
    · rw [rowsOf]
      split
      · simp
      · exact Nat.succ_le_succ (ih v.pageSize)
    · exact Nat.succ_le_succ (ih _)

theorem length_rows_le (hs : w.store.Proper) :
    (w.rowsOf v p (w.visits v p)).length ≤ Key.count + 1 := by
  have hitems := length_le_of_sorted (hs.sorted p) (fun _ _ => Nat.zero_le _) (Nat.zero_le _)
  rw [visits, rowsOf]
  split
  · simp
  · have hrows := length_rowsOf_pageVisits (w := w) (v := v) (p := p) (w.store.items p) v.pageSize
    omega

-- ---------------------------------------------------------------------------
-- Steps of a scan
-- ---------------------------------------------------------------------------

/-- What still comes of a scan with these rows left. -/
def due (w : Outage) (p : Partition) (scan : PartitionScan) (rows : List (Except Error Item)) :
    List (Except PartitionFailure Item) :=
  if scan.failed then [] else w.entriesOf p rows

inductive ScanStepped (w : Outage) (v : View) (p : Partition) (scan : PartitionScan)
    (rows : List (Except Error Item)) : Progress (Except Error Item) × PartitionScan → Prop
  | ended {scan' : PartitionScan} (h : w.due p scan rows = []) :
    ScanStepped w v p scan rows (.ended, scan')
  | working {scan' : PartitionScan} {rows' : List (Except Error Item)} (h : w.Scans v p scan' rows')
    (hdue : w.due p scan rows = w.due p scan' rows') (hlt : rows'.length < rows.length) :
    ScanStepped w v p scan rows (.working, scan')
  | yields {scan' : PartitionScan} {rows' : List (Except Error Item)}
    {entry : Except PartitionFailure Item} (h : w.Scans v p scan' rows')
    (hdue : w.due p scan rows = entry :: w.due p scan' rows') (hlt : rows'.length < rows.length) :
    ScanStepped w v p scan rows (.yield (handed entry), scan')

theorem deliver_steps {scan scan' : PartitionScan} {rows : List (Except Error Item)}
    (entry : Except PartitionFailure Item) (h : w.Scans v p scan' rows')
    (hfailed : scan'.failed = scan.failed) (hlt : rows'.length < rows.length)
    (hentries : w.entriesOf p rows = entry :: if entry.isOk then w.entriesOf p rows' else []) :
    w.ScanStepped v p scan rows (scan'.deliver (handed entry)) := by
  obtain ⟨p', rest, waiting, failed⟩ := scan'
  obtain rfl : failed = scan.failed := hfailed
  cases hf : scan.failed with
  | true => exact .ended (by simp [due, hf])
  | false =>
    simp only [PartitionScan.deliver, Bool.false_eq_true, ↓reduceIte]
    refine .yields ⟨h.partition, h.rows⟩ ?_ hlt
    simp only [due, hf, hentries]
    cases entry <;> rfl

theorem scan_steps {scan : PartitionScan} {rows : List (Except Error Item)} (hs : w.store.Proper)
    (hl : 0 < v.pageSize) (h : w.Scans v p scan rows) :
    w.ScanStepped v p scan rows ((scan.step v).eval w.reply) := by
  obtain ⟨scan', hscan, hfailed, hstep⟩ := step_scans hs hl h
  rw [hstep]
  cases rows with
  | nil => exact .ended (by simp [due, entriesOf, outcome])
  | cons row rows =>
    have hlt : rows.length < (row :: rows).length := Nat.lt_succ_self _
    cases row with
    | error e => exact deliver_steps (.error ⟨p, e⟩) hscan hfailed hlt rfl
    | ok x =>
      dsimp only
      cases hlook : w.lookupFault x.queue x.key with
      | some e =>
        refine deliver_steps (.error ⟨p, e⟩) hscan hfailed hlt ?_
        simp [entriesOf, outcome, hlook, Except.isOk, Except.toBool]
      | none =>
        cases hlive : w.live? (.look x) with
        | none =>
          exact .working hscan (by simp [due, hfailed, entriesOf, outcome, hlook, hlive]) hlt
        | some y =>
          refine deliver_steps (.ok y) hscan hfailed hlt ?_
          simp [entriesOf, outcome, hlook, hlive, Except.isOk, Except.toBool]

-- ---------------------------------------------------------------------------
-- Steps of a browse
-- ---------------------------------------------------------------------------

/-- What still comes of a browse, in less than `n` steps. -/
structure Streams (w : Outage) (v : View) (q : QueueName) (b : Browse)
    (entries : List (Except PartitionFailure Item)) (n : Nat) : Prop where
  queue : b.queue = q
  rest : ∃ coming current, Browse.Comes v q (v.allocator.sliceOf w.clock) b.cursor coming ∧
    entries = current ++ (b.drawn ++ coming).flatMap (w.entries v) ∧
    match b.reading with
    | none => current = [] ∧ (b.drawn ++ coming).length * (Key.count + 3) < n
    | some scan => ∃ p rows, w.Scans v p scan rows ∧ current = w.due p scan rows ∧
        rows.length + 1 + (b.drawn ++ coming).length * (Key.count + 3) < n

/-- A step hands on the first of the entries, or gets nearer to it, or ends with none left. -/
inductive Stepped (w : Outage) (v : View) (q : QueueName) (b : Browse) :
    List (Except PartitionFailure Item) → Nat → Progress (Except Error Item) × Browse → Prop
  | ended {b' : Browse} {n : Nat} (hf : b'.failures = b.failures) :
    Stepped w v q b [] n (.ended, b')
  | working {b' : Browse} {entries : List (Except PartitionFailure Item)} {n : Nat}
    (h : w.Streams v q b' entries n) (hs : b'.stopped = b.stopped)
    (hf : b'.failures = b.failures) : Stepped w v q b entries (n + 1) (.working, b')
  | hands {b' : Browse} {entry : Except PartitionFailure Item}
    {entries : List (Except PartitionFailure Item)} {n : Nat} (h : w.Streams v q b' entries n)
    (hs : b'.stopped = b.stopped) (hf : b'.failures = b.failures) :
    Stepped w v q b (entry :: entries) (n + 1) ((b'.deliver v (handed entry)).eval w.reply)

theorem step_streams {b : Browse} {entries : List (Except PartitionFailure Item)}
    (hs : w.store.Proper) (hl : 0 < v.pageSize) (hfan : 0 < v.fanOut)
    (h : w.Streams v q b entries (n + 1)) :
    w.Stepped v q b entries (n + 1) ((b.step v).eval w.reply) := by
  obtain ⟨q', cursor, drawn, reading, stopped, failures⟩ := b
  obtain ⟨rfl, coming, current, hcomes, rfl, hreading⟩ := h
  cases reading with
  | some scan =>
    obtain ⟨p, rows, hscans, rfl, hlt⟩ := hreading
    have hstep := scan_steps hs hl hscans
    rw [Browse.step, Operation.eval_bind]
    generalize (scan.step v).eval w.reply = r at hstep ⊢
    cases hstep with
    | ended hdue =>
      rw [hdue]
      refine .working ⟨rfl, coming, [], hcomes, rfl, rfl, ?_⟩ rfl rfl
      dsimp only at hlt ⊢
      omega
    | working hscans' hdue hlt' =>
      rw [hdue]
      refine .working ⟨rfl, coming, _, hcomes, rfl, p, _, hscans', rfl, ?_⟩ rfl rfl
      dsimp only at hlt ⊢
      omega
    | @yields scan' _ entry hscans' hdue hlt' =>
      rw [hdue]
      dsimp only at hlt
      have hnext : w.Streams v q' ⟨q', cursor, drawn, some scan', stopped, failures⟩ _ n :=
        ⟨rfl, coming, _, hcomes, rfl, p, _, hscans', rfl, by dsimp only; omega⟩
      exact .hands hnext rfl rfl
  | none =>
    obtain ⟨rfl, hlt⟩ := hreading
    obtain ⟨fresh, rest, place', hdraw, rfl, hcomes', hempty⟩ :=
      Browse.draw_comes hcomes [] (v.fanOut - drawn.length)
    dsimp only at hlt hcomes'
    rw [Browse.step, Operation.eval_bind, hdraw]
    dsimp only [List.reverse_nil, List.nil_append]
    rw [← List.append_assoc]
    cases hps : drawn ++ fresh with
    | nil =>
      obtain ⟨rfl, rfl⟩ := List.append_eq_nil_iff.mp hps
      obtain rfl : rest = [] := hempty (by simpa using hfan) rfl
      exact .ended rfl
    | cons p ps =>
      obtain ⟨hscans, hfailed⟩ := start_scans (p := p) hs hl
      have hrows := length_rows_le (v := v) (p := p) hs
      rw [← List.append_assoc, hps, List.cons_append, List.length_cons, Nat.add_mul,
        Nat.one_mul] at hlt
      rw [List.cons_append, List.flatMap_cons]
      dsimp only
      rw [Operation.eval_bind]
      generalize (PartitionScan.start v p).eval w.reply = scan at hscans hfailed ⊢
      have hnext : w.Streams v q' ⟨q', place', ps, some scan, stopped, failures⟩
          (w.entries v p ++ (ps ++ rest).flatMap (w.entries v)) n :=
        ⟨rfl, rest, _, hcomes', rfl, p, _, hscans, by simp [due, hfailed, entries],
          by dsimp only; omega⟩
      exact .working hnext rfl rfl

-- ---------------------------------------------------------------------------
-- One pull
-- ---------------------------------------------------------------------------

variable {b : Browse} {entries : List (Except PartitionFailure Item)}

theorem Streams.pos (h : w.Streams v q b entries n) : 0 < n := by
  obtain ⟨-, coming, current, -, -, hreading⟩ := h
  cases hr : b.reading with
  | none =>
    rw [hr] at hreading
    exact Nat.zero_lt_of_lt hreading.2
  | some scan =>
    rw [hr] at hreading
    obtain ⟨p, rows, -, -, hlt⟩ := hreading
    exact Nat.zero_lt_of_lt hlt

def handingOn (v : View) (steps : Nat) (b : Browse) (entry : Except PartitionFailure Item) :
    Operation (Option (Except Error Item) × Browse) := do
  match ← b.deliver v (handed entry) with
  | (.yield result, b) => return (some result, b)
  | (.working, b) => b.advance v steps
  | (.ended, b) => return (none, b)

inductive Advanced (w : Outage) (v : View) (q : QueueName) (b : Browse) (n : Nat) :
    List (Except PartitionFailure Item) → Option (Except Error Item) × Browse → Prop
  | ended {b' : Browse} (hf : b'.failures = b.failures) : Advanced w v q b n [] (none, b')
  | hands {b' : Browse} {entry : Except PartitionFailure Item}
    {entries : List (Except PartitionFailure Item)} {m steps : Nat}
    (h : w.Streams v q b' entries m) (hlt : m < n) (hle : m ≤ steps)
    (hs : b'.stopped = b.stopped) (hf : b'.failures = b.failures) :
    Advanced w v q b n (entry :: entries) ((handingOn v steps b' entry).eval w.reply)

theorem Advanced.after {b' : Browse} (h : w.Advanced v q b' n entries r)
    (hs : b'.stopped = b.stopped) (hf : b'.failures = b.failures) :
    w.Advanced v q b (n + 1) entries r := by
  cases h with
  | ended hf' => exact .ended (hf'.trans hf)
  | hands h hlt hle hs' hf' =>
    exact .hands h (Nat.lt_succ_of_lt hlt) hle (hs'.trans hs) (hf'.trans hf)

theorem advance_streams (hs : w.store.Proper) (hl : 0 < v.pageSize) (hfan : 0 < v.fanOut)
    (h : w.Streams v q b entries n) (hn : n ≤ steps) :
    w.Advanced v q b n entries ((b.advance v steps).eval w.reply) := by
  induction steps generalizing b n with
  | zero => exact absurd h.pos (Nat.not_lt.mpr hn)
  | succ steps ih =>
    obtain ⟨n, rfl⟩ : ∃ m, n = m + 1 := ⟨n - 1, (Nat.sub_add_cancel h.pos).symm⟩
    have hstep := step_streams hs hl hfan h
    rw [Browse.advance, Operation.eval_bind]
    generalize (b.step v).eval w.reply = r at hstep ⊢
    cases hstep with
    | ended hf => exact .ended hf
    | working hnext hstopped hf =>
      exact (ih hnext (Nat.le_of_succ_le_succ hn)).after hstopped hf
    | @hands _ entry _ _ hnext hstopped hf =>
      have hhands : w.Advanced v q b (n + 1) (entry :: _) _ :=
        .hands hnext (Nat.lt_succ_self n) (Nat.le_of_succ_le_succ hn) hstopped hf
      rw [handingOn, Operation.eval_bind] at hhands
      exact hhands

-- ---------------------------------------------------------------------------
-- Browses that go on after failures
-- ---------------------------------------------------------------------------

def itemsOf (entries : List (Except PartitionFailure Item)) : List Item :=
  entries.filterMap fun
    | .ok x => some x
    | .error _ => none

def failuresOf (entries : List (Except PartitionFailure Item)) : List PartitionFailure :=
  entries.filterMap fun
    | .ok _ => none
    | .error f => some f

theorem handingOn_ok (hs : b.stopped = false) :
    (handingOn v steps b (.ok x)).eval w.reply = (some (.ok x), b) := by
  rw [handingOn, Operation.eval_bind]
  simp only [handed_ok, Browse.deliver_ok hs, Operation.eval_bind]
  rfl

theorem handingOn_skipping (hp : v.failurePolicy = .skipAndContinue) (hs : b.stopped = false) :
    (handingOn v steps b (.error f)).eval w.reply =
      (Browse.advance v steps { b with failures := b.failures ++ [f] }).eval w.reply := by
  rw [handingOn, Operation.eval_bind]
  simp only [handed_error, Browse.deliver, hs, hp, Bool.false_eq_true, ↓reduceIte,
    Operation.eval_bind]
  rfl

theorem handingOn_failFast (hp : v.failurePolicy = .failFast) (hs : b.stopped = false) :
    (handingOn v steps b (.error f)).eval w.reply =
      (some (.error (.partition f.partition f.error)), { b with stopped := true }) := by
  rw [handingOn, Operation.eval_bind]
  simp only [handed_error, Browse.deliver, hs, hp, Bool.false_eq_true, ↓reduceIte,
    Operation.eval_bind]
  rfl

theorem handingOn_stopped (hs : b.stopped = true) :
    (handingOn v steps b entry).eval w.reply = (none, b) := by
  rw [handingOn, Operation.eval_bind]
  simp only [Browse.deliver, hs, ↓reduceIte]
  rfl

/-- A pull comes to the first item, and puts the failures before it aside. -/
inductive Skipped (w : Outage) (v : View) (q : QueueName) (b : Browse) (n : Nat)
    (entries : List (Except PartitionFailure Item)) : Option (Except Error Item) × Browse → Prop
  | ended {b' : Browse} (hitems : itemsOf entries = [])
    (hf : b'.failures = b.failures ++ failuresOf entries) : Skipped w v q b n entries (none, b')
  | yields {b' : Browse} {x : Item} {rest : List (Except PartitionFailure Item)} {m : Nat}
    (h : w.Streams v q b' rest m) (hlt : m < n) (hs : b'.stopped = false)
    (hitems : itemsOf entries = x :: itemsOf rest)
    (hf : b'.failures ++ failuresOf rest = b.failures ++ failuresOf entries) :
    Skipped w v q b n entries (some (.ok x), b')

theorem advance_skipping (hs : w.store.Proper) (hl : 0 < v.pageSize) (hfan : 0 < v.fanOut)
    (hp : v.failurePolicy = .skipAndContinue) (hb : b.stopped = false)
    (h : w.Streams v q b entries n) (hn : n ≤ steps) :
    w.Skipped v q b n entries ((b.advance v steps).eval w.reply) := by
  induction entries generalizing b n steps with
  | nil =>
    have hadv := advance_streams hs hl hfan h hn
    generalize (b.advance v steps).eval w.reply = r at hadv ⊢
    cases hadv with
    | ended hf => exact .ended rfl (by rw [hf]; exact (List.append_nil _).symm)
  | cons entry entries ih =>
    have hadv := advance_streams hs hl hfan h hn
    generalize (b.advance v steps).eval w.reply = r at hadv ⊢
    cases hadv with
    | @hands b' _ _ m steps' hnext hlt hle hb' hf =>
      rw [hb] at hb'
      cases entry with
      | ok x =>
        rw [handingOn_ok hb']
        exact .yields hnext hlt hb' rfl (by rw [hf]; rfl)
      | error f =>
        rw [handingOn_skipping hp hb']
        have hnext : w.Streams v q { b' with failures := b'.failures ++ [f] } entries m :=
          ⟨hnext.queue, hnext.rest⟩
        have hrunning : Browse.stopped { b' with failures := b'.failures ++ [f] } = false := hb'
        -- the pull goes on with the steps that are left, which are enough for what still comes
        have hskip := ih hrunning hnext hle
        generalize Operation.eval w.reply _ = r at hskip ⊢
        have hfailures : b'.failures ++ [f] ++ failuresOf entries =
            b.failures ++ failuresOf (.error f :: entries) := by
          rw [hf, List.append_assoc]
          rfl
        cases hskip with
        | ended hitems hf' => exact .ended hitems (hf'.trans hfailures)
        | yields hrest hlt' hs' hitems hf' =>
          exact .yields hrest (Nat.lt_trans hlt' hlt) hs' hitems (hf'.trans hfailures)

theorem pullMany_skipping (hs : w.store.Proper) (hl : 0 < v.pageSize) (hfan : 0 < v.fanOut)
    (hp : v.failurePolicy = .skipAndContinue) (hb : b.stopped = false)
    (h : w.Streams v q b entries n) (hn : n ≤ limit) (hpatience : n ≤ Browse.patience)
    (found : List (Except Error Item)) : ∃ b', (b.pullMany v limit found).eval w.reply =
        ((found.reverse ++ (itemsOf entries).map .ok, true), b') ∧
      b'.failures = b.failures ++ failuresOf entries := by
  induction limit generalizing b entries n found with
  | zero => exact absurd h.pos (Nat.not_lt.mpr hn)
  | succ limit ih =>
    have hpull := advance_skipping hs hl hfan hp hb h hpatience
    rw [Browse.pullMany, Operation.eval_bind, Browse.pull]
    generalize (b.advance v Browse.patience).eval w.reply = r at hpull ⊢
    cases hpull with
    | ended hitems hf => exact ⟨_, by simp [hitems], hf⟩
    | yields hnext hlt hb' hitems hf =>
      obtain ⟨b'', heval, hf'⟩ := ih hb' hnext (by omega) (by omega) (.ok _ :: found)
      exact ⟨b'', by rw [hitems]; simpa using heval, hf'.trans hf⟩

-- ---------------------------------------------------------------------------
-- Browses that end at the first failure
-- ---------------------------------------------------------------------------

def upToFailure : List (Except PartitionFailure Item) → List (Except Error Item)
  | [] => []
  | .ok x :: entries => .ok x :: upToFailure entries
  | .error f :: _ => [.error (.partition f.partition f.error)]

theorem pull_stopped (hs : w.store.Proper) (hl : 0 < v.pageSize) (hfan : 0 < v.fanOut)
    (hb : b.stopped = true) (h : w.Streams v q b entries n) (hpatience : n ≤ Browse.patience) :
    ∃ b', (b.pull v).eval w.reply = (none, b') ∧ b'.failures = b.failures := by
  have hadv := advance_streams hs hl hfan h hpatience
  rw [Browse.pull]
  generalize (b.advance v Browse.patience).eval w.reply = r at hadv ⊢
  cases hadv with
  | ended hf => exact ⟨_, rfl, hf⟩
  | hands hnext hlt hle hb' hf =>
    rw [handingOn_stopped (hb'.trans hb)]
    exact ⟨_, rfl, hf⟩

theorem pullMany_failFast (hs : w.store.Proper) (hl : 0 < v.pageSize) (hfan : 0 < v.fanOut)
    (hp : v.failurePolicy = .failFast) (hb : b.stopped = false)
    (h : w.Streams v q b entries n) (hn : n ≤ limit) (hpatience : n ≤ Browse.patience)
    (found : List (Except Error Item)) : ∃ b', (b.pullMany v limit found).eval w.reply =
        ((found.reverse ++ upToFailure entries, true), b') ∧ b'.failures = b.failures := by
  induction limit generalizing b entries n found with
  | zero => exact absurd h.pos (Nat.not_lt.mpr hn)
  | succ limit ih =>
    have hadv := advance_streams hs hl hfan h hpatience
    rw [Browse.pullMany, Operation.eval_bind, Browse.pull]
    generalize (b.advance v Browse.patience).eval w.reply = r at hadv ⊢
    cases hadv with
    | ended hf => exact ⟨_, by simp [upToFailure], hf⟩
    | @hands b' entry _ m steps hnext hlt hle hb' hf =>
      rw [hb] at hb'
      cases entry with
      | ok x =>
        rw [handingOn_ok hb']
        obtain ⟨b'', heval, hf'⟩ := ih hb' hnext (by omega) (by omega) (.ok x :: found)
        exact ⟨b'', by simpa [upToFailure] using heval, hf'.trans hf⟩
      | error f =>
        -- the failure is handed on, and one more pull finds that the browse has stopped
        rw [handingOn_failFast hp hb']
        have hpos := hnext.pos
        obtain ⟨limit, rfl⟩ : ∃ k, limit = k + 1 := ⟨limit - 1, by omega⟩
        have hstopped : w.Streams v q { b' with stopped := true } _ m := ⟨hnext.queue, hnext.rest⟩
        obtain ⟨b'', heval, hf'⟩ := pull_stopped hs hl hfan rfl hstopped (by omega)
        refine ⟨b'', ?_, hf'.trans hf⟩
        dsimp only
        rw [Browse.pullMany, Operation.eval_bind, heval]
        simp [upToFailure]

end

end Outage

end SpoolIndex
