import SpoolIndex.Proofs.Browse.Listing
import SpoolIndex.Proofs.Browse.Watermark
import SpoolIndex.Proofs.Operation.Faltering

/-!
# Browses that come to an error

A page that is not to be had waits as an error behind the rows before it. From then
on the browse is doomed: it may still yield these rows, if they are live, and then
the error (`Browse.pull_doomed`). Under fail-fast no pull in the course of which a
call failed comes to the end of the browse (`Browse.pull_failed`), and so no count
of items succeeds after a failure (`View.countItems_failed`).
-/

namespace SpoolIndex

-- ---------------------------------------------------------------------------
-- One partition
-- ---------------------------------------------------------------------------

namespace PartitionScan

/-- The pages of the scan have come to an error, and fewer than `n` rows wait before it. -/
structure Doomed (p : Partition) (s : Store) (low n : Nat) (scan : PartitionScan) : Prop where
  partition : scan.partition = p
  running : scan.failed = false
  rows : scan.rows = .finished
  waiting : ∃ (ready : List Item) (e : Error), scan.waiting = ready.map .ok ++ [.error e] ∧
    ready.length < n ∧ ∀ x ∈ ready, x ∈ s.items p ∧ low ≤ x.key.bits

def Doomed.Next (p : Partition) (s : Store) (low n : Nat) :
    Progress (Except Error Item) × PartitionScan → Prop
  | (.ended, _) => False
  | (.working, scan') => scan'.Doomed p s low n
  | (.yield (.ok x), scan') => x ∈ s.items p ∧ low ≤ x.key.bits ∧ x.key ∉ s.tombstones p.queue ∧
      scan'.Doomed p s low n
  | (.yield (.error _), _) => True

variable {v : View} {p : Partition} {s : Store} {t : Instant} {scan : PartitionScan}
  {path : List Exchange} {r : Progress (Except Error Item) × PartitionScan}

theorem refill_finished (h : scan.rows = .finished) : scan.refill v room = pure scan := by
  induction room with
  | zero => rfl
  | succ room ih =>
    obtain ⟨p, rows, waiting, failed⟩ := scan
    obtain rfl : rows = .finished := h
    rfl

theorem look_row {waiting : List (Except Error Item)} (hw : scan.waiting = .ok x :: waiting)
    (he : scan.look.Ends path r) :
    (∃ e, path = [⟨.store (.hasTombstone x.queue x.key), .error e⟩] ∧
        r = deliver { scan with waiting := waiting } (.error (.partition scan.partition e))) ∨
      path = [⟨.store (.hasTombstone x.queue x.key), .ok true⟩] ∧
        r = (.working, { scan with waiting := waiting }) ∨
      path = [⟨.store (.hasTombstone x.queue x.key), .ok false⟩] ∧
        r = deliver { scan with waiting := waiting } (.ok x) := by
  obtain ⟨p, rows, _, failed⟩ := scan
  obtain rfl := hw
  obtain ⟨_, rest, buried, rfl, hlook, hrest⟩ := Operation.Ends.of_bind he
  obtain rfl := hlook.of_perform
  rcases buried with e | _ | _ <;> obtain ⟨rfl, rfl⟩ := hrest.of_done
  · exact .inl ⟨e, rfl, rfl⟩
  · exact .inr (.inr ⟨rfl, rfl⟩)
  · exact .inr (.inl ⟨rfl, rfl⟩)

/-- What is looked up first is yielded, or dropped for its tombstone, or its lookup fails. -/
theorem look_ok {waiting : List (Except Error Item)} (hrun : scan.failed = false)
    (hw : scan.waiting = .ok x :: waiting) (he : scan.look.Ends path r) :
    (∃ e e' scan', FailedIn e path ∧ r = (.yield (.error e'), scan')) ∨
      path = [⟨.store (.hasTombstone x.queue x.key), .ok true⟩] ∧
        r = (.working, { scan with waiting := waiting }) ∨
      path = [⟨.store (.hasTombstone x.queue x.key), .ok false⟩] ∧
        r = (.yield (.ok x), { scan with waiting := waiting }) := by
  have hlook := look_row hw he
  obtain ⟨p, rows, _, failed⟩ := scan
  obtain rfl : failed = false := hrun
  refine hlook.imp_left ?_
  rintro ⟨e, rfl, rfl⟩
  exact ⟨e, _, _, ⟨_, List.mem_cons_self⟩, rfl⟩

theorem start_failed (hn : 0 < n) (he : (start v p).Ends path scan)
    (hfailed : ∃ e, FailedIn e path) : scan.Doomed p s 0 n := by
  obtain ⟨fetching, _, page, rfl, hpage, hrest⟩ := Operation.Ends.of_bind he
  have hrest' : ∃ e, page = .error e := by
    cases page with
    | error e => exact ⟨e, rfl⟩
    | ok page =>
      obtain ⟨rfl, -⟩ := hrest.of_done
      obtain ⟨e, hfailed⟩ := hfailed
      rw [List.append_nil] at hfailed
      cases Attempt.givesUp_call fetching _ e hpage hfailed
  obtain ⟨e, rfl⟩ := hrest'
  obtain ⟨-, rfl⟩ := hrest.of_done
  exact ⟨rfl, rfl, rfl, [], e, rfl, hn, fun _ hx => nomatch hx⟩

theorem Doomed.look_next (hs : s.Proper) (h : scan.Doomed p s low n)
    (he : scan.look.Ends path r) (hp : s.Falters t path) : Doomed.Next p s low (n - 1) r := by
  obtain ⟨rfl, hrun, hrows, ready, e, hw, hn, hready⟩ := h
  cases ready with
  | nil =>
    obtain ⟨p, rows, _, failed⟩ := scan
    obtain rfl := hw
    obtain rfl : failed = false := hrun
    rw [he.of_done.2]
    trivial
  | cons x ready =>
    obtain ⟨⟨hx, hlow⟩, hready⟩ := List.forall_mem_cons.mp hready
    have hrest : Doomed scan.partition s low (n - 1)
        { scan with waiting := ready.map .ok ++ [.error e] } :=
      ⟨rfl, hrun, hrows, ready, e, rfl, Nat.lt_sub_of_add_lt hn, hready⟩
    obtain ⟨_, _, _, -, rfl⟩ | ⟨-, rfl⟩ | ⟨rfl, rfl⟩ := look_ok hrun hw he
    · trivial
    · exact hrest
    · refine ⟨hx, hlow, fun hdead => ?_, hrest⟩
      obtain htells | ⟨_, _, hfailed⟩ := hp _ List.mem_cons_self
      · have hq : x.queue = scan.partition.queue :=
          congrArg Partition.queue (hs.placed scan.partition x hx)
        rw [← hq] at hdead
        exact Bool.false_ne_true ((Except.ok.inj htells).trans (List.elem_eq_true_of_mem hdead))
      · cases hfailed

theorem Doomed.step_next (hs : s.Proper) (h : scan.Doomed p s low n)
    (he : (scan.step v).Ends path r) (hp : s.Falters t path) : Doomed.Next p s low (n - 1) r := by
  rw [step, refill_finished h.rows] at he
  exact h.look_next hs he hp

theorem refill_failed (hs : s.Proper) (hl : 0 < v.pageSize) (h : scan.From p s low)
    (he : (scan.refill v room).Ends path scan') (hp : s.Falters t path)
    (hfailed : ∃ e, FailedIn e path) : scan'.Doomed p s low (scan.waiting.length + room) := by
  induction room generalizing scan path with
  | zero =>
    obtain ⟨rfl, -⟩ := he.of_done
    obtain ⟨_, _, hx⟩ := hfailed
    cases hx
  | succ room ih =>
    obtain ⟨p, rows, waiting, failed⟩ := scan
    obtain ⟨rfl, hrun, ready, mid, hw, hsort, hready, hmid, hrows⟩ := h
    obtain ⟨pulling, rest, row, rfl, hpull, hrest⟩ := Operation.Ends.of_bind he
    obtain ⟨hpulling, hp⟩ := Store.falters_append.mp hp
    obtain rfl : waiting = ready.map .ok := hw
    obtain rfl : failed = false := hrun
    have hreads : (rows.pull (itemPages p v.pageSize)).Calls StoreCall.IsRead :=
      Rows.pull_takes fun _ => itemPages_calls
    by_cases hpull_failed : ∃ e, FailedIn e pulling
    · obtain ⟨e, hpull_failed⟩ := hpull_failed
      obtain rfl := Rows.pull_failed (fun _ => Attempt.givesUp_call) hpull hpull_failed
      have hrest : (refill v room ⟨p, .finished, ready.map .ok ++ [.error e], false⟩).Ends rest
        scan' := hrest
      rw [refill_finished rfl] at hrest
      obtain ⟨-, rfl⟩ := hrest.of_done
      refine ⟨rfl, rfl, rfl, ready, e, rfl, ?_, fun x hx => ⟨(hready x hx).1, (hready x hx).2.1⟩⟩
      simp only [List.length_map]
      omega
    · have htold := hpulling.told_or_failed.resolve_right hpull_failed
      obtain ⟨e, hfailed⟩ := hfailed
      have hfailed := (failedIn_append.mp hfailed).resolve_left fun h => hpull_failed ⟨e, h⟩
      have hkeeps := Rows.pull_keeps (Contract.alone_same hs (t := t)) hl hrows
      obtain ⟨_ | e | x, rows'⟩ := row
      · obtain ⟨rfl, -⟩ := hrest.of_done
        obtain ⟨_, hx⟩ := hfailed
        cases hx
      · exact (hkeeps.told rfl hreads hpull htold).elim
      · obtain ⟨hx, hlow, hrows, -⟩ := hkeeps.told rfl hreads hpull htold
        have hdoomed := ih (from_push hsort hready hmid hx hlow hrows) hrest hp ⟨e, hfailed⟩
        simp only [List.length_append, List.length_singleton] at hdoomed
        rwa [Nat.add_assoc, Nat.add_comm 1 room] at hdoomed

/-- After a step in which a call failed the scan has an error to yield, now or later. -/
theorem step_failed (hs : s.Proper) (hl : 0 < v.pageSize) (h : scan.From p s low)
    (he : (scan.step v).Ends path r) (hp : s.Falters t path) (hfailed : ∃ e, FailedIn e path) :
    Doomed.Next p s low (lookahead - 1) r := by
  obtain ⟨refilling, looking, scan', rfl, hrefill, hlook⟩ := Operation.Ends.of_bind he
  obtain ⟨hrefilling, hlooking⟩ := Store.falters_append.mp hp
  by_cases hearly : ∃ e, FailedIn e refilling
  · have hdoomed := refill_failed hs hl h hrefill hrefilling hearly
    by_cases hroom : scan.waiting.length ≤ lookahead
    · rw [Nat.add_sub_cancel' hroom] at hdoomed
      exact hdoomed.look_next hs hlook hlooking
    · -- with so many rows waiting there was no refill
      rw [Nat.sub_eq_zero_of_le (Nat.le_of_not_le hroom)] at hrefill
      obtain ⟨rfl, -⟩ := hrefill.of_done
      obtain ⟨_, _, hx⟩ := hearly
      cases hx
  · obtain ⟨e, hfailed⟩ := hfailed
    obtain ⟨c, hfailed⟩ := (failedIn_append.mp hfailed).resolve_left fun h => hearly ⟨e, h⟩
    have hkeeps : (scan.refill v (lookahead - scan.waiting.length)).Keeps (.alone (Eq s) t) _ s :=
      refill_keeps (Contract.alone_same hs) hl h
    have hfrom := (hkeeps.told rfl (refill_takes StoreCall.IsLookup.isRead) hrefill
      (hrefilling.told_or_failed.resolve_right hearly)).rest
    obtain ⟨ready, mid, hw, -⟩ := hfrom.rows
    cases ready with
    | nil =>
      obtain ⟨p, rows, _, failed⟩ := scan'
      obtain rfl := hw
      obtain ⟨rfl, -⟩ := hlook.of_done
      cases hfailed
    | cons x ready =>
      obtain ⟨_, _, _, -, rfl⟩ | ⟨rfl, -⟩ | ⟨rfl, -⟩ := look_ok hfrom.running hw hlook
      · trivial
      · cases List.mem_singleton.mp hfailed
      · cases List.mem_singleton.mp hfailed

end PartitionScan

-- ---------------------------------------------------------------------------
-- One step of a browse
-- ---------------------------------------------------------------------------

namespace Browse

/-- An item that a browse may yield from place `low` on. -/
structure Sighted (v : View) (q : QueueName) (T : Slice → Prop) (s : Store) (low : Nat)
    (x : Item) : Prop where
  stored : x ∈ s.items x.partition
  visited : x.partition.Visited v q T
  live : x.key ∉ s.tombstones q
  low_le : low ≤ v.spot x

theorem Sighted.mono {v : View} {q : QueueName} {T : Slice → Prop} {s : Store} {x : Item}
    (h : Sighted v q T s low' x) (hlow : low ≤ low') : Sighted v q T s low x :=
  { h with low_le := Nat.le_trans hlow h.low_le }

theorem Sighted.sooner {v : View} {q : QueueName} {T : Slice → Prop} {s s₁ : Store} {x : Item}
    (h : Sighted v q T s₁ low' x) (hg : s.Grows s₁) (hitems : s₁.items = s.items)
    (hlow : low ≤ low') : Sighted v q T s low x :=
  ⟨hitems ▸ h.stored, h.visited, fun ht => h.live (hg.tombstones _ _ ht),
    Nat.le_trans hlow h.low_le⟩

structure Doomed (v : View) (q : QueueName) (T : Slice → Prop) (s : Store) (low n : Nat)
    (b : Browse) : Prop where
  stopped : b.stopped = false
  reading : ∃ scan p key, b.reading = some scan ∧ p.Visited v q T ∧ scan.Doomed p s key n ∧
    low ≤ p.rank v * Partition.span + 1 + key

def Doomed.Next (v : View) (q : QueueName) (T : Slice → Prop) (s : Store) (low n : Nat) :
    Progress (Except Error Item) × Browse → Prop
  | (.ended, _) => False
  | (.working, b') => b'.Doomed v q T s low n
  | (.yield (.ok x), b') => Sighted v q T s low x ∧ b'.Doomed v q T s low n
  | (.yield (.error _), _) => True

variable {v : View} {q : QueueName} {T : Slice → Prop} {p : Partition} {s s' : Store} {t : Instant}
  {b : Browse} {path : List Exchange}

theorem step_eq (h : b.reading = some scan) : b.step v = scan.step v >>= handOn v b := by
  rw [step, h]

theorem deliver_failFast (hv : v.failurePolicy = .failFast) (hb : b.stopped = false)
    (he : (deliver v b (.error e)).Ends path r) : ∃ b', r = (.yield (.error e), b') := by
  unfold deliver at he
  rw [hb, hv] at he
  obtain ⟨_, _, _, -, -, he⟩ := Operation.Ends.of_bind he
  obtain ⟨_, _, _, -, -, he⟩ := he.of_bind
  exact ⟨_, he.of_done.2⟩

theorem handOn_next (hv : v.failurePolicy = .failFast) (hs : s.Proper) (hb : b.stopped = false)
    (hp : p.Visited v q T) (hlow : low ≤ p.rank v * Partition.span + 1 + key)
    (h : PartitionScan.Doomed.Next p s key n r) (he : (handOn v b r).Ends path r') :
    Doomed.Next v q T s low n r' := by
  obtain ⟨(e | x) | _ | _, scan⟩ := r
  · have hb' : Browse.stopped { b with reading := some scan } = false := hb
    obtain ⟨b', rfl⟩ := deliver_failFast hv hb' he
    trivial
  · obtain ⟨hx, hkey, hlive, hscan⟩ := h
    have hb' : Browse.stopped { b with reading := some scan } = false := hb
    have he : (deliver v { b with reading := some scan } (.ok x)).Ends path r' := he
    rw [deliver_ok hb'] at he
    obtain ⟨_, _, _, -, -, he⟩ := Operation.Ends.of_bind he
    obtain ⟨-, rfl⟩ := he.of_done
    have hxp : x.partition = p := hs.placed p x hx
    subst hxp
    rw [hp.queue] at hlive
    have hspot : v.spot x = x.partition.rank v * Partition.span + 1 + x.key.bits := rfl
    exact ⟨⟨hx, hp, hlive, by omega⟩, hb, scan, x.partition, key, rfl, hp, hscan, hlow⟩
  · obtain ⟨-, rfl⟩ := he.of_done
    exact ⟨hb, scan, p, key, rfl, hp, h, hlow⟩
  · exact h.elim

theorem Doomed.step_next (hv : v.failurePolicy = .failFast) (hs : s.Proper)
    (h : b.Doomed v q T s low n) (he : (b.step v).Ends path r) (hp : s.Falters t path) :
    Doomed.Next v q T s low (n - 1) r := by
  obtain ⟨hb, scan, p, key, hr, hvisited, hscan, hlow⟩ := h
  rw [step_eq hr] at he
  obtain ⟨stepping, rest, r', rfl, hstep, hrest⟩ := he.of_bind
  obtain ⟨hstepping, -⟩ := Store.falters_append.mp hp
  exact handOn_next hv hs hb hvisited hlow (hscan.step_next hs hstep hstepping) hrest

theorem handOn_storeless : (handOn v b r).Storeless := by
  obtain ⟨result | _ | _, scan⟩ := r
  · exact deliver_takes fun _ => trivial
  · trivial
  · trivial

/-- After a step in which a call failed the browse has an error to yield, now or later. -/
theorem step_failed (hv : v.failurePolicy = .failFast) (hs : s.Proper) (hl : 0 < v.pageSize)
    (h : b.From v q (· ≤ v.allocator.sliceOf t) s low) (he : (b.step v).Ends path r)
    (hp : s.Falters t path) (hfailed : ∃ e, FailedIn e path) :
    Doomed.Next v q (· ≤ v.allocator.sliceOf t) s low (lookahead - 1) r := by
  obtain ⟨q', cursor, drawn, reading, stopped, failures⟩ := b
  obtain ⟨hq, hb, -, -, n, hn, hr⟩ := h
  obtain ⟨e, hfailed⟩ := hfailed
  cases reading with
  | some scan =>
    obtain ⟨p, key, hvisited, -, hscan, -, hlow⟩ := hr
    rw [step_eq rfl] at he
    obtain ⟨stepping, rest, r', rfl, hstep, hrest⟩ := he.of_bind
    obtain ⟨hstepping, -⟩ := Store.falters_append.mp hp
    have hearly := (failedIn_append.mp hfailed).resolve_right (handOn_storeless.not_failed hrest)
    have hnext := PartitionScan.step_failed hs hl hscan hstep hstepping ⟨e, hearly⟩
    exact handOn_next hv hs hb hvisited hlow hnext hrest
  | none =>
    obtain rfl : q' = q := hq
    obtain ⟨drawing, rest, ⟨fresh, place⟩, rfl, hdraw, hrest⟩ := Operation.Ends.of_bind he
    obtain ⟨hdrawing, -⟩ := Store.falters_append.mp hp
    -- drawing does not fail, so it found the partitions that come next
    have hstoreless : (draw v q' (v.fanOut - drawn.length) cursor []).Storeless :=
      draw_takes trivial
    have htold := hdrawing.told_or_failed.resolve_right fun ⟨_, hf⟩ =>
      hstoreless.not_failed hdraw hf
    have hlate := (failedIn_append.mp hfailed).resolve_left (hstoreless.not_failed hdraw)
    have hkeeps : (draw v q' (v.fanOut - drawn.length) cursor []).Keeps (.alone (Eq s) t) _ s :=
      draw_keeps View.timely_alone (by simpa using hn)
    obtain ⟨-, hup, -, -, -⟩ := hkeeps.told rfl (draw_takes trivial) hdraw htold
    dsimp only at hup hrest
    cases hps : drawn ++ fresh with
    | nil =>
      rw [hps] at hrest
      obtain ⟨rfl, -⟩ := hrest.of_done
      obtain ⟨_, hx⟩ := hlate
      cases hx
    | cons p ps =>
      rw [hps] at hup hrest
      obtain ⟨hvisited, rfl, -⟩ := hup
      obtain ⟨starting, _, scan, rfl, hstart, hlast⟩ := hrest.of_bind
      obtain ⟨rfl, rfl⟩ := hlast.of_done
      rw [List.append_nil] at hlate
      have hscan : scan.Doomed p s 0 (lookahead - 1) :=
        PartitionScan.start_failed (by decide) hstart ⟨e, hlate⟩
      have hlow : low ≤ p.rank v * Partition.span := hr
      exact ⟨hb, scan, p, 0, rfl, hvisited, hscan, by omega⟩

-- ---------------------------------------------------------------------------
-- One pull of a browse
-- ---------------------------------------------------------------------------

def Doomed.Pulled (v : View) (q : QueueName) (T : Slice → Prop) (s : Store) (low n : Nat) :
    Option (Except Error Item) × Browse → Prop
  | (none, _) => False
  | (some (.ok x), b') => Sighted v q T s low x ∧ b'.Doomed v q T s low n
  | (some (.error _), _) => True

theorem Doomed.grows (h : b.Doomed v q T s low n) (hg : s.Grows s') : b.Doomed v q T s' low n := by
  obtain ⟨hb, scan, p, key, hr, hvisited, ⟨hp, hrun, hrows, ready, e, hw, hlt, hready⟩, hkey⟩ := h
  have hready' : ∀ x ∈ ready, x ∈ s'.items p ∧ key ≤ x.key.bits := fun x hx =>
    ⟨hg.items p x (hready x hx).1, (hready x hx).2⟩
  exact ⟨hb, scan, p, key, hr, hvisited, ⟨hp, hrun, hrows, ready, e, hw, hlt, hready'⟩, hkey⟩

theorem Doomed.mono (h : b.Doomed v q T s low n) (hlow : low' ≤ low) (hn : n ≤ m) :
    b.Doomed v q T s low' m := by
  obtain ⟨hb, scan, p, key, hr, hvisited, ⟨hp, hrun, hrows, ready, e, hw, hlt, hready⟩, hkey⟩ := h
  refine ⟨hb, scan, p, key, hr, hvisited, ?_, Nat.le_trans hlow hkey⟩
  exact ⟨hp, hrun, hrows, ready, e, hw, Nat.lt_of_lt_of_le hlt hn, hready⟩

theorem Doomed.Pulled.mono (h : Doomed.Pulled v q T s low n r) (hlow : low' ≤ low) (hn : n ≤ m) :
    Doomed.Pulled v q T s low' m r := by
  obtain ⟨_ | e | x, b'⟩ := r
  · exact h
  · trivial
  · obtain ⟨⟨hx, hvisited, hlive, hle⟩, hb'⟩ := h
    exact ⟨⟨hx, hvisited, hlive, Nat.le_trans hlow hle⟩, hb'.mono hlow hn⟩

theorem Doomed.advance (hv : v.failurePolicy = .failFast) (hs : s.Proper)
    (h : b.Doomed v q T s low n) (hn : n ≤ steps) (he : (b.advance v steps).Ends path r)
    (hp : s.Falters t path) : Doomed.Pulled v q T s low (n - 1) r := by
  induction steps generalizing b n path with
  | zero =>
    obtain ⟨-, _, _, _, -, -, ⟨-, -, -, _, _, -, hlt, -⟩, -⟩ := h
    omega
  | succ steps ih =>
    obtain ⟨stepping, rest, r', rfl, hstep, hrest⟩ := Operation.Ends.of_bind he
    obtain ⟨hstepping, hresting⟩ := Store.falters_append.mp hp
    have hnext := h.step_next hv hs hstep hstepping
    obtain ⟨(e | x) | _ | _, b'⟩ := r'
    · rw [hrest.of_done.2]
      trivial
    · rw [hrest.of_done.2]
      exact hnext
    · exact (ih hnext (by omega) hrest hresting).mono (Nat.le_refl low) (Nat.sub_le _ 1)
    · exact hnext.elim

/-- A doomed browse yields the rows before its error, if they are live, and then the error. -/
theorem Doomed.pull (hv : v.failurePolicy = .failFast) (hs : s.Proper)
    (h : b.Doomed v q T s low n) (hn : n ≤ patience) (he : (b.pull v).Ends path r)
    (hp : s.Falters t path) : Doomed.Pulled v q T s low (n - 1) r :=
  h.advance hv hs hn he hp

theorem advance_failed (hv : v.failurePolicy = .failFast) (hs : s.Proper) (hl : 0 < v.pageSize)
    (hfan : 0 < v.fanOut) (h : b.From v q (· ≤ v.allocator.sliceOf t) s low)
    (hsteps : v.places * Partition.span + lookahead < low + steps)
    (he : (b.advance v steps).Ends path r) (hp : s.Falters t path)
    (hfailed : ∃ e, FailedIn e path) :
    Doomed.Pulled v q (· ≤ v.allocator.sliceOf t) s low lookahead r := by
  induction steps generalizing b low path with
  | zero => exact absurd h.bound (by omega)
  | succ steps ih =>
    obtain ⟨stepping, rest, r', rfl, hstep, hrest⟩ := Operation.Ends.of_bind he
    obtain ⟨hstepping, hresting⟩ := Store.falters_append.mp hp
    by_cases hearly : ∃ e, FailedIn e stepping
    · have hnext := step_failed hv hs hl h hstep hstepping hearly
      have hbound := h.bound
      obtain ⟨(e | x) | _ | _, b'⟩ := r'
      · rw [hrest.of_done.2]
        trivial
      · rw [hrest.of_done.2]
        exact Doomed.Pulled.mono (r := (some (.ok x), b')) hnext (Nat.le_refl low) (by decide)
      · have hpulled := Doomed.advance hv hs hnext (by omega) hrest hresting
        exact hpulled.mono (Nat.le_refl low) (by decide)
      · exact hnext.elim
    · obtain ⟨e, hfailed⟩ := hfailed
      have hlate := (failedIn_append.mp hfailed).resolve_left fun h => hearly ⟨e, h⟩
      have htold := hstepping.told_or_failed.resolve_right hearly
      have hkeeps : (b.step v).Keeps (.alone (Eq s) t) _ s :=
        step_keeps (Contract.alone_same hs) hl hfan View.timely_alone h
      have hnext := hkeeps.told rfl (step_takes Action.browses_isBrowsing).reads hstep htold
      have hdone {value value' : Option (Except Error Item) × Browse}
          (h : (pure value : Operation _).Ends rest value') : False := by
        obtain ⟨rfl, -⟩ := h.of_done
        obtain ⟨_, hx⟩ := hlate
        cases hx
      obtain ⟨(e | x) | _ | _, b'⟩ := r'
      · exact (hdone hrest).elim
      · exact (hdone hrest).elim
      · have hpulled := ih hnext.1 (by omega) hrest hresting ⟨e, hlate⟩
        exact hpulled.mono (Nat.le_succ low) (Nat.le_refl _)
      · exact (hdone hrest).elim

/-- After a pull in which a call failed the browse has an error to yield, now or later. -/
theorem pull_failed (hv : v.failurePolicy = .failFast) (hs : s.Proper) (hl : 0 < v.pageSize)
    (hfan : 0 < v.fanOut) (h : b.From v q (· ≤ v.allocator.sliceOf t) s low)
    (he : (b.pull v).Ends path r) (hp : s.Falters t path) (hfailed : ∃ e, FailedIn e path) :
    Doomed.Pulled v q (· ≤ v.allocator.sliceOf t) s low lookahead r :=
  advance_failed hv hs hl hfan h (lookahead_lt_patience v low) he hp hfailed

end Browse

-- ---------------------------------------------------------------------------
-- Counting
-- ---------------------------------------------------------------------------

namespace View

variable {v : View} {q : QueueName} {T : Slice → Prop} {s : Store} {t : Instant} {b : Browse}
  {path : List Exchange} {result : Except Error Nat}

theorem countItems_doomed (hv : v.failurePolicy = .failFast) (hs : s.Proper)
    (h : b.Doomed v q T s low m) (hm : m ≤ limit) (hpatience : m ≤ Browse.patience)
    (he : (v.countItems limit n b).run.Ends path result) (hp : s.Falters t path) :
    ∃ e, result = .error e := by
  induction limit generalizing b m n path with
  | zero =>
    obtain ⟨-, _, _, _, -, -, ⟨-, -, -, _, _, -, hlt, -⟩, -⟩ := h
    omega
  | succ limit ih =>
    obtain ⟨pulling, rest, r, rfl, hpull, hrest⟩ := Attempt.ends_lift_bind he
    obtain ⟨hpulling, hresting⟩ := Store.falters_append.mp hp
    have hpulled := h.pull hv hs hpatience hpull hpulling
    obtain ⟨_ | e | x, b'⟩ := r
    · exact hpulled.elim
    · exact ⟨e, hrest.of_done.2⟩
    · exact ih hpulled.2 (by omega) (by omega) hrest hresting

/-- Under fail-fast no count succeeds after a call has failed. -/
theorem countItems_failed (hv : v.failurePolicy = .failFast) (hs : s.Proper)
    (hl : 0 < v.pageSize) (hfan : 0 < v.fanOut)
    (h : b.From v q (· ≤ v.allocator.sliceOf t) s low)
    (hlimit : v.places * Partition.span + lookahead < low + limit)
    (he : (v.countItems limit n b).run.Ends path result) (hp : s.Falters t path)
    (hfailed : ∃ e, FailedIn e path) : ∃ e, result = .error e := by
  induction limit generalizing b low n path with
  | zero => exact absurd h.bound (by omega)
  | succ limit ih =>
    obtain ⟨pulling, rest, r, rfl, hpull, hrest⟩ := Attempt.ends_lift_bind he
    obtain ⟨hpulling, hresting⟩ := Store.falters_append.mp hp
    by_cases hearly : ∃ e, FailedIn e pulling
    · have hpulled := Browse.pull_failed hv hs hl hfan h hpull hpulling hearly
      have hbound := h.bound
      obtain ⟨_ | e | x, b'⟩ := r
      · exact hpulled.elim
      · exact ⟨e, hrest.of_done.2⟩
      · exact countItems_doomed hv hs hpulled.2 (by omega) (by decide) hrest hresting
    · obtain ⟨e, hfailed⟩ := hfailed
      have hlate := (failedIn_append.mp hfailed).resolve_left fun h => hearly ⟨e, h⟩
      have hkeeps : (b.pull v).Keeps (.alone (Eq s) t) _ s :=
        Browse.pull_keeps (Contract.alone_same hs) hl hfan View.timely_alone h
      have hpulled := hkeeps.told rfl (Browse.pull_takes Action.browses_isBrowsing).reads hpull
        (hpulling.told_or_failed.resolve_right hearly)
      obtain ⟨_ | e | x, b'⟩ := r
      · obtain ⟨rfl, -⟩ := hrest.of_done
        obtain ⟨_, hx⟩ := hlate
        cases hx
      · exact hpulled.elim
      · have hlow := hpulled.low_le
        exact ih hpulled.rest (by omega) hrest hresting ⟨_, hlate⟩

end View

end SpoolIndex
