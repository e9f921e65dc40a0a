import SpoolIndex.Proofs.Browse.Faltering

/-!
# Scans that are cut

A page or a tombstone that is not to be had cuts the scan of a partition: what comes
before it is still given, if it lives, and nothing of the partition after it. Which
rows the call that failed hides is told by the call alone (`StoreCall.Hides`). Later
calls in the partition may fail as well, but hide no more than that
(`PartitionScan.Skipping.step`).
-/

namespace SpoolIndex

/-- Without what the call fetches, a scan does not come to the rows with these keys. -/
def StoreCall.Hides : StoreCall → Key → Prop
  | scanItems _ after _, key =>
    ∃ bound, Token.bound after = .ok bound ∧ Token.floor bound ≤ key.bits
  | hasTombstone _ row, key => row.bits ≤ key.bits
  | _, _ => False

def StoreCall.Reads (p : Partition) (s : Store) : StoreCall → Prop
  | scanItems p' _ _ => p' = p
  | hasTombstone q key => q = p.queue ∧ ∃ x ∈ s.items p, x.key = key
  | _ => False

theorem Rows.pull_cut {rows : Rows Item} (he : (rows.pull (itemPages p limit)).Ends path r)
    (hf : failedCalls path ≠ []) : ∃ after e, rows = ⟨[], some after⟩ ∧
      path = [⟨.store (.scanItems p after limit), .error e⟩] ∧
      r = (some (.error e), .finished) := by
  obtain ⟨ready, next⟩ := rows
  cases ready with
  | cons x ready =>
    obtain ⟨rfl, -⟩ := he.of_done
    exact absurd rfl hf
  | nil =>
    cases next with
    | none =>
      obtain ⟨rfl, -⟩ := he.of_done
      exact absurd rfl hf
    | some after =>
      obtain ⟨fetching, rest, page, rfl, hfetch, hrest⟩ := Operation.Ends.of_bind he
      obtain rfl := Operation.Ends.of_perform hfetch
      cases page with
      | error e =>
        obtain ⟨rfl, rfl⟩ := hrest.of_done
        exact ⟨after, e, rfl, rfl, rfl⟩
      | ok page =>
        obtain ⟨found, token⟩ := page
        cases found <;> obtain ⟨rfl, -⟩ := hrest.of_done <;> exact absurd rfl hf

-- ---------------------------------------------------------------------------
-- What a scan has before it
-- ---------------------------------------------------------------------------

theorem Store.Falters.buried {s : Store} (h : s.Falters t path)
    (hx : ⟨.store (.hasTombstone q key), .ok dead⟩ ∈ path) :
    dead = true ↔ key ∈ s.tombstones q := by
  obtain htells | ⟨_, _, hfailed⟩ := h _ hx
  · rw [Except.ok.inj htells]
    exact List.contains_iff_mem
  · cases hfailed

theorem Rows.not_ahead_finished : ¬(finished : Rows Item).Ahead key := by
  rintro (⟨x, hx, -⟩ | ⟨after, -, hn, -⟩)
  · cases hx
  · cases hn

namespace PartitionScan

def Lined (p : Partition) (s : Store) (low : Nat) (scan : PartitionScan) : Prop :=
  ∃ front, From p s low ⟨scan.partition, scan.rows, front, false⟩ ∧
    (scan.waiting = front ∨
      ∃ e, scan.waiting = front ++ [.error e] ∧ scan.rows = .finished)

structure Due (p : Partition) (s : Store) (lost : List StoreCall) (low : Nat) (x : Item) :
    Prop where
  stored : x ∈ s.items p
  live : x.key ∉ s.tombstones p.queue
  low_le : low ≤ x.key.bits
  seen : ∀ c ∈ lost, ¬c.Hides x.key

/-- A scan in the course of which calls may have failed. It is at key `low` and takes at most `n`
more steps. -/
structure Skipping (p : Partition) (s : Store) (lost : List StoreCall) (low n : Nat)
    (scan : PartitionScan) : Prop where
  lined : scan.Lined p s low
  ahead : ∀ x, Due p s lost low x → scan.Ahead x.key
  /-- Until the error of a page that was not to be had is delivered, it is behind all rows. -/
  running : scan.failed = false → ∀ c ∈ lost, scan.rows = .finished ∧
    ∀ key, c.Hides key → ∀ x, .ok x ∈ scan.waiting → x.key.bits < key.bits
  spent : scan.failed = true → ∀ x, ¬Due p s lost low x
  low_le : low ≤ Key.count
  /-- Each step takes a row or delivers the one error, until the last one finds nothing left. -/
  steps : Key.count + 2 ≤ low + n + scan.failed.toNat

variable {v : View} {p : Partition} {s s' : Store} {t : Instant} {scan scan' : PartitionScan}
  {path : List Exchange} {lost lost' : List StoreCall} {low low' n room : Nat} {x : Item}
  {r : Progress (Except Error Item) × PartitionScan}

theorem From.low_le (h : scan.From p s low) (ha : scan.Ahead key) : low ≤ key.bits := by
  obtain ⟨ready, mid, hw, -, hready, hmid, hrows⟩ := h.rows
  obtain ⟨x, hx, rfl⟩ | ha := ha
  · rw [hw] at hx
    obtain ⟨y, hy, he⟩ := List.mem_map.mp hx
    obtain rfl := Except.ok.inj he
    exact (hready y hy).2.1
  · exact Nat.le_trans hmid (hrows.low_le ha)

theorem From.lined (h : scan.From p s low) : scan.Lined p s low := by
  obtain ⟨p', rows, waiting, failed⟩ := scan
  obtain rfl : failed = false := h.running
  exact ⟨waiting, h, .inl rfl⟩

namespace Lined

theorem mono (h : scan.Lined p s low) (hle : low' ≤ low) : scan.Lined p s low' := by
  obtain ⟨front, hfrom, hw⟩ := h
  exact ⟨front, hfrom.mono hle, hw⟩

theorem grows (h : scan.Lined p s low) (hg : s.Grows s') : scan.Lined p s' low := by
  obtain ⟨front, hfrom, hw⟩ := h
  exact ⟨front, hfrom.grows hg, hw⟩

theorem low_le (h : scan.Lined p s low) (ha : scan.Ahead key) : low ≤ key.bits := by
  obtain ⟨front, hfrom, hw⟩ := h
  refine hfrom.low_le (ha.imp_left ?_)
  rintro ⟨x, hx, rfl⟩
  obtain hw | ⟨e, hw, -⟩ := hw
  · exact ⟨x, hw ▸ hx, rfl⟩
  · rw [hw] at hx
    exact ⟨x, by simpa using hx, rfl⟩

theorem tail (h : scan.Lined p s low) (hw : scan.waiting = .ok x :: rest) :
    x ∈ s.items p ∧ low ≤ x.key.bits ∧
      Lined p s (x.key.bits + 1) { scan with waiting := rest } := by
  obtain ⟨front, hfrom, hw' | ⟨e, hw', hrows⟩⟩ := h
  · obtain ⟨_, he, hx, hlow, hrest⟩ := hfrom.tail (hw'.symm.trans hw)
    obtain rfl := Except.ok.inj he
    exact ⟨hx, hlow, rest, hrest, .inl rfl⟩
  · obtain _ | ⟨result, front⟩ := front
    · cases hw'.symm.trans hw
    · obtain ⟨rfl, rfl⟩ := List.cons.inj (hw'.symm.trans hw)
      obtain ⟨_, he, hx, hlow, hrest⟩ := hfrom.tail rfl
      obtain rfl := Except.ok.inj he
      exact ⟨hx, hlow, front, hrest, .inr ⟨e, rfl, hrows⟩⟩

/-- An error is the last that waits. -/
theorem of_error (h : scan.Lined p s low) (hw : scan.waiting = .error e :: rest) :
    rest = [] ∧ scan.rows = .finished ∧
      From p s low ⟨scan.partition, scan.rows, [], false⟩ := by
  obtain ⟨front, hfrom, hw' | ⟨e', hw', hrows⟩⟩ := h
  · obtain ⟨_, he, -⟩ := hfrom.tail (hw'.symm.trans hw)
    cases he
  · obtain _ | ⟨result, front⟩ := front
    · obtain ⟨-, rfl⟩ := List.cons.inj (hw'.symm.trans hw)
      exact ⟨rfl, hrows, hfrom⟩
    · obtain ⟨rfl, -⟩ := List.cons.inj (hw'.symm.trans hw)
      obtain ⟨_, he, -⟩ := hfrom.tail rfl
      cases he

end Lined

theorem Due.mono (h : Due p s lost' low' x) (hlost : lost ⊆ lost') (hle : low ≤ low') :
    Due p s lost low x :=
  ⟨h.stored, h.live, Nat.le_trans hle h.low_le, fun c hc => h.seen c (hlost hc)⟩

-- ---------------------------------------------------------------------------
-- Refilling
-- ---------------------------------------------------------------------------

structure Filled (p : Partition) (s : Store) (low room : Nat) (scan : PartitionScan)
    (lost : List StoreCall) (scan' : PartitionScan) : Prop where
  lined : scan'.Lined p s low
  failed : scan'.failed = scan.failed
  ahead : ∀ x ∈ s.items p, scan.Ahead x.key → scan'.Ahead x.key ∨ ∃ c ∈ lost, c.Hides x.key
  waiting : scan.waiting ≠ [] → scan'.waiting ≠ []
  exhausted : 0 < room → scan'.waiting = [] → ∀ x ∈ s.items p, ¬scan.Ahead x.key
  cut : ∀ c ∈ lost, c.Reads p s ∧ scan'.rows = .finished ∧ ∀ key, c.Hides key →
    low ≤ key.bits ∧ ∀ x, .ok x ∈ scan'.waiting → x.key.bits < key.bits

namespace Filled

theorem refl (h : scan.Lined p s low)
    (hempty : 0 < room → scan.waiting = [] → ∀ x ∈ s.items p, ¬scan.Ahead x.key) :
    Filled p s low room scan [] scan :=
  ⟨h, rfl, fun _ _ ha => .inl ha, id, hempty, fun _ hc => nomatch hc⟩

theorem of_cut {front : List (Except Error Item)} {failed : Bool}
    (h : From p s low ⟨p, ⟨[], some after⟩, front, false⟩) :
    Filled p s low room ⟨p, ⟨[], some after⟩, front, failed⟩ [.scanItems p after limit]
      ⟨p, .finished, front ++ [.error e], failed⟩ := by
  obtain ⟨-, -, ready, mid, rfl, hsort, hready, hmid, hrows⟩ := h
  obtain ⟨bound, hbound, hfloor, -⟩ := hrows.token after rfl
  have hfinished := Rows.from_finished p s mid
  refine ⟨⟨_, ⟨rfl, rfl, ready, mid, rfl, hsort, hready, hmid, hfinished⟩, .inr ⟨e, rfl, rfl⟩⟩,
    rfl, ?_, by simp, by simp, fun c hc => ?_⟩
  · rintro y - (⟨z, hz, he⟩ | ⟨z, hz, -⟩ | ⟨after', bound', hn, hkey⟩)
    · exact .inl (.inl ⟨z, List.mem_append_left _ hz, he⟩)
    · cases hz
    · obtain rfl : after = after' := Option.some.inj hn
      exact .inr ⟨_, List.mem_cons_self, bound', hkey⟩
  · obtain rfl := List.mem_singleton.mp hc
    refine ⟨rfl, rfl, ?_⟩
    rintro key ⟨bound', hbound', hkey⟩
    obtain rfl := Except.ok.inj (hbound.symm.trans hbound')
    refine ⟨by omega, fun x hx => ?_⟩
    obtain ⟨y, hy, he⟩ := List.mem_map.mp ((List.mem_append.mp hx).resolve_right (by simp))
    obtain rfl := Except.ok.inj he
    obtain ⟨-, -, hlt⟩ := hready y hy
    omega

theorem push {rows rows' : Rows Item} {front : List (Except Error Item)} {failed : Bool}
    (h : Filled p s low room ⟨p, rows', front ++ [.ok x], failed⟩ lost scan')
    (hahead : ∀ y ∈ s.items p, rows.Ahead y.key → y.key = x.key ∨ rows'.Ahead y.key) :
    Filled p s low (room + 1) ⟨p, rows, front, failed⟩ lost scan' := by
  have hne : scan'.waiting ≠ [] := h.waiting (by simp)
  refine ⟨h.lined, h.failed, fun y hy ha => h.ahead y hy ?_, fun _ => hne,
    fun _ hnil => absurd hnil hne, h.cut⟩
  obtain ⟨z, hz, he⟩ | ha := ha
  · exact .inl ⟨z, List.mem_append_left _ hz, he⟩
  · obtain he | ha := hahead y hy ha
    · exact .inl ⟨x, by simp, he.symm⟩
    · exact .inr ha

end Filled

theorem Lined.refill (hs : s.Proper) (hl : 0 < v.pageSize) (h : scan.Lined p s low)
    (he : (scan.refill v room).Ends path scan') (hp : s.Falters t path) :
    Filled p s low room scan (failedCalls path) scan' := by
  induction room generalizing scan path with
  | zero =>
    obtain ⟨rfl, rfl⟩ := he.of_done
    exact .refl h fun hroom => absurd hroom (Nat.lt_irrefl 0)
  | succ room ih =>
    have hlined := h
    obtain ⟨front, hfrom, hw | ⟨e, hw, hrows⟩⟩ := h
    · obtain ⟨p', rows, waiting, failed⟩ := scan
      obtain rfl : waiting = front := hw
      obtain rfl : p' = p := hfrom.partition
      obtain ⟨pulling, rest, row, rfl, hpull, hrest⟩ := Operation.Ends.of_bind he
      obtain ⟨hpulling, hp⟩ := Store.falters_append.mp hp
      by_cases hf : failedCalls pulling = []
      · obtain ⟨-, -, ready, mid, rfl, hsort, hready, hmid, hrows⟩ := hfrom
        have hreads : (rows.pull (itemPages p' v.pageSize)).Calls StoreCall.IsRead :=
          Rows.pull_takes fun _ => itemPages_calls
        have hkeeps := Rows.pull_keeps (Contract.alone_same hs (t := t)) hl hrows
        have hpulled := hkeeps.told rfl hreads hpull (hpulling.told hf)
        rw [failedCalls_append, hf, List.nil_append]
        obtain ⟨_ | e | x, rows'⟩ := row
        · obtain ⟨hrows', hnone⟩ := hpulled
          obtain ⟨rfl, rfl⟩ := hrest.of_done
          refine ⟨⟨_, ⟨rfl, rfl, ready, mid, rfl, hsort, hready, hmid, hrows'⟩, .inl rfl⟩, rfl,
            fun y hy ha => .inl (ha.imp_right fun ha => absurd ha (hnone y hy)), id, ?_,
            fun _ hc => nomatch hc⟩
          rintro - hnil y hy (⟨z, hz, -⟩ | ha)
          · obtain rfl : ready = [] := List.map_eq_nil_iff.mp hnil
            cases hz
          · exact hnone y hy ha
        · exact hpulled.elim
        · obtain ⟨hx, hlow, hrows', hahead⟩ := hpulled
          have hnext : Lined p' s low ⟨p', rows', ready.map .ok ++ [.ok x], failed⟩ :=
            ⟨_, from_push hsort hready hmid hx hlow hrows', .inl rfl⟩
          exact (ih hnext hrest hp).push hahead
      · obtain ⟨after, e, rfl, rfl, rfl⟩ := Rows.pull_cut hpull hf
        have hrest : (refill v room ⟨p', .finished, waiting ++ [.error e], failed⟩).Ends rest
          scan' := hrest
        rw [refill_finished rfl] at hrest
        obtain ⟨rfl, rfl⟩ := hrest.of_done
        exact .of_cut hfrom
    · -- with the error of a page behind the rows there is nothing more to fetch
      rw [refill_finished hrows] at he
      obtain ⟨rfl, rfl⟩ := he.of_done
      refine .refl hlined fun _ hnil => ?_
      rw [hw] at hnil
      simp at hnil

-- ---------------------------------------------------------------------------
-- Steps
-- ---------------------------------------------------------------------------

def Skipping.Next (p : Partition) (s : Store) (lost : List StoreCall) (low n : Nat) :
    Progress (Except Error Item) × PartitionScan → Prop
  | (.ended, _) => ∀ x, ¬Due p s lost low x
  | (.working, scan') => ∃ low', low < low' ∧ scan'.Skipping p s lost low' n ∧
      ∀ x, Due p s lost low x → low' ≤ x.key.bits
  | (.yield (.ok x), scan') => Due p s lost low x ∧
      scan'.Skipping p s lost (x.key.bits + 1) n ∧
      ∀ y, Due p s lost low y → y = x ∨ x.key.bits < y.key.bits
  | (.yield (.error e), scan') => (∃ source, e = .partition p source) ∧
      scan'.Skipping p s lost low n

def Cutting (p : Partition) (s : Store) (low : Nat) (lost : List StoreCall) : Prop :=
  ∀ c ∈ lost, c.Reads p s ∧ ∀ key, c.Hides key → low ≤ key.bits

theorem Skipping.tail (hs : s.Proper) (h : scan.Skipping p s lost low (n + 1))
    (hw : scan.waiting = .ok x :: rest) :
    Skipping p s lost (x.key.bits + 1) n { scan with waiting := rest } ∧
      ∀ y, Due p s lost low y → y = x ∨ x.key.bits < y.key.bits := by
  obtain ⟨hx, hlow, hrest⟩ := h.lined.tail hw
  have hkey : x.key.bits < Key.count := x.key.bits_lt
  have hsteps := h.steps
  have hle : low ≤ x.key.bits + 1 := by omega
  refine ⟨⟨hrest, fun y hy => ?_, fun hrun c hc => ?_, fun hspent y hy => ?_, hkey, ?_⟩, ?_⟩
  · have hlt : x.key.bits < y.key.bits := hy.low_le
    obtain he | ha := (h.ahead y (hy.mono (List.Subset.refl _) hle)).tail hw
    · rw [he] at hlt
      exact absurd hlt (Nat.lt_irrefl _)
    · exact ha
  · obtain ⟨hrows, hbefore⟩ := h.running hrun c hc
    exact ⟨hrows, fun key hk y hy => hbefore key hk y (hw ▸ List.mem_cons_of_mem _ hy)⟩
  · exact h.spent hspent y (hy.mono (List.Subset.refl _) hle)
  · dsimp only
    omega
  · intro y hy
    refine ((h.ahead y hy).tail hw).imp (fun he => ?_) fun ha => hrest.low_le ha
    exact (hs.sorted p).eq_of_key hy.stored hx he

theorem Skipping.Next.error (h : scan.Lined p s low) (hpart : scan.partition = p)
    (hnone : ∀ x, ¬Due p s lost low x) (hle : low ≤ Key.count)
    (hsteps : Key.count + 2 ≤ low + (n + 1) + scan.failed.toNat) :
    Next p s lost low n (scan.deliver (.error (.partition scan.partition e))) := by
  obtain ⟨p', rows, waiting, failed⟩ := scan
  obtain rfl : p' = p := hpart
  cases failed with
  | true => exact hnone
  | false =>
    exact ⟨⟨e, rfl⟩, h, fun x hx => absurd hx (hnone x), nofun, fun _ => hnone, hle, hsteps⟩

theorem Skipping.none_at_error (h : scan.Skipping p s lost low n)
    (hw : scan.waiting = .error e :: rest) (x : Item) : ¬Due p s lost low x := by
  intro hx
  obtain ⟨rfl, hrows, -⟩ := h.lined.of_error hw
  obtain ⟨y, hy, -⟩ | ha := h.ahead x hx
  · rw [hw] at hy
    simp at hy
  · rw [hrows] at ha
    exact Rows.not_ahead_finished ha

theorem none_behind (hfirst : ∀ y, Due p s lost low y → y = x ∨ x.key.bits < y.key.bits)
    (y : Item) : ¬Due p s (lost ++ [.hasTombstone q x.key]) low y := by
  intro hy
  have hhides : ¬x.key.bits ≤ y.key.bits := hy.seen (.hasTombstone q x.key) (by simp)
  obtain rfl | hlt := hfirst y (hy.mono (List.subset_append_left _ _) (Nat.le_refl low))
  · exact hhides (Nat.le_refl _)
  · exact hhides (Nat.le_of_lt hlt)

theorem Skipping.deliver_live (hs : s.Proper) (h : scan.Skipping p s lost low (n + 1))
    (hw : scan.waiting = .ok x :: rest) (hlive : x.key ∉ s.tombstones p.queue) :
    Next p s lost low n (deliver { scan with waiting := rest } (.ok x)) := by
  obtain ⟨hx, hlow, -⟩ := h.lined.tail hw
  obtain ⟨hnext, hfirst⟩ := h.tail hs hw
  have hspent := h.spent
  have hrunning := h.running
  obtain ⟨p', rows, waiting, failed⟩ := scan
  cases failed with
  | true => exact hspent rfl
  | false =>
    have hseen : ∀ c ∈ lost, ¬c.Hides x.key := fun c hc hhides =>
      Nat.lt_irrefl _ ((hrunning rfl c hc).2 x.key hhides x (hw ▸ List.mem_cons_self))
    exact ⟨⟨hx, hlive, hlow, hseen⟩, hnext, hfirst⟩

theorem Skipping.look (hs : s.Proper) (h : scan.Skipping p s lost low (n + 1))
    (hempty : scan.waiting = [] → ∀ x, ¬Due p s lost low x) (he : scan.look.Ends path r)
    (hp : s.Falters t path) :
    Next p s (lost ++ failedCalls path) low n r ∧ Cutting p s low (failedCalls path) := by
  have hpart : scan.partition = p := by
    obtain ⟨front, hfrom, -⟩ := h.lined
    exact hfrom.partition
  have hnocut : Cutting p s low [] := fun _ hc => nomatch hc
  cases hw : scan.waiting with
  | nil =>
    have hnone := hempty hw
    obtain ⟨p', rows, _, failed⟩ := scan
    obtain rfl := hw
    obtain ⟨rfl, rfl⟩ := he.of_done
    rw [failedCalls_nil, List.append_nil]
    exact ⟨hnone, hnocut⟩
  | cons result rest =>
    cases result with
    | error e =>
      have hnone := h.none_at_error hw
      obtain ⟨rfl, -, hfrom⟩ := h.lined.of_error hw
      have hdeliver : Skipping.Next p s lost low n
          (deliver { scan with waiting := [] } (.error (.partition scan.partition e))) :=
        Skipping.Next.error ⟨[], hfrom, .inl rfl⟩ hpart hnone h.low_le h.steps
      obtain ⟨p', rows, _, failed⟩ := scan
      obtain rfl := hw
      obtain ⟨rfl, rfl⟩ := he.of_done
      rw [failedCalls_nil, List.append_nil]
      exact ⟨hdeliver, hnocut⟩
    | ok x =>
      obtain ⟨hx, hlow, hrest⟩ := h.lined.tail hw
      obtain ⟨hnext, hfirst⟩ := h.tail hs hw
      have hq : x.queue = p.queue := congrArg Partition.queue (hs.placed p x hx)
      obtain ⟨e, rfl, rfl⟩ | ⟨rfl, rfl⟩ | ⟨rfl, rfl⟩ := look_row hw he
      · have hle : low ≤ x.key.bits + 1 := Nat.le_succ_of_le hlow
        refine ⟨.error (hrest.mono hle) hpart (none_behind hfirst) h.low_le h.steps,
          fun c hc => ?_⟩
        obtain rfl := List.mem_singleton.mp hc
        exact ⟨⟨hq, x, hx, rfl⟩, fun key hk => Nat.le_trans hlow hk⟩
      · have hdead : x.key ∈ s.tombstones x.queue := (hp.buried List.mem_cons_self).mp rfl
        have hcalm : failedCalls [⟨.store (.hasTombstone x.queue x.key), .ok true⟩] = [] := rfl
        rw [hcalm, List.append_nil]
        refine ⟨⟨_, Nat.lt_succ_of_le hlow, hnext, fun y hy => ?_⟩, hnocut⟩
        refine (hfirst y hy).resolve_left ?_
        rintro rfl
        exact hy.live (hq ▸ hdead)
      · have hlive : x.key ∉ s.tombstones x.queue := fun hdead =>
          Bool.false_ne_true ((hp.buried List.mem_cons_self).mpr hdead)
        have hcalm : failedCalls [⟨.store (.hasTombstone x.queue x.key), .ok false⟩] = [] := rfl
        rw [hcalm, List.append_nil]
        exact ⟨h.deliver_live hs hw (hq ▸ hlive), hnocut⟩

theorem Skipping.step (hs : s.Proper) (hl : 0 < v.pageSize)
    (h : scan.Skipping p s lost low (n + 1)) (he : (scan.step v).Ends path r)
    (hp : s.Falters t path) :
    Next p s (lost ++ failedCalls path) low n r ∧ Cutting p s low (failedCalls path) := by
  obtain ⟨refilling, looking, scan', rfl, hrefill, hlook⟩ := Operation.Ends.of_bind he
  obtain ⟨hrefilling, hlooking⟩ := Store.falters_append.mp hp
  have hfilled := h.lined.refill hs hl hrefill hrefilling
  have hdue {low : Nat} {y : Item} (hy : Due p s (lost ++ failedCalls refilling) low y) :
      Due p s lost low y := hy.mono (List.subset_append_left _ _) (Nat.le_refl low)
  have hroom : 0 < lookahead - scan.waiting.length ∨ scan.waiting ≠ [] := by
    cases scan.waiting with
    | nil => exact .inl (by decide)
    | cons => exact .inr (List.cons_ne_nil _ _)
  have hscan' : scan'.Skipping p s (lost ++ failedCalls refilling) low (n + 1) := by
    refine ⟨hfilled.lined, fun y hy => ?_, fun hrun c hc => ?_, fun hspent y hy => ?_, h.low_le, ?_⟩
    · refine (hfilled.ahead y hy.stored (h.ahead y (hdue hy))).resolve_right ?_
      rintro ⟨c, hc, hhides⟩
      exact hy.seen c (List.mem_append_right _ hc) hhides
    · obtain hc | hc := List.mem_append.mp hc
      · -- a page was not to be had before, and there was no refill
        obtain ⟨hrows, hbefore⟩ := h.running (hfilled.failed ▸ hrun) c hc
        rw [refill_finished hrows] at hrefill
        obtain ⟨-, rfl⟩ := hrefill.of_done
        exact ⟨hrows, hbefore⟩
      · obtain ⟨-, hrows, hkeys⟩ := hfilled.cut c hc
        exact ⟨hrows, fun key hk => (hkeys key hk).2⟩
    · exact h.spent (hfilled.failed ▸ hspent) y (hdue hy)
    · rw [hfilled.failed]
      exact h.steps
  have hempty (hnil : scan'.waiting = []) (y : Item) :
      ¬Due p s (lost ++ failedCalls refilling) low y := by
    intro hy
    obtain hroom | hne := hroom
    · exact hfilled.exhausted hroom hnil y hy.stored (h.ahead y (hdue hy))
    · exact hfilled.waiting hne hnil
  obtain ⟨hnext, hcut⟩ := hscan'.look hs hempty hlook hlooking
  rw [failedCalls_append, ← List.append_assoc]
  refine ⟨hnext, fun c hc => ?_⟩
  obtain hc | hc := List.mem_append.mp hc
  · obtain ⟨hreads, -, hkeys⟩ := hfilled.cut c hc
    exact ⟨hreads, fun key hk => (hkeys key hk).1⟩
  · exact hcut c hc

theorem Skipping.later (h : scan.Skipping p s lost low n) (hitems : s'.items = s.items)
    (hg : s.Grows s') : scan.Skipping p s' lost low n :=
  have hdue (x : Item) (hx : Due p s' lost low x) : Due p s lost low x :=
    ⟨hitems ▸ hx.stored, fun hdead => hx.live (hg.tombstones _ _ hdead), hx.low_le, hx.seen⟩
  { h with
    lined := h.lined.grows hg
    ahead := fun x hx => h.ahead x (hdue x hx)
    spent := fun hspent x hx => h.spent hspent x (hdue x hx) }

theorem start_skipping (hs : s.Proper) (hl : 0 < v.pageSize) (he : (start v p).Ends path scan)
    (hp : s.Falters t path) :
    scan.Skipping p s (failedCalls path) 0 (Key.count + 2) ∧
      Cutting p s 0 (failedCalls path) := by
  by_cases hf : failedCalls path = []
  · have hkeeps : (start v p).Keeps (.alone (Eq s) t) _ s :=
      start_keeps (Contract.alone_same hs) hl
    have hreads : (start v p).Calls StoreCall.IsRead := start_takes StoreCall.IsLookup.isRead
    obtain ⟨hfrom, hahead⟩ := hkeeps.told rfl hreads he (hp.told hf)
    rw [hf]
    refine ⟨⟨hfrom.lined, fun y hy => hahead y hy.stored, (fun _ _ hc => nomatch hc), ?_,
      Nat.zero_le _, by omega⟩, fun _ hc => nomatch hc⟩
    intro hspent
    cases hfrom.running.symm.trans hspent
  · obtain ⟨fetching, rest, page, rfl, hfetch, hrest⟩ := Operation.Ends.of_bind he
    obtain rfl := Operation.Ends.of_perform hfetch
    cases page with
    | ok page =>
      obtain ⟨rfl, -⟩ := hrest.of_done
      exact absurd rfl hf
    | error e =>
      obtain ⟨rfl, rfl⟩ := hrest.of_done
      have hcalls : failedCalls ([⟨.store (.scanItems p none v.pageSize), .error e⟩] ++ []) =
          [.scanItems p none v.pageSize] := rfl
      rw [hcalls]
      have hfrom : From p s 0 ⟨p, .finished, [], false⟩ :=
        ⟨rfl, rfl, [], 0, rfl, .nil, (fun _ hx => nomatch hx), Nat.le_refl 0,
          Rows.from_finished p s 0⟩
      have hhides (key : Key) : StoreCall.Hides (.scanItems p none v.pageSize) key :=
        ⟨none, rfl, Nat.zero_le _⟩
      refine ⟨⟨⟨[], hfrom, .inr ⟨e, rfl, rfl⟩⟩, fun y hy => ?_, fun _ c hc => ⟨rfl, ?_⟩, nofun,
        Nat.zero_le _, by omega⟩, fun c hc => ?_⟩
      · exact absurd (hhides y.key) (hy.seen _ List.mem_cons_self)
      · simp
      · obtain rfl := List.mem_singleton.mp hc
        exact ⟨rfl, fun _ _ => Nat.zero_le _⟩

end PartitionScan

end SpoolIndex
