import SpoolIndex.Proofs.Browse.Calls

/-!
# The scan of one partition in a browse

Rows wait for their tombstone lookups in the order of their keys. A step takes
the first of them: it yields the row, or drops it for its tombstone, and passes
over nothing (`PartitionScan.step_keeps`).
-/

namespace SpoolIndex.PartitionScan

structure From (p : Partition) (s : Store) (low : Nat) (scan : PartitionScan) : Prop where
  partition : scan.partition = p
  running : scan.failed = false
  rows : ∃ ready mid, scan.waiting = ready.map .ok ∧ SortedByKey Item.key ready ∧
    (∀ x ∈ ready, x ∈ s.items p ∧ low ≤ x.key.bits ∧ x.key.bits < mid) ∧ low ≤ mid ∧
    Rows.From p s mid scan.rows

def Ahead (scan : PartitionScan) (key : Key) : Prop :=
  (∃ x, .ok x ∈ scan.waiting ∧ x.key = key) ∨ scan.rows.Ahead key

section
variable {k : Contract} {v : View} {p : Partition} {s s' : Store} {scan : PartitionScan}

theorem From.grows (h : scan.From p s low) (hg : s.Grows s') : scan.From p s' low := by
  obtain ⟨ready, mid, hw, hsort, hready, hle, hrows⟩ := h.rows
  refine ⟨h.partition, h.running, ready, mid, hw, hsort, fun x hx => ?_, hle, hrows.grows hg⟩
  exact ⟨hg.items p x (hready x hx).1, (hready x hx).2⟩

theorem From.mono (h : scan.From p s low) (hle : low' ≤ low) : scan.From p s low' := by
  obtain ⟨ready, mid, hw, hsort, hready, hmid, hrows⟩ := h.rows
  refine ⟨h.partition, h.running, ready, mid, hw, hsort, fun x hx => ?_, Nat.le_trans hle hmid,
    hrows⟩
  obtain ⟨hx, hlow, hlt⟩ := hready x hx
  exact ⟨hx, Nat.le_trans hle hlow, hlt⟩

theorem From.tail (h : scan.From p s low) (hw : scan.waiting = result :: rest) :
    ∃ x, result = .ok x ∧ x ∈ s.items p ∧ low ≤ x.key.bits ∧
      From p s (x.key.bits + 1) { scan with waiting := rest } := by
  obtain ⟨ready, mid, hw', hsort, hready, hle, hrows⟩ := h.rows
  cases ready with
  | nil => cases hw'.symm.trans hw
  | cons x ready =>
    obtain ⟨rfl, rfl⟩ := List.cons.inj (hw'.symm.trans hw)
    obtain ⟨hlt, hsort⟩ := List.pairwise_cons.mp hsort
    obtain ⟨hx, hlow, hmid⟩ := hready x List.mem_cons_self
    refine ⟨x, rfl, hx, hlow, h.partition, h.running, ready, mid, rfl, hsort, fun y hy => ?_,
      hmid, hrows⟩
    obtain ⟨hy', -, hmid⟩ := hready y (List.mem_cons_of_mem _ hy)
    exact ⟨hy', hlt y hy, hmid⟩

theorem Ahead.tail (h : scan.Ahead key) (hw : scan.waiting = .ok x :: rest) :
    key = x.key ∨ Ahead { scan with waiting := rest } key := by
  rcases h with ⟨y, hy, rfl⟩ | h
  · rw [hw] at hy
    rcases List.mem_cons.mp hy with he | hy
    · cases he
      exact .inl rfl
    · exact .inr (.inl ⟨y, hy, rfl⟩)
  · exact .inr (.inr h)

theorem start_keeps (hk : k.AllowsReads) (hl : 0 < v.pageSize) :
    (start v p).Keeps k
      (fun scan s' => scan.From p s' 0 ∧ ∀ y ∈ s.items p, scan.Ahead y.key) s := by
  intro met ho hf
  refine ⟨hk.own_read trivial, ?_⟩
  have hm := hk.proper hf
  refine ⟨⟨rfl, rfl, [], 0, rfl, .nil, (fun _ h => nomatch h), Nat.le_refl 0, ?_⟩,
    fun y hy => .inr ?_⟩
  · exact Rows.from_ofPage hm p none v.pageSize
  · exact Rows.ahead_ofPage hm hl ((hk.grows ho).items p y hy) (Nat.zero_le _)

theorem from_push {ready : List Item} {rows : Rows Item} (hsort : SortedByKey Item.key ready)
    (hready : ∀ y ∈ ready, y ∈ s.items p ∧ low ≤ y.key.bits ∧ y.key.bits < mid) (hmid : low ≤ mid)
    (hx : x ∈ s.items p) (hlow : mid ≤ x.key.bits) (hrows : Rows.From p s (x.key.bits + 1) rows) :
    From p s low ⟨p, rows, ready.map .ok ++ [.ok x], false⟩ := by
  refine ⟨rfl, rfl, ready ++ [x], x.key.bits + 1, by simp, ?_, ?_, by omega, hrows⟩
  · refine List.pairwise_append.mpr ⟨hsort, List.pairwise_singleton _ _, fun y hy z hz => ?_⟩
    rw [List.mem_singleton.mp hz]
    exact Nat.lt_of_lt_of_le (hready y hy).2.2 hlow
  · intro y hy
    rcases List.mem_append.mp hy with hy | hy
    · obtain ⟨hys, hylow, hlt⟩ := hready y hy
      exact ⟨hys, hylow, by omega⟩
    · rw [List.mem_singleton.mp hy]
      exact ⟨hx, by omega, by omega⟩

structure Refilled (p : Partition) (s : Store) (low room : Nat) (scan scan' : PartitionScan)
    (s' : Store) : Prop where
  rest : scan'.From p s' low
  ahead : ∀ y ∈ s.items p, scan.Ahead y.key → scan'.Ahead y.key
  waiting : scan.waiting ≠ [] → scan'.waiting ≠ []
  exhausted : 0 < room → scan'.waiting = [] → ∀ y ∈ s.items p, ¬scan.Ahead y.key

theorem refill_keeps (hk : k.AllowsReads) (hl : 0 < v.pageSize) (h : scan.From p s low) :
    (scan.refill v room).Keeps k (Refilled p s low room scan) s := by
  induction room generalizing s scan with
  | zero => exact ⟨h, fun _ _ ha => ha, id, fun h => absurd h (Nat.lt_irrefl 0)⟩
  | succ room ih =>
    obtain ⟨p, rows, waiting, failed⟩ := scan
    obtain ⟨rfl, hrun, ready, mid, hw, hsort, hready, hmid, hrows⟩ := h
    refine Operation.keeps_bind.mpr ?_
    refine ((Rows.pull_keeps hk hl hrows).grows hk.toOrderly).mono ?_
    rintro ⟨_ | e | x, rows'⟩ s' ⟨hp, hg⟩
    · obtain ⟨hrows, hnone⟩ := hp
      refine ⟨⟨rfl, hrun, ready, mid, hw, hsort, fun x hx => ?_, hmid, hrows⟩, ?_, id, ?_⟩
      · exact ⟨hg.items p x (hready x hx).1, (hready x hx).2⟩
      · exact fun y hy ha => ha.imp_right fun ha => absurd ha (hnone y hy)
      · rintro - hnil y hy (⟨z, hz, -⟩ | ha)
        · have hnil : waiting = [] := hnil
          subst hnil
          cases hz
        · exact hnone y hy ha
    · exact hp.elim
    · obtain ⟨hx, hlow, hrows, hahead⟩ := hp
      obtain rfl : waiting = ready.map .ok := hw
      obtain rfl : failed = false := hrun
      have hready' : ∀ y ∈ ready, y ∈ s'.items p ∧ low ≤ y.key.bits ∧ y.key.bits < mid :=
        fun y hy => ⟨hg.items p y (hready y hy).1, (hready y hy).2⟩
      have hnext := from_push hsort hready' hmid hx hlow hrows
      refine (ih hnext).mono fun scan' s'' hr => ?_
      have hne : scan'.waiting ≠ [] := hr.waiting (by simp)
      refine ⟨hr.rest, fun y hy ha => ?_, fun _ => hne, fun _ hnil => absurd hnil hne⟩
      refine hr.ahead y (hg.items p y hy) ?_
      rcases ha with ⟨z, hz, he⟩ | ha
      · exact .inl ⟨z, List.mem_append_left _ hz, he⟩
      · rcases hahead y hy ha with he | ha
        · exact .inl ⟨x, by simp, he.symm⟩
        · exact .inr ha

def Stepped (p : Partition) (s : Store) (low : Nat) (scan : PartitionScan) :
    Progress (Except Error Item) × PartitionScan → Store → Prop
  | (.ended, _), _ => ∀ y ∈ s.items p, ¬scan.Ahead y.key
  | (.working, scan'), s' => scan'.From p s' (low + 1) ∧ low < Key.count ∧
      ∀ y ∈ s.items p, scan.Ahead y.key → y.key ∈ s'.tombstones p.queue ∨ scan'.Ahead y.key
  | (.yield (.ok x), scan'), s' => x ∈ s'.items p ∧ x.partition = p ∧ low ≤ x.key.bits ∧
      x.key ∉ s.tombstones p.queue ∧ scan'.From p s' (x.key.bits + 1) ∧
      ∀ y ∈ s.items p, scan.Ahead y.key → y.key = x.key ∨ scan'.Ahead y.key
  | (.yield (.error _), _), _ => False

theorem step_keeps (hk : k.AllowsReads) (hl : 0 < v.pageSize) (h : scan.From p s low) :
    (scan.step v).Keeps k (Stepped p s low scan) s := by
  refine Operation.keeps_bind.mpr (((refill_keeps hk hl h).grows hk.toOrderly).mono ?_)
  rintro ⟨p', rows, waiting, failed⟩ s' ⟨hr, hg⟩
  have hlook : 0 < lookahead - scan.waiting.length ∨ scan.waiting ≠ [] := by
    cases hw : scan.waiting with
    | nil => exact .inl (by decide)
    | cons => exact .inr (List.cons_ne_nil _ _)
  cases waiting with
  | nil =>
    rcases hlook with hroom | hne
    · exact hr.exhausted hroom rfl
    · exact absurd rfl (hr.waiting hne)
  | cons result rest =>
    obtain ⟨x, rfl, hx, hlow, hrest⟩ := hr.rest.tail rfl
    intro met ho hf
    refine ⟨hk.own_read trivial, ?_⟩
    have hgm := hk.grows ho
    have hp : x.partition = p := (hk.proper hf).placed p x (hgm.items p x hx)
    have hq : x.queue = p.queue := congrArg Partition.queue hp
    cases hb : (met.tombstones x.queue).contains x.key with
    | true =>
      simp only [Store.perform, hb]
      have hkey := x.key.bits_lt
      refine ⟨(hrest.grows hgm).mono (by omega), Nat.lt_of_le_of_lt hlow hkey, fun y hy ha => ?_⟩
      rcases (hr.ahead y hy ha).tail rfl with he | ha
      · rw [hq] at hb
        exact .inl (he ▸ List.mem_of_elem_eq_true hb)
      · exact .inr ha
    | false =>
      have hrun : failed = false := hr.rest.running
      subst hrun
      simp only [Store.perform, hb]
      refine ⟨hgm.items p x hx, hp, hlow, fun ht => ?_, hrest.grows hgm, fun y hy ha => ?_⟩
      · have ht := (hg.trans hgm).tombstones _ _ ht
        rw [← hq] at ht
        exact Bool.false_ne_true (hb.symm.trans (List.elem_eq_true_of_mem ht))
      · exact (hr.ahead y hy ha).tail rfl

end

end SpoolIndex.PartitionScan
