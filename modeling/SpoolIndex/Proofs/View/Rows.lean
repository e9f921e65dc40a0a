import SpoolIndex.Proofs.Operation.Contract
import SpoolIndex.Proofs.Store.Page
import SpoolIndex.View.Rows

/-!
# Scans of a changing partition

A scan of a partition gives rows in the order of their keys and passes over no
row that was there when it came by, whatever others add in the meantime
(`Rows.pull_keeps`). `Rows.From` says how far it has come, `Rows.Ahead` what it
will still come to.
-/

namespace SpoolIndex

theorem View.ofConfig_pageSize_pos (c : Config) : 0 < (View.ofConfig c).pageSize :=
  Nat.lt_of_lt_of_le Nat.one_pos (Nat.le_max_left _ _)

theorem View.ofConfig_fanOut_pos (c : Config) : 0 < (View.ofConfig c).fanOut :=
  Nat.lt_of_lt_of_le Nat.one_pos (Nat.le_max_left _ _)

theorem length_le_of_sorted {keyOf : α → Key} {rows : List α} (hs : SortedByKey keyOf rows)
    (hlow : ∀ x ∈ rows, low ≤ (keyOf x).bits) (hle : low ≤ Key.count) :
    low + rows.length ≤ Key.count := by
  induction rows generalizing low with
  | nil => exact hle
  | cons x rows ih =>
    obtain ⟨hx, hs⟩ := List.pairwise_cons.mp hs
    have hlt : (keyOf x).bits < Key.count := (keyOf x).bits_lt
    have hrest : (keyOf x).bits + 1 + rows.length ≤ Key.count := ih hs hx hlt
    have := hlow x List.mem_cons_self
    rw [List.length_cons]
    omega

structure Contract.AllowsReads (k : Contract) : Prop extends k.Orderly where
  own_read : c.IsRead → k.own c s

namespace Rows

structure From (p : Partition) (s : Store) (low : Nat) (rows : Rows Item) : Prop where
  sorted : SortedByKey Item.key rows.ready
  stored : ∀ x ∈ rows.ready, x ∈ s.items p ∧ low ≤ x.key.bits
  token : ∀ after, rows.next = some after → ∃ bound, Token.bound after = .ok bound ∧
    low ≤ Token.floor bound ∧ ∀ x ∈ rows.ready, x.key.bits < Token.floor bound

def Ahead (rows : Rows Item) (key : Key) : Prop :=
  (∃ x ∈ rows.ready, x.key = key) ∨
    ∃ after bound, rows.next = some after ∧ Token.bound after = .ok bound ∧
      Token.floor bound ≤ key.bits

theorem From.grows (h : From p s low rows) (hg : s.Grows s') : From p s' low rows :=
  ⟨h.sorted, fun x hx => ⟨hg.items p x (h.stored x hx).1, (h.stored x hx).2⟩, h.token⟩

theorem from_start (p : Partition) (s : Store) : From p s 0 (start none) where
  sorted := .nil
  stored _ hx := nomatch hx
  token after h := by
    obtain rfl : none = after := Option.some.inj h
    exact ⟨none, rfl, Nat.le_refl _, fun _ hx => nomatch hx⟩

theorem ahead_start (key : Key) : (start none).Ahead key :=
  .inr ⟨none, none, rfl, rfl, Nat.zero_le _⟩

theorem from_finished (p : Partition) (s : Store) (low : Nat) : From p s low finished where
  sorted := .nil
  stored _ hx := nomatch hx
  token _ h := nomatch h

theorem From.low_le (h : From p s low rows) (ha : rows.Ahead key) : low ≤ key.bits := by
  rcases ha with ⟨x, hx, rfl⟩ | ⟨after, bound, hn, hb, hle⟩
  · exact (h.stored x hx).2
  · obtain ⟨bound', hb', hlow, -⟩ := h.token after hn
    obtain rfl : bound = bound' := Except.ok.inj (hb.symm.trans hb')
    exact Nat.le_trans hlow hle

theorem From.tail {ready : List Item} {next : Option (Option Token)}
    (h : From p s low ⟨x :: ready, next⟩) :
    x ∈ s.items p ∧ low ≤ x.key.bits ∧ From p s (x.key.bits + 1) ⟨ready, next⟩ := by
  obtain ⟨hx, hlow⟩ := h.stored x List.mem_cons_self
  obtain ⟨hlt, hsort⟩ := List.pairwise_cons.mp h.sorted
  refine ⟨hx, hlow, hsort, fun y hy => ?_, fun after ha => ?_⟩
  · exact ⟨(h.stored y (List.mem_cons_of_mem _ hy)).1, hlt y hy⟩
  · obtain ⟨bound, hb, -, hall⟩ := h.token after ha
    exact ⟨bound, hb, hall x List.mem_cons_self, fun y hy => hall y (List.mem_cons_of_mem _ hy)⟩

theorem Ahead.tail {ready : List Item} {next : Option (Option Token)}
    (h : Ahead ⟨x :: ready, next⟩ key) : key = x.key ∨ Ahead ⟨ready, next⟩ key := by
  rcases h with ⟨y, hy, rfl⟩ | h
  · rcases List.mem_cons.mp hy with rfl | hy
    · exact .inl rfl
    · exact .inr (.inl ⟨y, hy, rfl⟩)
  · exact .inr (.inr h)

-- ---------------------------------------------------------------------------
-- One page
-- ---------------------------------------------------------------------------

section
variable {s : Store}

theorem from_ofPage (hs : s.Proper) (p : Partition) (bound : Option Key) (limit : Nat) :
    From p s (Token.floor bound) (ofPage (pageAfter Item.key bound limit (s.items p))) where
  sorted := pageAfter_sorted (hs.sorted p)
  stored _ hx := pageAfter_rows hx
  token after h := by
    obtain ⟨token, ht, rfl⟩ := Option.map_eq_some_iff.mp h
    obtain ⟨last, rfl, hlow, hall⟩ := pageAfter_next (hs.sorted p) ht
    exact ⟨some last, Token.bound_after last, Nat.le_succ_of_le hlow,
      fun x hx => Nat.lt_succ_of_le (hall x hx)⟩

theorem ahead_ofPage (hs : s.Proper) (hl : 0 < limit) (hx : x ∈ s.items p)
    (hb : Token.floor bound ≤ x.key.bits) :
    Ahead (ofPage (pageAfter Item.key bound limit (s.items p))) x.key := by
  rcases pageAfter_covers (hs.sorted p) hl hx hb with hx | ⟨last, hn, hlt⟩
  · exact .inl ⟨x, hx, rfl⟩
  · exact .inr ⟨_, some last, by simp [ofPage, hn], Token.bound_after last, hlt⟩

end

-- ---------------------------------------------------------------------------
-- One row
-- ---------------------------------------------------------------------------

def Pulled (p : Partition) (s : Store) (low : Nat) (rows : Rows Item) :
    Option (Except Error Item) × Rows Item → Store → Prop
  | (none, rows'), s' => From p s' low rows' ∧ ∀ x ∈ s.items p, ¬rows.Ahead x.key
  | (some (.error _), _), _ => False
  | (some (.ok x), rows'), s' => x ∈ s'.items p ∧ low ≤ x.key.bits ∧
      From p s' (x.key.bits + 1) rows' ∧
      ∀ y ∈ s.items p, rows.Ahead y.key → y.key = x.key ∨ rows'.Ahead y.key

theorem pull_keeps {rows : Rows Item} (hk : k.AllowsReads) (hl : 0 < limit)
    (h : From p s low rows) : (rows.pull (itemPages p limit)).Keeps k (Pulled p s low rows) s := by
  obtain ⟨ready, next⟩ := rows
  cases ready with
  | cons x ready =>
    obtain ⟨hx, hlow, ht⟩ := h.tail
    exact ⟨hx, hlow, ht, fun y _ ha => ha.tail⟩
  | nil =>
    cases next with
    | none =>
      refine ⟨from_finished p s low, ?_⟩
      rintro x - (⟨y, hy, -⟩ | ⟨after, -, hn, -⟩)
      · cases hy
      · cases hn
    | some after =>
      obtain ⟨bound, hb, hlow, -⟩ := h.token after rfl
      intro met ho hf
      refine ⟨hk.own_read trivial, ?_⟩
      have hm := hk.proper hf
      have hfrom := from_ofPage hm p bound limit
      -- what is ahead of the fetch is ahead of its page
      have hcover : ∀ y ∈ s.items p, Ahead ⟨[], some after⟩ y.key →
          Ahead (ofPage (pageAfter Item.key bound limit (met.items p))) y.key := by
        rintro y hy (⟨z, hz, -⟩ | ⟨after', bound', hn, hb', hle⟩)
        · cases hz
        · obtain rfl : after = after' := Option.some.inj hn
          obtain rfl : bound = bound' := Except.ok.inj (hb.symm.trans hb')
          exact ahead_ofPage hm hl ((hk.grows ho).items p y hy) hle
      simp only [Store.perform, hb, Except.map]
      have hnil : (pageAfter Item.key bound limit (met.items p)).rows = [] →
          (pageAfter Item.key bound limit (met.items p)).next = none := pageAfter_next_nil hl
      generalize pageAfter Item.key bound limit (met.items p) = page at hfrom hcover hnil ⊢
      obtain ⟨found, token⟩ := page
      cases found with
      | nil =>
        obtain rfl : token = none := hnil rfl
        refine ⟨from_finished p _ low, ?_⟩
        rintro y hy ha
        rcases hcover y hy ha with ⟨z, hz, -⟩ | ⟨after, -, hn, -⟩
        · cases hz
        · cases hn
      | cons x ready =>
        obtain ⟨hx, hlow', ht⟩ := hfrom.tail
        exact ⟨hx, Nat.le_trans hlow hlow', ht, fun y hy ha => (hcover y hy ha).tail⟩

theorem pull_takes {rows : Rows α} (hf : ∀ after, (fetch after).run.Takes P) :
    (rows.pull fetch).Takes P := by
  obtain ⟨ready, next⟩ := rows
  cases ready with
  | cons x ready => trivial
  | nil =>
    cases next with
    | none => trivial
    | some after =>
      refine (hf after).bind ?_
      rintro (e | ⟨found, token⟩)
      · trivial
      · cases found <;> trivial

end Rows

theorem itemPages_calls : (itemPages p limit after).run.Calls StoreCall.IsRead :=
  Attempt.calls_call trivial

end SpoolIndex
