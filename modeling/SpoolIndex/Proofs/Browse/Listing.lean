import SpoolIndex.Proofs.Browse.Pull

/-!
# What a browse yields to its end

Pulled to its end, a browse has yielded a `Listing`: items in ascending order,
none with a tombstone, and among them all that were to be found
(`Browse.pullMany_keeps`). Counting comes to the length of one
(`View.countItems_keeps`).
-/

namespace SpoolIndex

theorem View.nodup_of_spots {v : View} {items : List Item}
    (h : items.Pairwise fun x y => v.spot x < v.spot y) : items.Nodup := by
  refine h.imp ?_
  rintro x _ hlt rfl
  exact Nat.lt_irrefl _ hlt

theorem View.eq_of_spots {v : View} {items items' : List Item}
    (h : items.Pairwise fun x y => v.spot x < v.spot y)
    (h' : items'.Pairwise fun x y => v.spot x < v.spot y) (hmem : ∀ x, x ∈ items ↔ x ∈ items') :
    items = items' := by
  have hperm := (List.perm_ext_iff_of_nodup (nodup_of_spots h) (nodup_of_spots h')).mpr hmem
  refine hperm.eq_of_pairwise (fun x y _ _ hxy hyx => ?_) h h'
  exact absurd hyx (Nat.lt_asymm hxy)

/-- What a browse yields from place `low` on, between the stores `s` and `s'`; the items that are
wanted are among it. -/
structure Listing (v : View) (q : QueueName) (T : Slice → Prop) (s s' : Store) (low : Nat)
    (b : Browse) (wanted : Item → Prop) (items : List Item) : Prop where
  stored : ∀ x ∈ items, x ∈ s'.items x.partition
  visited : ∀ x ∈ items, x.partition.Visited v q T
  live : ∀ x ∈ items, x.key ∉ s.tombstones q
  low_le : ∀ x ∈ items, low ≤ v.spot x
  sorted : items.Pairwise fun x y => v.spot x < v.spot y
  complete : ∀ x, wanted x → b.Ahead v x → x ∈ items

namespace Listing

variable {k : Contract} {v : View} {q : QueueName} {T : Slice → Prop} {s s₁ s₂ s' : Store}
  {b b' : Browse} {wanted : Item → Prop} {items : List Item}

theorem nil (h : Browse.Pulled k v q T s₁ low b (none, b') s')
    (hw : ∀ x, wanted x → Browse.Sought k v q s₁ s' x) : Listing v q T s s' low b wanted [] where
  stored _ hx := nomatch hx
  visited _ hx := nomatch hx
  live _ hx := nomatch hx
  low_le _ hx := nomatch hx
  sorted := .nil
  complete x hx ha := absurd ha (h.2 x (hw x hx))

theorem cons (h : Listing v q T s₂ s' (v.spot x + 1) b' wanted items)
    (hx : Browse.Yields k v q T s₁ low b x b' s₂) (hs : s₂.Proper) (hg₁ : s.Grows s₁)
    (hg₂ : s₁.Grows s₂) (hg' : s₂.Grows s') (hw : ∀ y, wanted y → Browse.Sought k v q s₁ s₂ y) :
    Listing v q T s s' low b wanted (x :: items) where
  stored := List.forall_mem_cons.mpr ⟨hg'.items _ x hx.stored, h.stored⟩
  visited := List.forall_mem_cons.mpr ⟨hx.visited, h.visited⟩
  live := List.forall_mem_cons.mpr ⟨fun ht => hx.live (hg₁.tombstones _ _ ht),
    fun y hy ht => h.live y hy ((hg₁.trans hg₂).tombstones _ _ ht)⟩
  low_le := List.forall_mem_cons.mpr ⟨hx.low_le,
    fun y hy => Nat.le_trans hx.low_le (Nat.le_of_succ_le (h.low_le y hy))⟩
  sorted := List.pairwise_cons.mpr ⟨h.low_le, h.sorted⟩
  complete y hy ha := by
    rcases hx.ahead y (hw y hy) ha with ⟨hp, hk⟩ | ha
    · -- the partition has one item of each key
      have hmem : y ∈ s₂.items x.partition := hp ▸ hg₂.items _ y (hw y hy).stored
      rw [(hs.sorted x.partition).eq_of_key hmem hx.stored hk]
      exact List.mem_cons_self
    · exact List.mem_cons_of_mem _ (h.complete y hy ha)

theorem mono (h : Listing v q T s s' low b wanted items) (hw : ∀ x, wanted' x → wanted x) :
    Listing v q T s s' low b wanted' items :=
  { h with complete := fun x hx => h.complete x (hw x hx) }

theorem nodup (h : Listing v q T s s' low b wanted items) : items.Nodup :=
  View.nodup_of_spots h.sorted

theorem precedes (h : Listing v q T s s' low b wanted items) : items.Pairwise Item.Precedes :=
  h.sorted.imp_of_mem fun _ hy hlt => View.precedes_of_spot (h.visited _ hy).bucket hlt

end Listing

section
variable {k : Contract} {v : View} {q : QueueName} {T : Slice → Prop} {s s' : Store} {b b' : Browse}

theorem Listing.after_pull {items : List Item} {s₁ : Store} (hs : s₁.Proper) (hg : s.Grows s₁)
    (hg' : s₁.Grows s') (hx : Browse.Yields k v q T s low b x b' s₁)
    (h : Listing v q T s₁ s' (v.spot x + 1) b' (Browse.Sought k v q s₁ s') items) :
    Listing v q T s s' low b (Browse.Sought k v q s s') (x :: items) :=
  (h.mono fun _ hy => hy.later hg).cons hx hs (.refl s) hg hg' fun _ hy => hy.sooner hg'

/-- A browse is pulled to its end without an error and without a failure put aside. -/
theorem Browse.pullMany_keeps (hk : k.AllowsReads) (hl : 0 < v.pageSize) (hfan : 0 < v.fanOut)
    (hT : ∀ t slice, k.clock t → slice ≤ v.allocator.sliceOf t → T slice) (hs : s.Proper)
    (h : b.From v q T s low) (hlimit : v.places * Partition.span < low + limit) :
    (b.pullMany v limit found).Keeps k (fun r s' => ∃ items,
      r.1 = (found.reverse ++ items.map .ok, true) ∧ r.2.failures = [] ∧
      Listing v q T s s' low b (Sought k v q s s') items) s := by
  induction limit generalizing s low b found with
  | zero => exact absurd h.bound (Nat.not_le.mpr hlimit)
  | succ limit ih =>
    refine Operation.keeps_bind.mpr (((pull_keeps hk hl hfan hT h).grows hk.toOrderly).mono ?_)
    rintro ⟨_ | e | x, b'⟩ s₁ ⟨hp, hg⟩
    · exact ⟨[], by simp, hp.1, .nil hp fun _ h => h⟩
    · exact hp.elim
    · have hlow := hp.low_le
      have hs₁ := hg.proper hs
      refine ((ih hs₁ hp.rest (by omega)).grows hk.toOrderly).mono ?_
      rintro ⟨r, b''⟩ s' ⟨⟨items, rfl, hf, hrest⟩, hg'⟩
      exact ⟨x :: items, by simp, hf, hrest.after_pull hs₁ hg hg' hp⟩

theorem View.countItems_keeps (hk : k.AllowsReads) (hl : 0 < v.pageSize) (hfan : 0 < v.fanOut)
    (hT : ∀ t slice, k.clock t → slice ≤ v.allocator.sliceOf t → T slice) (hs : s.Proper)
    (h : b.From v q T s low) (hlimit : v.places * Partition.span < low + limit) :
    (v.countItems limit n b).run.Keeps k (fun r s' => ∃ items : List Item,
      r = .ok (n + items.length) ∧
      Listing v q T s s' low b (Browse.Sought k v q s s') items) s := by
  induction limit generalizing s low b n with
  | zero => exact absurd h.bound (Nat.not_le.mpr hlimit)
  | succ limit ih =>
    refine Attempt.keeps_bind.mpr (Attempt.keeps_lift.mpr ?_)
    refine ((Browse.pull_keeps hk hl hfan hT h).grows hk.toOrderly).mono ?_
    rintro ⟨_ | e | x, b'⟩ s₁ ⟨hp, hg⟩
    · exact ⟨[], rfl, .nil hp fun _ h => h⟩
    · exact hp.elim
    · have hlow := hp.low_le
      have hs₁ := hg.proper hs
      refine ((ih hs₁ hp.rest (by omega)).grows hk.toOrderly).mono ?_
      rintro r s' ⟨⟨items, rfl, hrest⟩, hg'⟩
      refine ⟨x :: items, ?_, hrest.after_pull hs₁ hg hg' hp⟩
      rw [List.length_cons, Nat.add_right_comm, Nat.add_assoc]

end

end SpoolIndex
