import SpoolIndex.Proofs.View.BulkDeletion

/-!
# A bulk delete is exact

With the store to itself, a bulk delete deletes just those items that a browse shows
and the filter accepts, and a browse after it shows the others, in the same order
(`Installation.deleteMatching_exact`). Its own maintenance moves the browse start
while it reads, and the same key may lie in several slices.
-/

namespace SpoolIndex

section
variable {v : View} {q : QueueName} {s s' : Store} {t : Instant} {keys : List Key}

/-- After upkeep a browse lists what it did before, in the same order, but for what was buried. -/
theorem Listed.after_upkeep {items items' : List Item} (h : Listed v q s t items)
    (h' : Listed v q s' t items') (hs : s.Proper) (htended : s.Tended v q keys s') :
    items' = items.filter fun x => x.key ∉ keys := by
  refine View.eq_of_spots h'.sorted (h.sorted.filter _) fun x => ?_
  rw [h'.mem_iff, htended.browsable_iff hs, List.mem_filter, h.mem_iff, decide_eq_true_iff]

end

/-- Over a store in memory that nobody else uses, whatever the settings, the filter and the number
of deletes so far, a bulk delete succeeds and counts the keys of the items that a browse showed
before and the filter accepts. It adds their tombstones, touches no others and no item, and a browse
after it shows the rest of the items in the same order. -/
theorem Installation.deleteMatching_exact (config : Config) (seat : Seat) (q : QueueName)
    (filter : ItemFilter) (w : Installation) (s : Store) (calls : List StoreCall)
    (hw : w.Stores s calls) (hs : s.Proper) :
    let v := View.ofConfig config
    let browse := ((Request.browse q Browse.patience).perform v).run
    let deletion := ((Request.deleteMatching q filter).perform v).run
    let w₁ := (w.run seat browse).2
    let w₂ := (w₁.run seat deletion).2
    ∃ (items : List Item) (keys : List Key) (s' : Store) (calls' : List StoreCall),
      w₂.Stores s' calls' ∧
      (w.run seat browse).1 = .ok (.browsed (items.map .ok) []) ∧
      (keys.Nodup ∧ ∀ key, key ∈ keys ↔ ∃ x ∈ items, filter.accepts x ∧ x.key = key) ∧
      (w₁.run seat deletion).1 = .ok (.deletedMatching keys.length) ∧
      s'.items = s.items ∧
      (∀ key, key ∈ s'.tombstones q ↔ key ∈ keys ∨ key ∈ s.tombstones q) ∧
      (∀ q', q' ≠ q → s'.tombstones q' = s.tombstones q') ∧
      (w₂.run seat browse).1 =
        .ok (.browsed ((items.filter fun x => x.key ∉ keys).map .ok) []) := by
  intro v browse deletion w₁ w₂
  have hl := View.ofConfig_pageSize_pos config
  have hfan := View.ofConfig_fanOut_pos config
  have hbrowse (s : Store) (hs : s.Proper) (t : Instant) :
      browse.Keeps (.alone (Eq s) t) _ s := Request.browse_listed hl hfan hs
  obtain ⟨new, hw₁, hclock₁, hsame, items, hbefore, hlisted⟩ :=
    run_keeps seat hw rfl (hbrowse s hs (w.now seat.clock))
  rw [← hsame] at hw₁
  have hdelete : deletion.Keeps (.alone (fun _ => True) (w₁.now seat.clock)) _ s :=
    Request.deleteMatching_clears hl hfan hs
  obtain ⟨new', hw₂, hclock₂, -, keys, hresult, hcleared, hall⟩ :=
    run_keeps seat hw₁ trivial hdelete
  have hs' := hcleared.grows.proper hs
  obtain ⟨-, -, -, -, items', hafter, hlisted'⟩ := run_keeps seat hw₂ rfl (hbrowse _ hs' _)
  have ht₁ : w₁.now seat.clock = w.now seat.clock := by
    rw [now, hclock₁]
    rfl
  have ht₂ : w₂.now seat.clock = w.now seat.clock := by
    rw [now, hclock₂, hclock₁]
    rfl
  rw [ht₁] at hcleared hall
  rw [ht₂] at hlisted'
  rw [hlisted.after_upkeep hlisted' hs hcleared.toTended] at hafter
  refine ⟨items, keys, _, _, hw₂, hbefore, ⟨hcleared.nodup, fun key => ⟨fun hkey => ?_, ?_⟩⟩,
    hresult, hcleared.items, hcleared.buried, hcleared.others, hafter⟩
  · obtain ⟨x, hx, ha, he⟩ := hcleared.browsable key hkey
    exact ⟨x, hlisted.mem_iff.mpr hx, ha, he⟩
  · rintro ⟨x, hx, ha, rfl⟩
    exact hall x ha (hlisted.mem_iff.mp hx)

namespace Sample

/-- The mail is deleted, and maintenance moves the browse start past it before the browse comes to
the note. -/
theorem mail_cleared :
    let w := Installation.new (.memory ⟨twoMails, [], []⟩) [twoHours]
    let v := View.ofConfig eagerConfig
    let browse := ((Request.browse spool Browse.patience).perform v).run
    let deletion := ((Request.deleteMatching spool (.name "mail")).perform v).run
    let w₁ := (w.run seat browse).2
    let w₂ := (w₁.run seat deletion).2
    w.Stores twoMails [] ∧ twoMails.Proper ∧ ∃ (items : List Item) (keys : List Key),
      (w.run seat browse).1 = .ok (.browsed (items.map .ok) []) ∧
      items.map Item.name = ["mail", "note"] ∧
      (w₁.run seat deletion).1 = .ok (.deletedMatching keys.length) ∧
      (w₂.run seat browse).1 =
        .ok (.browsed ((items.filter fun x => x.key ∉ keys).map .ok) []) ∧
      (items.filter fun x => x.key ∉ keys).map Item.name = ["note"] := by
  intro w v browse deletion w₁ w₂
  have hnames {items : List Item} {names : List String} {result : Except Error Response}
      (hr : result = .ok (.browsed (items.map .ok) [])) (h : namesShown result = names) :
      items.map Item.name = names := by
    rw [hr, namesShown, List.filterMap_map] at h
    exact (congrFun List.filterMap_eq_map items).symm.trans h
  have hbefore : namesShown (w.run seat browse).1 = ["mail", "note"] := by decide +kernel
  have hafter : namesShown (w₂.run seat browse).1 = ["note"] := by decide +kernel
  obtain ⟨items, keys, -, -, -, hbrowse, -, hdelete, -, -, -, hrest⟩ :=
    Installation.deleteMatching_exact eagerConfig seat spool (.name "mail") w twoMails [] rfl
      twoMails_proper
  exact ⟨rfl, twoMails_proper, items, keys, hbrowse, hnames hbrowse hbefore, hdelete, hrest,
    hnames hrest hafter⟩

end Sample

end SpoolIndex
