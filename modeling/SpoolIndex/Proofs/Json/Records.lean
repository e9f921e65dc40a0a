import SpoolIndex.Json.Record
import SpoolIndex.Proofs.Json.Values
import SpoolIndex.Proofs.Time.Rfc3339

/-!
# Items, messages and partitions survive their text

A record is read from its text by the names of its members, in whatever order they
stand (`Reader.recordText?_render`). With the texts of its fields read back, each record
is what it was before (`records_survive`), whether it was written with its members
in order or was made a value first, whose members are sorted. Two things do not come
back: attributes with more levels than the reader goes into, and a leap second that is
not at the end of a minute (`Sample.records_changed`).
-/

namespace SpoolIndex

namespace Json

-- ---------------------------------------------------------------------------
-- Members in any order
-- ---------------------------------------------------------------------------

section
variable {α : Type} {ms ms' : List (String × α)} {name : String} {value : α}

theorem insertMember_perm (h : ∀ m ∈ ms, m.1 ≠ name) :
    (insertMember name value ms).Perm ((name, value) :: ms) := by
  induction ms with
  | nil => exact .refl _
  | cons m ms ih =>
    obtain ⟨hne, hrest⟩ := List.forall_mem_cons.mp h
    obtain ⟨other, old⟩ := m
    unfold insertMember
    split
    · exact .refl _
    · rw [if_neg (Ne.symm hne)]
      exact ((ih hrest).cons _).trans (.swap _ _ _)

theorem sortMembers_perm (h : (ms.map Prod.fst).Nodup) : (sortMembers ms).Perm ms := by
  suffices hfold : ∀ sorted : List (String × α), ((sorted ++ ms).map Prod.fst).Nodup →
      (ms.foldl (fun sorted (name, value) => insertMember name value sorted) sorted).Perm
        (sorted ++ ms) from hfold [] h
  clear h
  induction ms with
  | nil => simp
  | cons m ms ih =>
    obtain ⟨name, value⟩ := m
    intro sorted hs
    have hnew : ∀ m ∈ sorted, m.1 ≠ name := by
      intro m hm he
      rw [List.map_append] at hs
      exact (List.nodup_append.mp hs).2.2 _ (List.mem_map_of_mem hm) _ List.mem_cons_self he
    have hp : (insertMember name value sorted ++ ms).Perm (sorted ++ (name, value) :: ms) :=
      ((insertMember_perm hnew).append_right ms).trans List.perm_middle.symm
    exact (ih _ ((hp.map Prod.fst).nodup_iff.mpr hs)).trans hp

theorem lookup_perm (h : ms.Perm ms') (hd : (ms.map Prod.fst).Nodup) :
    ms.lookup name = ms'.lookup name := by
  induction h with
  | nil => rfl
  | cons m _ ih =>
    obtain ⟨other, value⟩ := m
    rw [List.lookup_cons, List.lookup_cons, ih (List.nodup_cons.mp hd).2]
  | swap m m' ms =>
    obtain ⟨first, x⟩ := m
    obtain ⟨second, y⟩ := m'
    obtain ⟨hne, -⟩ := List.nodup_cons.mp hd
    have hne : second ≠ first := fun he => hne (he ▸ List.mem_cons_self)
    simp only [List.lookup_cons]
    cases hsecond : name == second <;> cases hfirst : name == first
    case true.true =>
      exact absurd ((beq_iff_eq.mp hsecond).symm.trans (beq_iff_eq.mp hfirst)) hne
    all_goals rfl
  | trans h h' ih ih' => exact (ih hd).trans (ih' ((h.map Prod.fst).nodup_iff.mp hd))

theorem lookup_of_mem (hd : (ms.map Prod.fst).Nodup) (h : (name, value) ∈ ms) :
    ms.lookup name = some value := by
  induction ms with
  | nil => cases h
  | cons m ms ih =>
    obtain ⟨hm, hrest⟩ := List.nodup_cons.mp hd
    rcases List.mem_cons.mp h with rfl | h
    · exact List.lookup_cons_self
    · have hne : (name == m.1) = false := by
        refine beq_eq_false_iff_ne.mpr fun he => hm ?_
        exact he ▸ List.mem_map_of_mem h
      rw [List.lookup_cons, hne]
      exact ih hrest h

theorem filter_eq_lookup (hd : (ms.map Prod.fst).Nodup) :
    ms.filter (·.1 == name) = ((ms.lookup name).map fun value => (name, value)).toList := by
  induction ms with
  | nil => rfl
  | cons m ms ih =>
    obtain ⟨other, value⟩ := m
    obtain ⟨hother, hrest⟩ := List.nodup_cons.mp hd
    have ih := ih hrest
    by_cases he : name = other
    · subst he
      have hnone : ms.lookup name = none := by
        refine List.lookup_eq_none_iff.mpr fun m hm => ?_
        have hm : m.1 ∈ ms.map Prod.fst := List.mem_map_of_mem hm
        simp only [bne_iff_ne]
        exact fun he => hother (he ▸ hm)
      simp [ih, hnone]
    · have he' : (name == other) = false := beq_eq_false_iff_ne.mpr he
      simp [List.lookup_cons, he', Ne.symm he, ih]

end

namespace Reader

-- ---------------------------------------------------------------------------
-- Reading records
-- ---------------------------------------------------------------------------

variable {names : List String} {ms : List (String × Json)} {rest : List Char}

theorem mapM_eq_map {f : α → Option β} {g : α → β} {xs : List α} (h : ∀ x ∈ xs, f x = some (g x)) :
    xs.mapM f = some (xs.map g) := by
  induction xs with
  | nil => rfl
  | cons x xs ih =>
    obtain ⟨hx, hxs⟩ := List.forall_mem_cons.mp h
    simp [List.mapM_cons, hx, ih hxs]

theorem select?_eq (hd : (ms.map Prod.fst).Nodup) :
    select? names (ms.map fun m => (m.1, some m.2)) = some ((Json.object ms).pick names) := by
  refine mapM_eq_map fun name _ => ?_
  have hfilter : (ms.map fun m => (m.1, some m.2)).filter (·.1 == name) =
      (ms.filter (·.1 == name)).map fun m => (m.1, some m.2) := List.filter_map
  rw [hfilter, filter_eq_lookup hd, Json.member?]
  cases ms.lookup name <;> rfl

theorem readsAs_known {name : String} {x : Json} (hname : name ∈ names) (h : Plain memberDepth x) :
    ReadsAs (knownMember? names name) (chars x) (some x) := by
  have hvalue : ReadsAs (value? true _) _ _ := readsAs_value h
  refine ⟨hvalue.begins, fun rest hr => ?_⟩
  simp [knownMember?, hname, hvalue.reads rest hr]

theorem fails_known {name : String} {x : Json} (hname : name ∈ names)
    (h : Fails (value? true memberDepth) (chars x)) :
    Fails (knownMember? names name) (chars x) := by
  refine ⟨h.begins, fun rest hr => ?_⟩
  simp [knownMember?, hname, h.fails rest hr]

theorem recordText?_render (hd : (ms.map Prod.fst).Nodup)
    (h : ∀ m ∈ ms, m.1 ∈ names ∧ Plain memberDepth m.2) :
    recordText? names (Json.object ms).render = some ((Json.object ms).pick names) := by
  have hitems : ∀ m ∈ ms, ReadsAs (member? true (knownMember? names)) (memberText m)
      (m.1, some m.2) := fun m hm => ReadsAs.member (readsAs_known (h m hm).1 (h m hm).2)
  have hmembers := bracketed?_listed (.inr rfl) hitems []
  rw [List.append_nil] at hmembers
  have hopen (text : List Char) : skipBlanks ('\x7b' :: text) = '\x7b' :: text := by
    simp [skipBlanks, isBlank]
  simp only [recordText?, record?, render, String.toList_ofList, chars_object, hopen, hmembers,
    Option.bind_eq_bind, Option.bind_some, select?_eq hd]
  rfl

theorem recordText?_deep (h : ∀ m ∈ ms, m.1 ∈ names ∧ ∃ levels, Plain levels m.2)
    (hdeep : ∃ m ∈ ms, ¬Plain memberDepth m.2) :
    recordText? names (Json.object ms).render = none := by
  have hfails {m : String × Json} (hm : m ∈ ms) (hplain : ¬Plain memberDepth m.2) :
      Fails (member? true (knownMember? names)) (memberText m) := by
    obtain ⟨hname, levels, hlevels⟩ := h m hm
    exact Fails.member (fails_known hname (fails_value hlevels hplain))
  have hitems : ∀ m ∈ ms,
      (∃ y, ReadsAs (member? true (knownMember? names)) (memberText m) y) ∨
        Fails (member? true (knownMember? names)) (memberText m) := by
    intro m hm
    by_cases hplain : Plain memberDepth m.2
    · exact .inl ⟨_, ReadsAs.member (readsAs_known (h m hm).1 hplain)⟩
    · exact .inr (hfails hm hplain)
  obtain ⟨m, hm, hplain⟩ := hdeep
  have hmembers := bracketed?_fails (.inr rfl) hitems ⟨m, hm, hfails hm hplain⟩ []
  rw [List.append_nil] at hmembers
  have hopen (text : List Char) : skipBlanks ('\x7b' :: text) = '\x7b' :: text := by
    simp [skipBlanks, isBlank]
  simp only [recordText?, record?, render, String.toList_ofList, chars_object, hopen, hmembers,
    Option.bind_eq_bind, Option.bind_none]

end Reader

-- ---------------------------------------------------------------------------
-- Fields
-- ---------------------------------------------------------------------------

theorem asSlice?_index (s : Slice) : (Json.int s.index).asSlice? = some s := by
  simp [asSlice?, Slice.ofInt?, s.lowest_le, s.le_highest]

theorem asBucket?_id (b : Bucket) : (Json.int b.id.toNat).asBucket? = some b := by
  have hlt : (b.id.toNat : Int) < 4294967296 := Int.ofNat_lt.mpr b.id.toNat_lt
  simp [asBucket?, hlt]

theorem asKey?_render (k : Key) : (Json.string k.render).asKey? = some k := by
  rw [asKey?, asText?, Option.bind_some, Key.ofText?_render]

theorem asOptionalText?_of (text : Option String) :
    (ofOptionalText text).asOptionalText? = some text := by
  cases text <;> rfl

theorem asTexts?_strings (texts : List String) :
    (Json.array (texts.map .string)).asTexts? = some texts := by
  have h : texts.mapM (asText? ∘ Json.string) = some (texts.map id) :=
    Reader.mapM_eq_map fun _ _ => rfl
  rw [asTexts?, List.mapM_map, h, List.map_id]

theorem Plain.slice (s : Slice) : Plain depth (.int s.index) := by
  have hlow := s.lowest_le
  have hhigh := s.le_highest
  simp only [Slice.lowest, Slice.highest] at hlow hhigh
  exact .int (by omega) (by omega)

theorem Plain.bucket (b : Bucket) : Plain depth (.int b.id.toNat) := by
  have hlt := b.id.toNat_lt
  exact .int (by omega) (by omega)

theorem Plain.optionalText (text : Option String) : Plain depth (ofOptionalText text) := by
  cases text
  · exact .null
  · exact .string

theorem Plain.texts (texts : List String) : Plain (depth + 1) (.array (texts.map .string)) := by
  refine .array fun x hx => ?_
  obtain ⟨text, -, rfl⟩ := List.mem_map.mp hx
  exact .string

-- ---------------------------------------------------------------------------
-- Whole records
-- ---------------------------------------------------------------------------

theorem pick_own {ms : List (String × Json)} (hd : (ms.map Prod.fst).Nodup) :
    (Json.object ms).pick (ms.map Prod.fst) = ms.map fun m => some m.2 := by
  rw [pick, List.map_map]
  exact List.map_congr_left fun m hm => lookup_of_mem hd hm

theorem recordText?_own {names : List String} {ms : List (String × Json)}
    (hn : ms.map Prod.fst = names) (hd : names.Nodup)
    (h : ∀ m ∈ ms, Plain Reader.memberDepth m.2) :
    Reader.recordText? names (recordText ms) = some (ms.map fun m => some m.2) := by
  subst hn
  rw [recordText, Reader.recordText?_render hd fun m hm => ⟨List.mem_map_of_mem hm, h m hm⟩,
    pick_own hd]

theorem survives {names : List String} {ms : List (String × Json)}
    {ofValues? : List (Option Json) → Option α} {x : α} (hn : ms.map Prod.fst = names)
    (hd : names.Nodup) (h : ∀ m ∈ ms, Plain Reader.memberDepth m.2)
    (hv : ofValues? (ms.map fun m => some m.2) = some x) :
    (Reader.recordText? names (recordText ms)).bind ofValues? = some x ∧
      ofValues? ((ofMembers ms).pick names) = some x ∧
      (Reader.recordText? names (ofMembers ms).render).bind ofValues? = some x := by
  have hown := recordText?_own hn hd h
  subst hn
  have hp := sortMembers_perm hd
  have hd' : ((sortMembers ms).map Prod.fst).Nodup := (hp.map Prod.fst).nodup_iff.mpr hd
  have hpick : (ofMembers ms).pick (ms.map Prod.fst) = ms.map fun m => some m.2 := by
    rw [← pick_own hd]
    exact List.map_congr_left fun name _ => lookup_perm hp hd'
  have hknown : ∀ m ∈ ms, m.1 ∈ ms.map Prod.fst ∧ Plain Reader.memberDepth m.2 :=
    fun m hm => ⟨List.mem_map_of_mem hm, h m hm⟩
  have hsorted := Reader.recordText?_render hd' fun m hm => hknown m (hp.mem_iff.mp hm)
  refine ⟨by rw [hown, Option.bind_some, hv], hpick ▸ hv, ?_⟩
  rw [ofMembers, hsorted]
  exact hpick ▸ hv

end Json

theorem Partition.survives (p : Partition) : Partition.ofJsonText? p.toJsonText = some p ∧
    Partition.ofJson? p.toJson = some p ∧ Partition.ofJsonText? p.toJson.render = some p := by
  refine Json.survives rfl (by decide) ?_ ?_
  · simp only [members, List.forall_mem_cons]
    exact ⟨.string, .slice _, .bucket _, nofun⟩
  · simp [members, ofValues?, Json.asText?, Json.asSlice?_index, Json.asBucket?_id]

-- ---------------------------------------------------------------------------
-- Messages
-- ---------------------------------------------------------------------------

namespace Message

variable {m : Message}

theorem members_plain (m : Message) :
    ∀ member ∈ m.members, member.2.Plain Json.Reader.memberDepth := by
  simp only [members, List.forall_mem_cons]
  exact ⟨.string, .string, .string, .string, .string, .string, nofun⟩

theorem ofValues?_members (m : Message) : ofValues? (m.members.map fun member => some member.2) =
    (Rfc3339.read? (Rfc3339.render m.enqueuedAt)).map fun t => { m with enqueuedAt := t } := by
  rw [Option.map_eq_bind, Function.comp_def]
  simp [members, ofValues?, Json.asText?, Json.asKey?_render, Json.asInstant?]

theorem survives (h : m.enqueuedAt.OnClock) :
    ofJsonText? m.toJsonText = some m ∧ ofJson? m.toJson = some m ∧
      ofJsonText? m.toJson.render = some m := by
  refine Json.survives rfl (by decide) m.members_plain ?_
  rw [ofValues?_members, Rfc3339.read?_render_iff.mpr h, Option.map_some]

theorem ofJsonText?_toJsonText_iff : ofJsonText? m.toJsonText = some m ↔ m.enqueuedAt.OnClock := by
  refine ⟨fun h => ?_, fun h => (survives h).1⟩
  have hown : Json.Reader.recordText? memberNames m.toJsonText = _ :=
    Json.recordText?_own rfl (by decide) m.members_plain
  rw [ofJsonText?, hown, Option.bind_some, ofValues?_members] at h
  obtain ⟨t, hread, ht⟩ := Option.map_eq_some_iff.mp h
  rw [← Rfc3339.read?_render_iff, hread]
  exact congrArg (fun m => some m.enqueuedAt) ht

end Message

-- ---------------------------------------------------------------------------
-- Items
-- ---------------------------------------------------------------------------

namespace Item

variable {x : Item} {levels : Nat}

theorem members_plain (ha : (Json.object x.attributes).Plain Json.Reader.memberDepth) :
    ∀ m ∈ x.members, m.2.Plain Json.Reader.memberDepth := by
  simp only [members, List.forall_mem_cons]
  exact ⟨.string, .slice _, .bucket _, .string, .string, .string, .optionalText _, .texts _,
    .string, .string, ha, nofun⟩

theorem ofValues?_members (x : Item) : ofValues? (x.members.map fun m => some m.2) =
    (Rfc3339.read? (Rfc3339.render x.enqueuedAt)).map fun t => { x with enqueuedAt := t } := by
  rw [Option.map_eq_bind, Function.comp_def]
  simp [members, ofValues?, Json.asText?, Json.asMembers?, Json.asSlice?_index,
    Json.asBucket?_id, Json.asKey?_render, Json.asInstant?, Json.asTexts?_strings,
    Json.asOptionalText?_of]

theorem ofJsonText?_toJsonText (ha : (Json.object x.attributes).Plain Json.Reader.memberDepth) :
    ofJsonText? x.toJsonText =
      (Rfc3339.read? (Rfc3339.render x.enqueuedAt)).map fun t => { x with enqueuedAt := t } := by
  have hown : Json.Reader.recordText? memberNames x.toJsonText = _ :=
    Json.recordText?_own rfl (by decide) (members_plain ha)
  rw [ofJsonText?, hown, Option.bind_some, ofValues?_members]

theorem ofJsonText?_deep (ha : (Json.object x.attributes).Plain levels)
    (hdeep : ¬(Json.object x.attributes).Plain Json.Reader.memberDepth) :
    ofJsonText? x.toJsonText = none := by
  have hlevels : ∀ m ∈ x.members, ∃ levels, m.2.Plain levels := by
    simp only [members, List.forall_mem_cons]
    exact ⟨⟨0, .string⟩, ⟨0, .slice _⟩, ⟨0, .bucket _⟩, ⟨0, .string⟩, ⟨0, .string⟩, ⟨0, .string⟩,
      ⟨0, .optionalText _⟩, ⟨1, .texts _⟩, ⟨0, .string⟩, ⟨0, .string⟩, ⟨levels, ha⟩, nofun⟩
  have hnames : x.members.map Prod.fst = memberNames := rfl
  have hnone : Json.Reader.recordText? memberNames x.toJsonText = none := by
    refine Json.Reader.recordText?_deep (fun m hm => ⟨?_, hlevels m hm⟩)
      ⟨("attributes", .object x.attributes), by simp [members], hdeep⟩
    rw [← hnames]
    exact List.mem_map_of_mem hm
  rw [ofJsonText?, hnone, Option.bind_none]

theorem survives (h : x.enqueuedAt.OnClock)
    (ha : (Json.object x.attributes).Plain Json.Reader.memberDepth) :
    ofJsonText? x.toJsonText = some x ∧ ofJson? x.toJson = some x ∧
      ofJsonText? x.toJson.render = some x := by
  refine Json.survives rfl (by decide) (members_plain ha) ?_
  rw [ofValues?_members, Rfc3339.read?_render_iff.mpr h, Option.map_some]

/-- These two are all that keeps an item from coming back from its text. -/
theorem ofJsonText?_toJsonText_iff (hp : (Json.object x.attributes).Plain levels) :
    ofJsonText? x.toJsonText = some x ↔
      x.enqueuedAt.OnClock ∧ (Json.object x.attributes).Plain Json.Reader.memberDepth := by
  refine ⟨fun h => ?_, fun ⟨h, ha⟩ => (survives h ha).1⟩
  by_cases ha : (Json.object x.attributes).Plain Json.Reader.memberDepth
  · rw [ofJsonText?_toJsonText ha] at h
    obtain ⟨t, hread, ht⟩ := Option.map_eq_some_iff.mp h
    refine ⟨?_, ha⟩
    rw [← Rfc3339.read?_render_iff, hread]
    exact congrArg (fun x => some x.enqueuedAt) ht
  · rw [ofJsonText?_deep hp ha] at h
    cases h

end Item

-- ---------------------------------------------------------------------------
-- All records
-- ---------------------------------------------------------------------------

/-- Items, messages and partitions are the same after they were written and read: as text, as a
value, and as the text of that value. The attributes of an item are the second level of its text,
which may have 127, and a leap second has to be at the end of a minute; these two conditions are
exact. -/
theorem records_survive :
    (∀ x : Item, x.enqueuedAt.OnClock → (Json.object x.attributes).Plain 126 →
      Item.ofJsonText? x.toJsonText = some x ∧ Item.ofJson? x.toJson = some x ∧
        Item.ofJsonText? x.toJson.render = some x ∧
        (Item.ofJsonText? x.toJsonText).map Item.partition = some x.partition) ∧
    (∀ m : Message, m.enqueuedAt.OnClock →
      Message.ofJsonText? m.toJsonText = some m ∧ Message.ofJson? m.toJson = some m ∧
        Message.ofJsonText? m.toJson.render = some m) ∧
    (∀ p : Partition, Partition.ofJsonText? p.toJsonText = some p ∧
      Partition.ofJson? p.toJson = some p ∧ Partition.ofJsonText? p.toJson.render = some p) ∧
    (∀ (x : Item) (levels : Nat), (Json.object x.attributes).Plain levels →
      (Item.ofJsonText? x.toJsonText = some x ↔
        x.enqueuedAt.OnClock ∧ (Json.object x.attributes).Plain 126)) ∧
    ∀ m : Message, Message.ofJsonText? m.toJsonText = some m ↔ m.enqueuedAt.OnClock := by
  refine ⟨fun x h ha => ?_, fun m h => Message.survives h, Partition.survives,
    fun x levels hp => Item.ofJsonText?_toJsonText_iff hp,
    fun m => Message.ofJsonText?_toJsonText_iff⟩
  obtain ⟨htext, hvalue, hsorted⟩ := Item.survives h ha
  exact ⟨htext, hvalue, hsorted, by rw [htext, Option.map_some]⟩

namespace Sample

def lastMoment : Instant := .latestLeap

/-- An item at the ends of all ranges, with texts that have to be escaped. -/
def lastItem : Item where
  queue := ⟨"a \"queue\"\n"⟩
  slice := Slice.min
  bucket := ⟨4294967295⟩
  key := default
  enqueuedAt := lastMoment
  name := "\x00\\u0041"
  sender := none
  recipients := ["", "\u00e9"]
  headerRef := ⟨"header"⟩
  bodyRef := ⟨"body"⟩
  attributes := [("a", .array [.int 18446744073709551615, .object [("", .null)]]),
    ("b", .int (-9223372036854775808))]

def lastMessage : Message := ⟨lastItem.queue, default, "", lastMoment, ⟨""⟩, ⟨""⟩⟩

theorem lastItem_plain : (Json.object lastItem.attributes).Plain 126 := by
  refine .object (by decide) ?_
  simp only [lastItem, List.forall_mem_cons]
  refine ⟨.array ?_, .int (by decide) (by decide), nofun⟩
  simp only [List.forall_mem_cons]
  refine ⟨.int (by decide) (by decide), .object (by decide) ?_, nofun⟩
  simp only [List.forall_mem_cons]
  exact ⟨.null, nofun⟩

theorem lastItem_survives : lastMoment.OnClock ∧ (Json.object lastItem.attributes).Plain 126 ∧
    Item.ofJsonText? lastItem.toJsonText = some lastItem ∧
    Message.ofJson? lastMessage.toJson = some lastMessage ∧
    Partition.ofJsonText? lastItem.partition.toJsonText = some lastItem.partition := by
  obtain ⟨hitems, hmessages, hpartitions, -⟩ := records_survive
  have hclock : lastMoment.OnClock := by decide
  exact ⟨hclock, lastItem_plain, (hitems lastItem hclock lastItem_plain).1,
    (hmessages lastMessage hclock).2.1, (hpartitions lastItem.partition).1⟩

def nested : Nat → Json
  | 0 => .null
  | n + 1 => .array [nested n]

theorem nested_plain_iff {n depth : Nat} : (nested n).Plain depth ↔ n ≤ depth := by
  induction n generalizing depth with
  | zero => exact iff_of_true .null (Nat.zero_le depth)
  | succ n ih =>
    constructor
    · rintro ⟨⟩
      rename_i depth h
      exact Nat.succ_le_succ (ih.mp (h _ List.mem_cons_self))
    · intro h
      obtain ⟨depth, rfl⟩ := Nat.exists_eq_add_one.mpr (Nat.zero_lt_of_lt h)
      exact .array (List.forall_mem_singleton.mpr (ih.mpr (Nat.le_of_succ_le_succ h)))

def deepItem : Item := { lastItem with attributes := [("a", nested 126)] }

/-- A third into a leap second after 23:56:04. -/
def oddLeap : Instant := ⟨1483228564, 1333333333, by decide, by decide, by decide⟩

def afterOddLeap : Instant := ⟨1483228565, 333333333, by decide, by decide, by decide⟩

def oddItem : Item := { lastItem with enqueuedAt := oddLeap }

/-- The one is not read back, and the other is with the moment a second later. -/
theorem records_changed :
    ((Json.object deepItem.attributes).Plain 127 ∧ Item.ofJsonText? deepItem.toJsonText = none) ∧
    (Json.object oddItem.attributes).Plain 126 ∧
      Item.ofJsonText? oddItem.toJsonText = some { oddItem with enqueuedAt := afterOddLeap } := by
  have hdeep {depth : Nat} : (Json.object deepItem.attributes).Plain (depth + 1) ↔ 126 ≤ depth := by
    constructor
    · rintro ⟨⟩
      rename_i _ h
      exact nested_plain_iff.mp (h _ List.mem_cons_self)
    · intro h
      exact .object (by simp [deepItem]) (List.forall_mem_singleton.mpr (nested_plain_iff.mpr h))
  have hlevels : (Json.object deepItem.attributes).Plain 127 := hdeep.mpr (Nat.le_refl _)
  have hread : Rfc3339.read? (Rfc3339.render oddLeap) = some afterOddLeap := by
    rw [Rfc3339.read?_render]
    decide
  refine ⟨⟨hlevels, Item.ofJsonText?_deep hlevels (mt hdeep.mp (by decide))⟩, lastItem_plain, ?_⟩
  have hodd := Item.ofJsonText?_toJsonText (x := oddItem) lastItem_plain
  exact hodd.trans (congrArg _ hread)

end Sample

end SpoolIndex
