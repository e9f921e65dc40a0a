import SpoolIndex.Proofs.Operation.Hosting

/-!
# How a record may go

A record opens its queue, appends the item and looks at the browse start, and ends
with the first of these that fails (`View.Writes`). On a store that nobody else
writes it leaves one of three stores behind (`View.Writes.leaves`), and without
failures the last of them (`View.Writes.alone`).
-/

namespace SpoolIndex

variable {v : View} {x : Item} {s s' : Store} {path : List Exchange}

namespace Store

def openedAt (s : Store) (q : QueueName) (slice : Slice) : Store :=
  (s.perform (.swapStart q .absent slice)).2

theorem openedAt_of_none (h : s.start q = none) : s.openedAt q slice = s.setStart q slice := by
  simp [openedAt, perform, swapApplies, h]

theorem openedAt_of_open (h : s.start q ≠ none) : s.openedAt q slice = s := by
  obtain ⟨start, hs⟩ := Option.ne_none_iff_exists'.mp h
  simp [openedAt, perform, swapApplies, hs]

theorem items_openedAt : (s.openedAt q slice).items = s.items :=
  items_perform fun _ => StoreCall.noConfusion

theorem open_openedAt : (s.openedAt q slice).start q ≠ none := s.open_swapStart_absent q slice

end Store

-- ---------------------------------------------------------------------------
-- The actions of a record
-- ---------------------------------------------------------------------------

def View.IsRecording (v : View) (x : Item) : Action → Prop
  | .store c => c = .swapStart x.queue .absent (x.slice.back v.settleSlices) ∨
      c = .readStart x.queue ∨ c = .appendItem x
  | .report _ => True
  | _ => False

theorem View.IsRecording.of_append (h : v.IsRecording x (.store (.appendItem y))) : y = x := by
  obtain h | h | h := h <;> cases h
  rfl

theorem Reporting.recording (h : Reporting path) : ∀ e ∈ path, v.IsRecording x e.action :=
  h.of_report fun _ => trivial

-- ---------------------------------------------------------------------------
-- Opening a queue
-- ---------------------------------------------------------------------------

namespace BrowseStart

/-- To open a queue takes a conditional write, and a look at its browse start if it was open. -/
inductive Establishes (q : QueueName) (slice : Slice) : List Exchange → Except Error Slice → Prop
  | failed (e : Error) :
    Establishes q slice [⟨.store (.swapStart q .absent slice), .error e⟩] (.error e)
  | opened : Establishes q slice [⟨.store (.swapStart q .absent slice), .ok true⟩] (.ok slice)
  | found (read : Except Error (Option Slice)) : Establishes q slice
      [⟨.store (.swapStart q .absent slice), .ok false⟩, ⟨.store (.readStart q), read⟩]
      (read.map fun start => start.getD Slice.min)

theorem establishes_of_ends {result : Except Error Slice}
    (h : (BrowseStart.establish q slice).run.Ends path result) :
    Establishes q slice path result := by
  obtain ⟨e, he, rfl⟩ | ⟨_, _, applied, rfl, hswap, hrest⟩ := Attempt.ends_bind_cases h
  · obtain rfl := he.of_perform
    exact .failed e
  obtain rfl := hswap.of_perform
  cases applied with
  | true =>
    obtain ⟨rfl, rfl⟩ := hrest.of_done
    exact .opened
  | false =>
    obtain ⟨e, he, rfl⟩ | ⟨_, _, start, rfl, hread, hdone⟩ := Attempt.ends_bind_cases hrest
    · obtain rfl := he.of_perform
      exact .found (.error e)
    · obtain rfl := hread.of_perform
      obtain ⟨rfl, rfl⟩ := hdone.of_done
      exact .found (.ok start)

theorem Establishes.recording
    (h : Establishes x.queue (x.slice.back v.settleSlices) path result) :
    ∀ e ∈ path, v.IsRecording x e.action := by
  cases h <;> simp [View.IsRecording]

theorem Establishes.leaves (h : Establishes q slice path result)
    (hs : s.Undergoes (.among Eq) path s') :
    (s' = s ∨ s' = s.openedAt q slice) ∧ (result.isOk → s' = s.openedAt q slice) := by
  cases h with
  | failed e =>
    cases hs with
    | cons hswap hnil =>
      cases hnil
      obtain ⟨_, rfl, hswap⟩ := hswap
      obtain ⟨-, hs⟩ | ⟨-, -, hs⟩ := hswap.of_call
      · exact ⟨.inr hs, nofun⟩
      · exact ⟨hs, nofun⟩
  | opened =>
    cases hs with
    | cons hswap hnil =>
      cases hnil
      obtain ⟨_, rfl, hswap⟩ := hswap
      exact ⟨.inr hswap.of_ok.2, fun _ => hswap.of_ok.2⟩
  | found read =>
    cases hs with
    | cons hswap hread =>
      cases hread with
      | cons hread hnil =>
        cases hnil
        obtain ⟨_, rfl, hswap⟩ := hswap
        obtain ⟨_, rfl, hread⟩ := hread
        rw [hread.of_read trivial]
        exact ⟨.inr hswap.of_ok.2, fun _ => hswap.of_ok.2⟩

theorem Establishes.alone (h : Establishes q slice path result)
    (hs : s.Undergoes Store.Answers path s') : result.isOk := by
  cases h with
  | failed e =>
    cases hs with
    | cons hswap _ =>
      have he := hswap.store_eq.1
      simp only [Store.perform] at he
      split at he <;> cases he
  | opened => rfl
  | found read =>
    cases hs with
    | cons _ hread =>
      cases hread with
      | cons hread _ =>
        rw [hread.store_eq.1]
        rfl

end BrowseStart

-- ---------------------------------------------------------------------------
-- Appending an item
-- ---------------------------------------------------------------------------

namespace View

def verdict (x : Item) : Option Slice → Except Error Unit
  | some start =>
    if x.slice < start then .error (.indexing x.queue x.key behindBrowseStart) else .ok ()
  | none => .ok ()

theorem verdict_ok_iff : verdict x (some start) = .ok () ↔ start ≤ x.slice := by
  rw [verdict, ← Slice.not_lt]
  split <;> rename_i hlt <;> simp [hlt]

theorem verdict_error (h : verdict x start = .error e) :
    e = .indexing x.queue x.key behindBrowseStart := by
  cases start with
  | none => cases h
  | some start =>
    rw [verdict] at h
    split at h <;> cases h
    rfl

theorem confirm_ends (h : (confirm x).run.Ends path result) : ∃ read,
    path = [⟨.store (.readStart x.queue), read⟩] ∧
      result = (read.mapError (indexing x)).bind (verdict x) := by
  obtain ⟨_, hread, rfl⟩ | ⟨_, _, start, rfl, hread, hrest⟩ := Attempt.ends_bind_cases h
  · obtain ⟨read, he, hread⟩ := Attempt.ends_mapError hread
    obtain rfl := hread.of_perform
    exact ⟨read, rfl, by rw [← he]; rfl⟩
  · obtain ⟨read, he, hread⟩ := Attempt.ends_mapError hread
    obtain rfl := hread.of_perform
    refine ⟨read, ?_⟩
    rw [← he]
    cases start with
    | none =>
      obtain ⟨rfl, rfl⟩ := hrest.of_done
      exact ⟨rfl, rfl⟩
    | some start =>
      simp only [Except.bind, verdict]
      dsimp only at hrest
      split at hrest <;> rename_i hlt <;> obtain ⟨rfl, rfl⟩ := hrest.of_done <;> simp [hlt]

/-- How the store calls of a record may go. -/
inductive Writes (v : View) (x : Item) : List Exchange → Except Error Unit → Prop
  | unopened
    (h : BrowseStart.Establishes x.queue (x.slice.back v.settleSlices) opening (.error e)) :
    Writes v x opening (.error (indexing x e))
  | unappended (e : Error)
    (h : BrowseStart.Establishes x.queue (x.slice.back v.settleSlices) opening (.ok start)) :
    Writes v x (opening ++ [⟨.store (.appendItem x), .error e⟩]) (.error (indexing x e))
  | appended (read : Except Error (Option Slice))
    (h : BrowseStart.Establishes x.queue (x.slice.back v.settleSlices) opening (.ok start)) :
    Writes v x (opening ++ [⟨.store (.appendItem x), .ok ()⟩, ⟨.store (.readStart x.queue), read⟩])
      ((read.mapError (indexing x)).bind (verdict x))

theorem writes_of_ends (h : (v.write x).run.Ends path result) : v.Writes x path result := by
  rw [write] at h
  obtain ⟨_, hfirst, rfl⟩ | ⟨opening, _, _, rfl, hfirst, hrest⟩ := Attempt.ends_bind_cases h
  · obtain ⟨e | start, he, hopen⟩ := Attempt.ends_mapError hfirst <;> cases he
    exact .unopened (BrowseStart.establishes_of_ends hopen)
  obtain ⟨e | start, he, hopen⟩ := Attempt.ends_mapError hfirst <;> cases he
  obtain ⟨_, hsecond, rfl⟩ | ⟨_, _, _, rfl, hsecond, hconfirm⟩ := Attempt.ends_bind_cases hrest
  · obtain ⟨e | _, he, happend⟩ := Attempt.ends_mapError hsecond <;> cases he
    obtain rfl := happend.of_perform
    exact .unappended e (BrowseStart.establishes_of_ends hopen)
  · obtain ⟨e | ⟨⟩, he, happend⟩ := Attempt.ends_mapError hsecond <;> cases he
    obtain rfl := happend.of_perform
    obtain ⟨read, rfl, rfl⟩ := confirm_ends hconfirm
    exact .appended read (BrowseStart.establishes_of_ends hopen)

theorem Writes.recording (h : v.Writes x path result) :
    ∀ e ∈ path, v.IsRecording x e.action := by
  cases h with
  | unopened h => exact h.recording
  | unappended e h => simpa [or_imp, forall_and, IsRecording] using h.recording
  | appended read h => simpa [or_imp, forall_and, IsRecording] using h.recording

theorem write_takes : (v.write x).run.Takes (v.IsRecording x) :=
  Operation.takes_of_ends fun _ _ he => (writes_of_ends he).recording

def written (v : View) (x : Item) (s : Store) : Store :=
  (s.openedAt x.queue (x.slice.back v.settleSlices)).append x

theorem open_written (v : View) (x : Item) (s : Store) : (v.written x s).start x.queue ≠ none :=
  Store.open_openedAt

/-- After its append is answered a record has left all that it ever leaves, and an answer to its
last look tells where the queue starts. -/
theorem undergoes_appended {read : Except Error (Option Slice)} {opening : List Exchange}
    (h : BrowseStart.Establishes x.queue (x.slice.back v.settleSlices) opening (.ok start))
    (hs : s.Undergoes (.among Eq) (opening ++
      [⟨.store (.appendItem x), .ok ()⟩, ⟨.store (.readStart x.queue), read⟩]) s') :
    s' = v.written x s ∧ (read = .ok (s'.start x.queue) ∨ ∃ e, read = .error e) := by
  obtain ⟨s₁, hopen, hrest⟩ := Store.undergoes_append.mp hs
  obtain rfl := (h.leaves hopen).2 rfl
  cases hrest with
  | cons happend hread =>
    cases hread with
    | cons hread hnil =>
      cases hnil
      obtain ⟨_, rfl, happend⟩ := happend
      obtain ⟨_, rfl, hread⟩ := hread
      obtain ⟨-, rfl⟩ := happend.of_ok
      obtain rfl := hread.of_read trivial
      refine ⟨rfl, ?_⟩
      obtain ⟨hread, -⟩ | ⟨e, he, -⟩ := hread.of_call
      · exact .inl hread
      · exact .inr ⟨e, he⟩

theorem Writes.leaves (h : v.Writes x path result) (hs : s.Undergoes (.among Eq) path s') :
    s' = s ∨ s' = s.openedAt x.queue (x.slice.back v.settleSlices) ∨ s' = v.written x s := by
  cases h with
  | unopened h => exact (h.leaves hs).1.imp_right .inl
  | unappended e h =>
    obtain ⟨s₁, hopen, hrest⟩ := Store.undergoes_append.mp hs
    obtain rfl := (h.leaves hopen).2 rfl
    cases hrest with
    | cons happend hnil =>
      cases hnil
      obtain ⟨_, rfl, happend⟩ := happend
      obtain ⟨he, -⟩ | ⟨-, -, hs'⟩ := happend.of_call
      · cases he
      · exact .inr hs'
  | appended read h => exact .inr (.inr (undergoes_appended h hs).1)

/-- A record that succeeds has stored the item and then found it in reach. -/
theorem Writes.acknowledged (h : v.Writes x path result) (hok : result = .ok ())
    (hs : s.Undergoes (.among Eq) path s') :
    s' = v.written x s ∧ ∃ opening start, path = opening ++ [⟨.store (.appendItem x), .ok ()⟩,
      ⟨.store (.readStart x.queue), .ok (some start)⟩] ∧ s'.start x.queue = some start ∧
      start ≤ x.slice := by
  cases h with
  | unopened | unappended => cases hok
  | @appended opening _ read h =>
    obtain ⟨rfl, rfl | ⟨e, rfl⟩⟩ := undergoes_appended h hs
    · obtain ⟨start, hstart⟩ := Option.ne_none_iff_exists'.mp (v.open_written x s)
      rw [hstart] at hok ⊢
      exact ⟨rfl, opening, start, rfl, rfl, verdict_ok_iff.mp hok⟩
    · cases hok

theorem Writes.holds (hothers : ∀ s s', others s s' → s.Grows s') (h : v.Writes x path result)
    (hok : result = .ok ()) (hs : s.Undergoes (.among others) path s') :
    s'.Holds x.partition x.key := by
  cases h with
  | unopened | unappended => cases hok
  | appended read h =>
    obtain ⟨s₁, -, happend⟩ := Store.undergoes_append.mp hs
    cases happend with
    | cons happend hread =>
      obtain ⟨met, -, happend⟩ := happend
      obtain ⟨-, rfl⟩ := happend.of_ok
      exact (Store.holds_append met x).grows (hread.grows hothers)

theorem Writes.reason (h : v.Writes x path result) (herror : result = .error e) :
    ∃ reason, e = .indexing x.queue x.key reason := by
  cases h with
  | @unopened _ e' | unappended e' =>
    cases herror
    exact ⟨e'.message, rfl⟩
  | appended read =>
    cases read with
    | error e' =>
      cases herror
      exact ⟨e'.message, rfl⟩
    | ok start => exact ⟨behindBrowseStart, verdict_error herror⟩

/-- A record without failures stores the item in a queue that is open, and its result depends on
where the queue then starts. -/
theorem Writes.alone (h : v.Writes x path result) (hs : s.Undergoes Store.Answers path s') :
    s' = v.written x s ∧ result = verdict x (s'.start x.queue) := by
  cases h with
  | unopened h => exact nomatch h.alone hs
  | unappended e h =>
    obtain ⟨s₁, -, hrest⟩ := Store.undergoes_append.mp hs
    cases hrest with
    | cons happend _ => exact nomatch happend.store_eq.1
  | appended read h =>
    obtain ⟨rfl, -⟩ := undergoes_appended h (hs.mono fun _ _ _ _ h => ⟨_, rfl, .tries (.answers h)⟩)
    obtain ⟨s₁, -, hrest⟩ := Store.undergoes_append.mp hs
    cases hrest with
    | cons _ hread =>
      cases hread with
      | cons hread hnil =>
        cases hnil
        obtain ⟨rfl, he⟩ := hread.store_eq
        rw [he]
        exact ⟨rfl, rfl⟩

theorem recordAt_takes (hkey : new.key = some key) : (v.recordAt q new moment).run.Takes
    (v.IsRecording (v.itemOf q new key moment)) := by
  rw [recordAt_keyed hkey]
  refine (beginRecord_reports.takes fun _ => trivial).bind fun _ => ?_
  refine Operation.Takes.bind (write_takes.inSpan fun _ => trivial) fun result => ?_
  exact (endRecord_reports.takes fun _ => trivial).bind fun _ => trivial

theorem recordAt_spanned (hkey : new.key = some key)
    (h : (v.recordAt q new moment).run.Ends path result) :
    let x := v.itemOf q new key moment
    ∃ before middle after inner, path = (before ++ [⟨.report (.enter "view.record"), ()⟩]) ++
        (middle ++ ⟨.report .leave, ()⟩ :: after) ∧
      (beginRecord q key x.slice).Ends before () ∧ v.Writes x middle inner ∧
      (endRecord q x.slice x.bucket inner).Ends after () ∧ result = inner.map fun _ => key := by
  rw [recordAt_keyed hkey] at h
  obtain ⟨before, _, _, rfl, hbefore, hrest⟩ := h.of_bind
  obtain ⟨_, _, inner, rfl, hspanned, hending⟩ := hrest.of_bind
  obtain ⟨middle, rfl, hwrite⟩ := Operation.Ends.of_inSpan hspanned
  obtain ⟨after, _, _, rfl, hafter, hlast⟩ := hending.of_bind
  obtain ⟨rfl, rfl⟩ := hlast.of_done
  exact ⟨before, middle, after, inner, by simp, hbefore, writes_of_ends hwrite, hafter, rfl⟩

/-- Around the store calls of a record there are only reports. -/
theorem recordAt_ends (hkey : new.key = some key)
    (h : (v.recordAt q new moment).run.Ends path result) :
    ∃ before middle after inner, path = before ++ (middle ++ after) ∧ Reporting before ∧
      Reporting after ∧ v.Writes (v.itemOf q new key moment) middle inner ∧
      result = inner.map fun _ => key := by
  obtain ⟨before, middle, after, inner, rfl, hbefore, hwrites, hafter, rfl⟩ :=
    recordAt_spanned hkey h
  have hbegin : Reporting (before ++ [⟨.report (.enter "view.record"), ()⟩]) :=
    List.forall_mem_append.mpr ⟨beginRecord_reports.ends hbefore,
      List.forall_mem_singleton.mpr trivial⟩
  have hend : Reporting (⟨.report .leave, ()⟩ :: after) :=
    List.forall_mem_cons.mpr ⟨trivial, endRecord_reports.ends hafter⟩
  exact ⟨_, middle, _, inner, rfl, hbegin, hend, hwrites, rfl⟩

theorem recordAt_writes {fate : Fate} (hkey : new.key = some key)
    (h : (v.recordAt q new moment).run.Ends path result) (hs : s.Undergoes fate path s')
    (hf : ∀ s r reply s', fate s (.report r) reply s' → s' = s) :
    ∃ before middle after inner, path = before ++ (middle ++ after) ∧
      v.Writes (v.itemOf q new key moment) middle inner ∧ s.Undergoes fate middle s' ∧
      result = inner.map fun _ => key := by
  obtain ⟨before, middle, after, inner, rfl, hbefore, hafter, hwrites, rfl⟩ := recordAt_ends hkey h
  obtain ⟨s₁, hfirst, hrest⟩ := Store.undergoes_append.mp hs
  obtain ⟨s₂, hmiddle, hlast⟩ := Store.undergoes_append.mp hrest
  rw [hfirst.of_reporting hbefore hf] at hmiddle
  rw [← hlast.of_reporting hafter hf] at hmiddle
  exact ⟨before, middle, after, inner, rfl, hwrites, hmiddle, rfl⟩

end View

end SpoolIndex
