import SpoolIndex.Proofs.Browse.PartialFailure
import SpoolIndex.Proofs.Installation.Replies

/-!
# Browses with content

A detailed browse does what the plain one does, and after each item it looks up the content
that the item refers to. As long as the content stays what it is, the two go step by step
alike: an item becomes the item with its content or the error that some is missing, everything
else stays in its place, and so does what was put aside (`Stocked.listDetailed_run`).
-/

namespace SpoolIndex

-- ---------------------------------------------------------------------------
-- Content
-- ---------------------------------------------------------------------------

abbrev Shelf := ContentRef → Option (List UInt8)

namespace Shelf

def lookUp (shelf : Shelf) (ref : ContentRef) : Except Error (List UInt8) :=
  match shelf ref with
  | some bytes => .ok bytes
  | none => .error (.contentMissing ref.text)

/-- An item with its content. Of two references that lead nowhere, the one to the header is
named. -/
def detail (shelf : Shelf) (x : Item) : Except Error DetailedItem :=
  match shelf x.headerRef, shelf x.bodyRef with
  | some header, some body => .ok ⟨x, header, body⟩
  | some _, none => .error (.contentMissing x.bodyRef.text)
  | none, _ => .error (.contentMissing x.headerRef.text)

def inPlaceOf (shelf : Shelf) : Except Error Item → Except Error DetailedItem
  | .ok x => shelf.detail x
  | .error e => .error e

end Shelf

/-- Whatever answers has content, and nobody adds to it or removes any. -/
structure Stocked (answer : (action : Action) → σ → action.Reply × σ) (shelf : σ → Shelf) :
    Prop where
  fetch : ∀ ref w, answer (.fetch ref) w = ((shelf w).lookUp ref, w)
  kept : ∀ action w, shelf (answer action w).2 = shelf w

namespace Attempt

variable {answer : (action : Action) → σ → action.Reply × σ}

theorem bind_run (x : Attempt α) (f : α → Attempt β) (w : σ) :
    (x >>= f).run.run answer w = match x.run.run answer w with
      | (.ok value, w') => (f value).run.run answer w'
      | (.error e, w') => (.error e, w') := by
  rw [ExceptT.run_bind]
  refine (Operation.run_bind answer _ _ w).trans ?_
  generalize x.run.run answer w = ended
  obtain ⟨e | value, w'⟩ := ended <;> rfl

theorem lift_bind_run (op : Operation α) (f : α → Attempt β) (w : σ) :
    ((liftM op : Attempt α) >>= f).run.run answer w =
      (f (op.run answer w).1).run.run answer (op.run answer w).2 := by
  rw [ExceptT.run_bind, ExceptT.run_liftM, bind_map_left]
  exact Operation.run_bind answer op _ w

end Attempt

namespace Stocked

section
variable {answer : (action : Action) → σ → action.Reply × σ} {shelf : σ → Shelf} {v : View}

theorem kept_run (h : Stocked answer shelf) (op : Operation α) (w : σ) :
    shelf (op.run answer w).2 = shelf w := by
  induction op generalizing w with
  | done value => rfl
  | act action next ih => exact (ih _ _).trans (h.kept action w)

-- ---------------------------------------------------------------------------
-- Single pulls
-- ---------------------------------------------------------------------------

theorem fetchContent_run (h : Stocked answer shelf) (x : Item) (w : σ) :
    (fetchContent x).run.run answer w = ((shelf w).detail x, w) := by
  have hfetch (ref : ContentRef) :
      (Attempt.fetch ref).run.run answer w = ((shelf w).lookUp ref, w) := h.fetch ref w
  rw [fetchContent, Attempt.bind_run, hfetch, Shelf.lookUp, Shelf.detail]
  cases shelf w x.headerRef with
  | none => rfl
  | some header =>
    dsimp only
    rw [Attempt.bind_run, hfetch, Shelf.lookUp]
    cases shelf w x.bodyRef <;> rfl

theorem pullDetailed_run (h : Stocked answer shelf) (b : Browse) (w : σ) :
    (b.pullDetailed v).run answer w =
      let ((result, b'), w') := (b.pull v).run answer w
      ((result.map (shelf w).inPlaceOf, b'), w') := by
  have hkept := h.kept_run (b.pull v) w
  unfold Browse.pullDetailed
  refine (Operation.run_bind answer _ _ w).trans ?_
  generalize (b.pull v).run answer w = pulled at hkept ⊢
  obtain ⟨⟨_ | e | x, b'⟩, w'⟩ := pulled
  · rfl
  · rfl
  · refine (Operation.run_bind answer _ _ w').trans ?_
    rw [h.fetchContent_run x w']
    rw [show shelf w' = shelf w from hkept]
    rfl

-- ---------------------------------------------------------------------------
-- Whole browses
-- ---------------------------------------------------------------------------

theorem pullMany_succ_run (limit : Nat) (b : Browse) (found : List (Except Error Item)) (w : σ) :
    (b.pullMany v (limit + 1) found).run answer w = match (b.pull v).run answer w with
      | ((none, b'), w') => (((found.reverse, true), b'), w')
      | ((some result, b'), w') => (b'.pullMany v limit (result :: found)).run answer w' := by
  refine (Operation.run_bind answer _ _ w).trans ?_
  generalize (b.pull v).run answer w = pulled
  obtain ⟨⟨_ | result, b'⟩, w'⟩ := pulled <;> rfl

theorem pullManyDetailed_succ_run (limit : Nat) (b : Browse)
    (found : List (Except Error DetailedItem)) (w : σ) :
    (b.pullManyDetailed v (limit + 1) found).run answer w =
      match (b.pullDetailed v).run answer w with
      | ((none, b'), w') => (((found.reverse, true), b'), w')
      | ((some result, b'), w') =>
        (b'.pullManyDetailed v limit (result :: found)).run answer w' := by
  refine (Operation.run_bind answer _ _ w).trans ?_
  generalize (b.pullDetailed v).run answer w = pulled
  obtain ⟨⟨_ | result, b'⟩, w'⟩ := pulled <;> rfl

theorem pullManyDetailed_run (h : Stocked answer shelf) (limit : Nat) (b : Browse)
    (found : List (Except Error Item)) (w : σ) :
    (b.pullManyDetailed v limit (found.map (shelf w).inPlaceOf)).run answer w =
      let (((results, ended), b'), w') := (b.pullMany v limit found).run answer w
      (((results.map (shelf w).inPlaceOf, ended), b'), w') := by
  induction limit generalizing b found w with
  | zero => simp [Browse.pullManyDetailed, Browse.pullMany, pure]
  | succ limit ih =>
    have hkept := h.kept_run (b.pull v) w
    rw [pullMany_succ_run, pullManyDetailed_succ_run, h.pullDetailed_run]
    generalize (b.pull v).run answer w = pulled at hkept ⊢
    obtain ⟨⟨_ | result, b'⟩, w'⟩ := pulled
    · simp
    · have hrest := ih b' (result :: found) w'
      rw [show shelf w' = shelf w from hkept] at hrest
      exact hrest

theorem listed_run (h : Stocked answer shelf) (v : View) (limit : Nat) (q : QueueName) (w : σ) :
    (Browse.listDetailed v q limit).run.run answer w =
      let (listed, w') := (Browse.list v q limit).run.run answer w
      (listed.map fun ((results, ended), failures) =>
        ((results.map (shelf w).inPlaceOf, ended), failures), w') := by
  have hkept := h.kept_run (Browse.ofQueue q).run w
  rw [Browse.listDetailed, Browse.list, Attempt.bind_run, Attempt.bind_run]
  generalize (Browse.ofQueue q).run.run answer w = opening at hkept ⊢
  obtain ⟨e | b, w'⟩ := opening
  · rfl
  · have hpulls := h.pullManyDetailed_run (v := v) limit b [] w'
    rw [show shelf w' = shelf w from hkept, List.map_nil] at hpulls
    dsimp only
    rw [Attempt.lift_bind_run, Attempt.lift_bind_run, hpulls]
    rfl

/-- A detailed browse goes like the plain one, element by element. From the start, and from any
point of a browse on, it yields as many results, in the same order. In the place of each item there
is this item with the content that its two references name, or the error that a reference names
none, and the results after it are still there; in the place of an error there is this error. It
fails to start as the plain browse does, comes to an end when that does, puts the same failures
aside and leaves the same behind. -/
theorem listDetailed_run (h : Stocked answer shelf) (v : View) (limit : Nat) (w : σ) :
    (∀ q, (Browse.listDetailed v q limit).run.run answer w =
      let (listed, w') := (Browse.list v q limit).run.run answer w
      (listed.map fun ((results, ended), failures) =>
        ((results.map (shelf w).inPlaceOf, ended), failures), w')) ∧
    ∀ b : Browse, (b.pullManyDetailed v limit []).run answer w =
      let (((results, ended), b'), w') := (b.pullMany v limit []).run answer w
      (((results.map (shelf w).inPlaceOf, ended), b'), w') :=
  ⟨fun q => h.listed_run v limit q w, fun b => h.pullManyDetailed_run limit b [] w⟩

theorem retried (h : Stocked answer shelf) (config : RetryConfig) :
    Stocked (retried config answer) shelf where
  fetch := h.fetch
  kept action w := by
    cases action with
    | store c => exact h.kept_run _ w
    | _ => exact h.kept _ w

end

end Stocked

-- ---------------------------------------------------------------------------
-- Installations
-- ---------------------------------------------------------------------------

namespace Installation

def shelf (w : Installation) : Shelf := fun ref => (w.content.find? (·.1 == ref)).map (·.2)

theorem Transported.shelf {w w' : Installation} (h : w.Transported w') : w'.shelf = w.shelf := by
  cases h <;> rfl

theorem stocked_answer (seat : Seat) : Stocked (answer seat) shelf where
  fetch ref w := by
    simp only [answer, fetch, Shelf.lookUp, shelf]
    cases w.content.find? (·.1 == ref) <;> rfl
  kept action w := by
    cases action with
    | store c =>
      obtain ⟨_, _, hw⟩ := w.call_eq c
      have hkept := congrArg shelf hw
      exact hkept
    | createQueue q => exact (w.transported_createQueue q).shelf
    | send m => exact (w.transported_send seat.delay m).shelf
    | _ => rfl

theorem stocked (seat : Seat) : Stocked (replies seat) shelf := by
  unfold replies
  cases seat.retry with
  | none => exact stocked_answer seat
  | some config => exact (stocked_answer seat).retried config

/-- The content of an installation does not change while it is browsed, also where calls are tried
again. -/
theorem run_listDetailed (w : Installation) (seat : Seat) (v : View) (q : QueueName) (limit : Nat) :
    w.run seat (Browse.listDetailed v q limit).run =
      let (listed, w') := w.run seat (Browse.list v q limit).run
      (listed.map fun ((results, ended), failures) =>
        ((results.map w.shelf.inPlaceOf, ended), failures), w') := by
  rw [run_eq_replies, run_eq_replies]
  exact (stocked seat).listed_run v limit q w

end Installation

namespace Sample

def tolerant : View := .ofConfig { Config.default with failurePolicy := .skipAndContinue }

def draftItem : Item :=
  { view.itemOf spool ((NewItem.new "draft" ⟨"header"⟩ ⟨"notes"⟩).withKey ⟨5, by decide⟩)
      ⟨5, by decide⟩ twoHours with bucket := ⟨0⟩ }

def letterItem : Item := { view.itemOf spool mail ⟨7, by decide⟩ twoHours with bucket := ⟨0⟩ }

def mailroom : Installation :=
  { Installation.new (.memory ⟨((opened.append lostItem).append draftItem).append letterItem,
      [⟨"has_tombstone", none, none, none, some lostItem.key, 0, none,
        .fail (.unavailable "down")⟩], []⟩) [twoHours] with
    content := [(⟨"header"⟩, [72]), (⟨"body"⟩, [66])] }

def hatch : Seat := ⟨0, 0, some .default, 0⟩

theorem mailroom_list :
    ((Browse.list tolerant spool 9).run.run (Installation.replies hatch) mailroom).1 =
      .ok (([.ok draftItem, .ok letterItem], true), [⟨lostItem.partition, .unavailable "down"⟩]) :=
  rfl

/-- The draft is missed for its notes, and the letter after it is still there. -/
theorem mailroom_listDetailed :
    Stocked (Installation.replies hatch) Installation.shelf ∧
    ((Browse.listDetailed tolerant spool 9).run.run (Installation.replies hatch) mailroom).1 =
      .ok (([.error (.contentMissing "notes"), .ok ⟨letterItem, [72], [66]⟩], true),
        [⟨lostItem.partition, .unavailable "down"⟩]) := by
  have hstocked := Installation.stocked hatch
  refine ⟨hstocked, ?_⟩
  obtain ⟨hlisted, -⟩ := Stocked.listDetailed_run hstocked tolerant 9 mailroom
  rw [hlisted]
  dsimp only
  rw [mailroom_list]
  rfl

end Sample

end SpoolIndex
