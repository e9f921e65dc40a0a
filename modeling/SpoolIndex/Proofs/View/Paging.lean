import SpoolIndex.Proofs.Installation.Runs
import SpoolIndex.Proofs.Interleaving.Steps
import SpoolIndex.Proofs.Operation.Transcripts
import SpoolIndex.Proofs.View.Rows

/-!
# Scans in pages of any size

A scan of rows that stay gives all rows after its token, in order, whatever the page
size is, and fetches a page only when a row is wanted that no page has given yet
(`Rows.collect_exact`). The rows that a scan has not fetched are those after its
token (`Rows.Behind`), and a page takes from their front (`Rows.behind_ofPage`).
-/

namespace SpoolIndex

/-- The operation ends in a value after so many store calls, and leaves all as it was. -/
structure Operation.Gives (answer : (action : Action) → σ → action.Reply × σ) (w : σ)
    (op : Operation α) (value : α) (calls : Nat) : Prop where
  run : op.run answer w = (value, w)
  calls : (callsOf (op.transcript answer w)).length = calls

theorem Operation.Gives.bind {answer : (action : Action) → σ → action.Reply × σ} {w : σ}
    {op : Operation α} {f : α → Operation β} {value : α} {value' : β} {n m : Nat}
    (h : op.Gives answer w value n) (hf : (f value).Gives answer w value' m) :
    (op >>= f).Gives answer w value' (n + m) where
  run := by
    refine (Operation.run_bind answer op f w).trans ?_
    rw [h.run]
    exact hf.run
  calls := by
    rw [Operation.transcript_bind, callsOf_append, List.length_append, h.run, h.calls, hf.calls]

def FetchesPages (answer : (action : Action) → σ → action.Reply × σ) (w : σ)
    (fetch : Option Token → Attempt (Page α)) (keyOf : α → Key) (limit : Nat) (all : List α) :
    Prop :=
  ∀ after, (fetch after).run.Gives answer w
    ((Token.bound after).map fun bound => pageAfter keyOf bound limit all) 1

namespace Rows

/-- The rows that a scan of `all` has yet to fetch. -/
structure Behind (keyOf : α → Key) (all : List α) (rows : Rows α) (behind : List α) : Prop where
  last : rows.next = none → behind = []
  more : ∀ after, rows.next = some after →
    ∃ bound, Token.bound after = .ok bound ∧ behind = afterBound keyOf bound all

theorem behind_start (h : Token.bound after = .ok bound) :
    Behind keyOf all (start after) (afterBound keyOf bound all) where
  last := nofun
  more after' ha := by
    obtain rfl : after = after' := Option.some.inj ha
    exact ⟨bound, h, rfl⟩

section
variable {keyOf : α → Key} {all : List α} {limit : Nat}

theorem behind_ofPage (hs : SortedByKey keyOf all) (hl : 0 < limit) (bound : Option Key) :
    Behind keyOf all (ofPage (pageAfter keyOf bound limit all))
        ((afterBound keyOf bound all).drop limit) ∧
      ((ofPage (pageAfter keyOf bound limit all)).next.isSome ↔
        limit ≤ (afterBound keyOf bound all).length) := by
  generalize hrows : afterBound keyOf bound all = rows
  by_cases hfull : limit ≤ rows.length
  · have htake : (rows.take limit).length = limit := List.length_take_of_le hfull
    have hne : rows.take limit ≠ [] := List.ne_nil_of_length_pos (by rwa [htake])
    have hnext : (ofPage (pageAfter keyOf bound limit all)).next =
        some (some (.after (keyOf ((rows.take limit).getLast hne)))) := by
      simp [ofPage, pageAfter, Page.ofRows, hrows, hfull, List.getLast?_eq_some_getLast hne]
    refine ⟨⟨?_, ?_⟩, by simp [hnext, hfull]⟩
    · simp [hnext]
    · rintro after ha
      obtain rfl := Option.some.inj (hnext.symm.trans ha)
      refine ⟨_, Token.bound_after _, ?_⟩
      -- the last row on the page stands between what is before the rest and the rest
      obtain ⟨front, hfront⟩ := exists_append_afterBound hs bound
      have hall : all = (front ++ (rows.take limit).dropLast) ++
          (rows.take limit).getLast hne :: rows.drop limit := by
        rw [hfront, hrows, List.append_assoc, ← List.singleton_append (l := rows.drop limit),
          ← List.append_assoc (rows.take limit).dropLast, List.dropLast_concat_getLast,
          List.take_append_drop]
      rw [hall] at hs
      rw [hall, afterBound_append hs]
  · have htake : ¬limit ≤ (rows.take limit).length := by
      rw [List.length_take]
      omega
    have hnext : (ofPage (pageAfter keyOf bound limit all)).next = none := by
      simp only [ofPage, pageAfter, Page.ofRows, hrows, if_neg htake, Option.map_none]
    refine ⟨⟨fun _ => ?_, ?_⟩, by simp [hnext, hfull]⟩
    · exact List.drop_eq_nil_of_le (by omega)
    · simp [hnext]

def fetches (limit : Nat) (rows : Rows α) (behind wanted : Nat) : Nat :=
  if wanted ≤ rows.ready.length + behind then (wanted - rows.ready.length + limit - 1) / limit
  else if rows.next.isSome then behind / limit + 1 else 0

theorem fetches_page (hl : 0 < limit) {page : Rows α} (hready : page.ready.length = min limit n)
    (hnext : page.next.isSome ↔ limit ≤ n) :
    fetches limit ⟨([] : List α), some after⟩ n (wanted + 1) =
      page.fetches limit (n - limit) (wanted + 1) + 1 := by
  have hall : page.ready.length + (n - limit) = n := by omega
  simp only [fetches, hall, List.length_nil, Nat.zero_add, Option.isSome_some, ↓reduceIte]
  by_cases hwanted : wanted + 1 ≤ n
  · have hfirst : (wanted + 1 - 0 + limit - 1) / limit = wanted / limit + 1 := by
      rw [← Nat.add_div_right wanted hl]
      congr 1
      omega
    simp only [hwanted, ↓reduceIte, hfirst, Nat.add_right_cancel_iff]
    -- all that is wanted is on the page, or it is full
    by_cases hpage : wanted < limit
    · rw [Nat.div_eq_of_lt hpage, Nat.div_eq_of_lt (by omega)]
    · congr 1
      omega
  · simp only [hwanted, ↓reduceIte, hnext, Nat.add_right_cancel_iff]
    by_cases hfull : limit ≤ n
    · rw [if_pos hfull, Nat.div_eq_sub_div hl hfull]
    · rw [if_neg hfull, Nat.div_eq_of_lt (by omega)]

variable {answer : (action : Action) → σ → action.Reply × σ} {w : σ}
  {fetch : Option Token → Attempt (Page α)}

/-- A scan with no row at hand goes on with the page that it fetches. -/
theorem collect_fetch (h : FetchesPages answer w fetch keyOf limit all) (hl : 0 < limit)
    (hb : Token.bound after = .ok bound) {found value : List (Except Error α)}
    (hpage : (collect fetch (wanted + 1) (ofPage (pageAfter keyOf bound limit all)) found).Gives
      answer w value n) :
    (collect fetch (wanted + 1) ⟨[], some after⟩ found).Gives answer w value (n + 1) := by
  have hfetch := h after
  have hnil : (pageAfter keyOf bound limit all).rows = [] →
      (pageAfter keyOf bound limit all).next = none := pageAfter_next_nil hl
  rw [hb] at hfetch
  rw [collect, pull, bind_assoc, Nat.add_comm]
  refine hfetch.bind ?_
  simp only [Except.map]
  generalize pageAfter keyOf bound limit all = page at hnil hpage ⊢
  obtain ⟨_ | ⟨x, ready⟩, token⟩ := page
  · obtain rfl : token = none := hnil rfl
    exact hpage
  · exact hpage

theorem collect_gives (h : FetchesPages answer w fetch keyOf limit all)
    (hs : SortedByKey keyOf all) (hl : 0 < limit) (hb : Behind keyOf all rows behind)
    (wanted : Nat) (found : List (Except Error α)) :
    (rows.collect fetch wanted found).Gives answer w
      (found.reverse ++ ((rows.ready ++ behind).take wanted).map .ok)
      (rows.fetches limit behind.length wanted) := by
  induction wanted generalizing rows behind found with
  | zero =>
    have hnone : (0 - rows.ready.length + limit - 1) / limit = 0 := Nat.div_eq_of_lt (by omega)
    exact ⟨by simp [collect]; rfl, by simp only [fetches, Nat.zero_le, ↓reduceIte, hnone]; rfl⟩
  | succ wanted ih =>
    have hready : ∀ rows : Rows α, ∀ behind, Behind keyOf all rows behind →
        (rows.ready = [] → rows.next = none) →
        (rows.collect fetch (wanted + 1) found).Gives answer w
          (found.reverse ++ ((rows.ready ++ behind).take (wanted + 1)).map .ok)
          (rows.fetches limit behind.length (wanted + 1)) := by
      rintro ⟨_ | ⟨x, ready⟩, next⟩ behind hb hlast
      · obtain rfl : next = none := hlast rfl
        obtain rfl := hb.last rfl
        have hdone : (collect fetch (wanted + 1) ⟨[], none⟩ found).Gives answer w found.reverse 0 :=
          ⟨rfl, rfl⟩
        simpa [fetches] using hdone
      · have hb' : Behind keyOf all ⟨ready, next⟩ behind := ⟨hb.last, hb.more⟩
        have hrest := ih hb' (.ok x :: found)
        change (collect fetch wanted ⟨ready, next⟩ (.ok x :: found)).Gives answer w _ _
        simpa [fetches, Nat.add_right_comm _ 1] using hrest
    obtain ⟨_ | ⟨x, ready⟩, _ | after⟩ := rows
    · exact hready _ _ hb fun _ => rfl
    · obtain ⟨bound, hbound, rfl⟩ := hb.more after rfl
      obtain ⟨hbehind, hnext⟩ := behind_ofPage hs hl bound
      rw [fetches_page hl (by simp [ofPage, pageAfter, Page.ofRows]) hnext, ← List.length_drop]
      refine collect_fetch h hl hbound ?_
      have hpage := hready _ _ hbehind fun hnone => by
        have hnil : (pageAfter keyOf bound limit all).next = none := pageAfter_next_nil hl hnone
        simp [ofPage, hnil]
      have hrows : (ofPage (pageAfter keyOf bound limit all)).ready ++
          (afterBound keyOf bound all).drop limit = afterBound keyOf bound all :=
        List.take_append_drop limit _
      rwa [hrows] at hpage
    · exact hready _ _ hb (by simp)
    · exact hready _ _ hb (by simp)

theorem drain_gives (h : FetchesPages answer w fetch keyOf limit all)
    (hs : SortedByKey keyOf all) (hl : 0 < limit) (hb : Token.bound after = .ok bound) :
    ((start after).drain fetch).Gives answer w ((afterBound keyOf bound all).map .ok)
      ((afterBound keyOf bound all).length / limit + 1) := by
  have hgives := collect_gives h hs hl (behind_start hb) (Key.count + 1) []
  have hsorted : SortedByKey keyOf (afterBound keyOf bound all) := sorted_afterBound hs
  have hlength := length_le_of_sorted hsorted (fun _ _ => Nat.zero_le _) (Nat.zero_le _)
  have hall : (afterBound keyOf bound all).take (Key.count + 1) = afterBound keyOf bound all :=
    List.take_of_length_le (by omega)
  have hfetches : fetches limit (start after : Rows α) (afterBound keyOf bound all).length
      (Key.count + 1) = (afterBound keyOf bound all).length / limit + 1 := by
    rw [fetches, if_neg (by simp [start]; omega)]
    rfl
  rw [hfetches] at hgives
  rw [drain]
  simpa [start, hall] using hgives

theorem first_gives (h : FetchesPages answer w fetch keyOf limit all)
    (hs : SortedByKey keyOf all) (hl : 0 < limit) (hb : Token.bound after = .ok bound)
    (hj : j ≤ (afterBound keyOf bound all).length) :
    ((start after).collect fetch j []).Gives answer w
      (((afterBound keyOf bound all).take j).map .ok) ((j + limit - 1) / limit) := by
  have hgives := collect_gives h hs hl (behind_start hb) j []
  simpa [start, fetches, hj] using hgives

theorem drain_refused (h : FetchesPages answer w fetch keyOf limit all)
    (hb : Token.bound after = .error e) :
    ((start after).drain fetch).Gives answer w [.error e] 1 := by
  have hfetch := h after
  rw [hb] at hfetch
  obtain ⟨count, hcount⟩ : ∃ count, Key.count = count + 1 := ⟨2 ^ 128 - 1, rfl⟩
  rw [drain, start, hcount, collect, pull, bind_assoc]
  exact hfetch.bind (m := 0) ⟨rfl, rfl⟩

end

end Rows

section
variable (calls : List StoreCall) (t : Instant)

theorem itemPages_fetch (s : Store) (p : Partition) (limit : Nat) :
    FetchesPages (fun action s => Store.answer s t action) s (itemPages p limit) Item.key limit
      (s.items p) :=
  fun _ => ⟨rfl, rfl⟩

theorem tombstonePages_fetch (s : Store) (q : QueueName) (limit : Nat) :
    FetchesPages (fun action s => Store.answer s t action) s (tombstonePages q limit) id limit
      (s.tombstones q) :=
  fun _ => ⟨rfl, rfl⟩

/-- In any state of a store, a scan gives just the items whose keys come after the one that its
token names, in order, and a scan of tombstones gives all keys, whatever the page size is. It makes
no call too many, also when it is stopped early. A page and a scan from its token are one scan, and
a token that names no key is refused. -/
theorem scans_exact (p : Partition) (q : QueueName) (limit : Nat) (hl : 0 < limit) :
    let s := Store.empty.after calls
    let answer := fun action s => Store.answer s t action
    (∀ after bound, Token.bound after = .ok bound →
      let rows := afterBound Item.key bound (s.items p)
      SortedByKey Item.key rows ∧
        (∀ x, x ∈ rows ↔ x ∈ s.items p ∧ ∀ key, bound = some key → key < x.key) ∧
        (scanItems p limit after).Gives answer s (rows.map .ok) (rows.length / limit + 1) ∧
        (∀ j, 1 ≤ j → j ≤ rows.length →
          ((Rows.start after).collect (itemPages p limit) j []).Gives answer s
            ((rows.take j).map .ok) ((j + limit - 1) / limit)) ∧
        ∀ size, 0 < size → ∃ page, (itemPages p size after).run.Gives answer s (.ok page) 1 ∧
          (page.next = none → page.rows = rows) ∧
          ∀ token, page.next = some token → ∃ rest, page.rows ++ rest = rows ∧
            (scanItems p limit (some token)).Gives answer s (rest.map .ok)
              (rest.length / limit + 1)) ∧
    (∀ token : Token, Key.ofText? token.text = none →
      (scanItems p limit (some token)).Gives answer s [.error (.invalidToken token.text)] 1) ∧
    (let keys := s.tombstones q
     SortedByKey id keys ∧
      (scanTombstones q limit).Gives answer s (keys.map .ok) (keys.length / limit + 1) ∧
      ∀ j, 1 ≤ j → j ≤ keys.length →
        ((Rows.start none).collect (tombstonePages q limit) j []).Gives answer s
          ((keys.take j).map .ok) ((j + limit - 1) / limit)) := by
  intro s answer
  have hproper : s.Proper := (Store.grows_after .empty calls).proper Store.proper_empty
  have hitems := hproper.sorted p
  have hkeys := Store.sorted_tombstones_after calls q
  have hfetch := itemPages_fetch t s p limit
  have htombs := tombstonePages_fetch t s q limit
  refine ⟨fun after bound hb => ⟨sorted_afterBound hitems, fun x => ?_,
      Rows.drain_gives hfetch hitems hl hb, fun j _ hj => Rows.first_gives hfetch hitems hl hb hj,
      fun size hsize => ?_⟩,
    fun token htoken => ?_, hkeys, Rows.drain_gives htombs hkeys hl Token.bound_none,
    fun j _ hj => Rows.first_gives htombs hkeys hl Token.bound_none hj⟩
  · cases bound with
    | none => simp [afterBound]
    | some key => simp [afterBound]
  · have hfirst := itemPages_fetch t s p size after
    rw [hb] at hfirst
    obtain ⟨hbehind, -⟩ := Rows.behind_ofPage hitems hsize bound
    have htaken := List.take_append_drop size (afterBound Item.key bound (s.items p))
    refine ⟨_, hfirst, fun hnone => ?_, fun token htoken => ⟨_, htaken, ?_⟩⟩
    · have hrest := hbehind.last (by simp [Rows.ofPage, hnone])
      rw [hrest, List.append_nil] at htaken
      exact htaken
    · obtain ⟨bound', hbound', hrest⟩ := hbehind.more (some token) (by simp [Rows.ofPage, htoken])
      rw [hrest]
      exact Rows.drain_gives hfetch hitems hl hbound'
  · have hb : Token.bound (some token) = .error (.invalidToken token.text) := by
      simp [Token.bound, Token.lastKey, htoken, Except.map]
    exact Rows.drain_refused hfetch hb

end

namespace Sample

def fourMails : List StoreCall :=
  .putTombstone spool (.ofNat 1) :: (List.range 4).map fun n =>
    .appendItem { view.itemOf spool mail (.ofNat n) twoHours with bucket := ⟨0⟩ }

theorem fourMails_scanned : 0 < 2 ∧
    let s := Store.empty.after fourMails
    let answer := fun action s => Store.answer s twoHours action
    let p : Partition := ⟨spool, .clamp 2, ⟨0⟩⟩
    (scanItems p 2 none).Gives answer s ((s.items p).map .ok) 3 ∧
      ((Rows.start none).collect (itemPages p 2) 3 []).Gives answer s
        (((s.items p).take 3).map .ok) 2 ∧
      (scanItems p 2 (some ⟨"behind"⟩)).Gives answer s [.error (.invalidToken "behind")] 1 ∧
      (scanTombstones spool 2).Gives answer s [.ok (.ofNat 1)] 1 := by
  refine ⟨by decide, ?_⟩
  intro s answer p
  obtain ⟨hitems, hrefused, -, hkeys, -⟩ := scans_exact fourMails twoHours p spool 2 (by decide)
  obtain ⟨-, -, hdrain, hfirst, -⟩ := hitems none none Token.bound_none
  have hlength : (afterBound Item.key none (s.items p)).length = 4 := by decide
  have htombstones : s.tombstones spool = [.ofNat 1] := by decide
  rw [hlength] at hdrain
  rw [htombstones] at hkeys
  exact ⟨hdrain, hfirst 3 (by decide) (by rw [hlength]; decide),
    hrefused ⟨"behind"⟩ (by decide), hkeys⟩

end Sample

end SpoolIndex
