import SpoolIndex.Proofs.Key.Rendering
import SpoolIndex.Proofs.Store.Growth

/-!
# Pages of a scan

A page holds rows behind its bound, in order (`pageAfter_rows`,
`pageAfter_sorted`), and every row behind the bound is on it or behind the token
it carries (`pageAfter_covers`). Together they say that a scan in pages of any
size, empty pages excepted, skips nothing and repeats nothing.
-/

namespace SpoolIndex

def Token.floor : Option Key → Nat
  | none => 0
  | some key => key.bits + 1

theorem mem_afterBound : y ∈ afterBound keyOf bound rows ↔
    y ∈ rows ∧ Token.floor bound ≤ (keyOf y).bits := by
  cases bound with
  | none => simp [afterBound, Token.floor]
  | some key =>
    have hlt : key < keyOf y ↔ key.bits + 1 ≤ (keyOf y).bits := Nat.lt_iff_add_one_le
    simp [afterBound, Token.floor, hlt]

theorem sorted_afterBound (hs : SortedByKey keyOf rows) :
    SortedByKey keyOf (afterBound keyOf bound rows) := by
  cases bound with
  | none => exact hs
  | some key => exact hs.filter _

section
variable {keyOf : α → Key} {front rest : List α}

theorem afterBound_append (hs : SortedByKey keyOf (front ++ x :: rest)) :
    afterBound keyOf (some (keyOf x)) (front ++ x :: rest) = rest := by
  obtain ⟨-, hx, hfront⟩ := List.pairwise_append.mp hs
  have hbefore : front.filter (fun y => keyOf x < keyOf y) = [] := by
    refine List.filter_eq_nil_iff.mpr fun y hy hlt => ?_
    exact Key.lt_irrefl _ (Key.lt_trans (hfront y hy x List.mem_cons_self) (of_decide_eq_true hlt))
  have hbehind : rest.filter (fun y => keyOf x < keyOf y) = rest :=
    List.filter_eq_self.mpr fun y hy => decide_eq_true ((List.pairwise_cons.mp hx).1 y hy)
  have hself : ¬keyOf x < keyOf x := Key.lt_irrefl _
  simp [afterBound, hbefore, hbehind, hself]

theorem Page.ofRows_cons {rows : List α} {room : Nat} (hroom : 0 < room) :
    Page.ofRows (x :: rows) (room + 1) keyOf =
      ⟨x :: rows, (Page.ofRows rows room keyOf).next⟩ := by
  simp only [ofRows, List.length_cons, Nat.add_le_add_iff_right]
  split
  · cases rows with
    | nil => exact absurd hroom (by simp_all)
    | cons y rows => rw [List.getLast?_cons_cons]
  · rfl

theorem exists_append_afterBound (hs : SortedByKey keyOf rows) (bound : Option Key) :
    ∃ front, rows = front ++ afterBound keyOf bound rows := by
  cases bound with
  | none => exact ⟨[], rfl⟩
  | some key =>
    induction rows with
    | nil => exact ⟨[], rfl⟩
    | cons x rows ih =>
      obtain ⟨hx, hs⟩ := List.pairwise_cons.mp hs
      by_cases hlt : key < keyOf x
      · have hall : rows.filter (fun y => key < keyOf y) = rows :=
          List.filter_eq_self.mpr fun y hy => decide_eq_true (Key.lt_trans hlt (hx y hy))
        exact ⟨[], by simp [afterBound, hlt, hall]⟩
      · obtain ⟨front, hf⟩ := ih hs
        exact ⟨x :: front, by rw [List.cons_append]; simpa [afterBound, hlt] using hf⟩

end

section
variable {keyOf : α → Key} {bound : Option Key} {limit : Nat} {rows : List α}

theorem pageAfter_rows (h : y ∈ (pageAfter keyOf bound limit rows).rows) :
    y ∈ rows ∧ Token.floor bound ≤ (keyOf y).bits :=
  mem_afterBound.mp (List.mem_of_mem_take h)

theorem pageAfter_sorted (hs : SortedByKey keyOf rows) :
    SortedByKey keyOf (pageAfter keyOf bound limit rows).rows :=
  (sorted_afterBound hs).sublist (List.take_sublist _ _)

theorem pageAfter_next (hs : SortedByKey keyOf rows)
    (h : (pageAfter keyOf bound limit rows).next = some token) :
    ∃ last, token = .after last ∧ Token.floor bound ≤ last.bits ∧
      ∀ y ∈ (pageAfter keyOf bound limit rows).rows, (keyOf y).bits ≤ last.bits := by
  simp only [pageAfter, Page.ofRows] at h
  split at h
  · obtain ⟨last, hl, rfl⟩ := Option.map_eq_some_iff.mp h
    have hlast := List.mem_of_getLast? hl
    refine ⟨keyOf last, rfl, (mem_afterBound.mp (List.mem_of_mem_take hlast)).2, fun y hy => ?_⟩
    obtain ⟨front, hf⟩ := List.getLast?_eq_some_iff.mp hl
    have hsort : SortedByKey keyOf (front ++ [last]) :=
      hf ▸ (sorted_afterBound hs).sublist (List.take_sublist _ _)
    have hy : y ∈ front ++ [last] := hf ▸ hy
    cases List.mem_append.mp hy with
    | inl hy => exact Nat.le_of_lt ((List.pairwise_append.mp hsort).2.2 y hy last (by simp))
    | inr hy =>
      have hy : y = last := List.mem_singleton.mp hy
      subst hy
      exact Nat.le_refl (keyOf y).bits
  · cases h

theorem pageAfter_next_nil (hl : 0 < limit) (h : (pageAfter keyOf bound limit rows).rows = []) :
    (pageAfter keyOf bound limit rows).next = none := by
  simp only [pageAfter, Page.ofRows] at h ⊢
  simp [h, Nat.not_le.mpr hl]

theorem pageAfter_covers (hs : SortedByKey keyOf rows) (hl : 0 < limit) (hy : y ∈ rows)
    (hb : Token.floor bound ≤ (keyOf y).bits) :
    y ∈ (pageAfter keyOf bound limit rows).rows ∨
      ∃ last, (pageAfter keyOf bound limit rows).next = some (.after last) ∧
        last.bits < (keyOf y).bits := by
  have hall : y ∈ afterBound keyOf bound rows := mem_afterBound.mpr ⟨hy, hb⟩
  have hsort : SortedByKey keyOf (afterBound keyOf bound rows) := sorted_afterBound hs
  rw [← List.take_append_drop limit (afterBound keyOf bound rows)] at hall hsort
  rcases List.mem_append.mp hall with hall | hall
  · exact .inl hall
  -- the rows do not fit on the page, so it is full and carries a token
  have hfull : limit ≤ ((afterBound keyOf bound rows).take limit).length := by
    have hpos := List.length_pos_of_mem hall
    simp only [List.length_drop, List.length_take] at hpos ⊢
    omega
  cases hg : ((afterBound keyOf bound rows).take limit).getLast? with
  | none =>
    rw [List.getLast?_eq_none_iff.mp hg] at hfull
    exact absurd hfull (Nat.not_le.mpr hl)
  | some last =>
    refine .inr ⟨keyOf last, ?_, ?_⟩
    · simp only [pageAfter, Page.ofRows, hfull, ↓reduceIte, hg, Option.map_some]
    · exact (List.pairwise_append.mp hsort).2.2 last (List.mem_of_getLast? hg) y hall

end

end SpoolIndex
