import SpoolIndex.Proofs.Json.Tokens

/-!
# Written values are read back

`Json.Plain` are the values that text can tell: integers of 64 bits, members sorted by
name, and no more levels of arrays and objects than the reader goes into. Each is read
from its text as it was (`Reader.readsAs_value`), and one with more levels is not read
at all (`Reader.fails_value`).
-/

namespace SpoolIndex.Json

/-- A value without decimals, with integers of 64 bits, signed or not, members sorted by name, and
at most `depth` levels of arrays and objects. -/
inductive Plain : (depth : Nat) → Json → Prop where
  | null : Plain depth .null
  | bool : Plain depth (.bool value)
  | int {n : Int} (hlow : -9223372036854775808 ≤ n) (hhigh : n < 18446744073709551616) :
    Plain depth (.int n)
  | string : Plain depth (.string text)
  | array {xs : List Json} (h : ∀ x ∈ xs, Plain depth x) : Plain (depth + 1) (.array xs)
  | object {ms : List (String × Json)} (hs : ms.Pairwise fun m m' => m.1 < m'.1)
    (h : ∀ m ∈ ms, Plain depth m.2) : Plain (depth + 1) (.object ms)

-- ---------------------------------------------------------------------------
-- Sorted members
-- ---------------------------------------------------------------------------

section
variable {α : Type} {ms : List (String × α)} {name : String} {value : α}

theorem insertMember_last (h : ∀ m ∈ ms, m.1 < name) :
    insertMember name value ms = ms ++ [(name, value)] := by
  induction ms with
  | nil => rfl
  | cons m ms ih =>
    obtain ⟨hlt, hrest⟩ := List.forall_mem_cons.mp h
    have hne : name ≠ m.1 := fun he => String.lt_irrefl _ (he ▸ hlt)
    simp [insertMember, String.lt_asymm hlt, hne, ih hrest]

theorem sortMembers_of_sorted (h : ms.Pairwise fun m m' => m.1 < m'.1) : sortMembers ms = ms := by
  suffices hfold : ∀ front, (front ++ ms).Pairwise (fun m m' => m.1 < m'.1) →
      ms.foldl (fun sorted (name, value) => insertMember name value sorted) front = front ++ ms from
    hfold [] h
  clear h
  induction ms with
  | nil => simp
  | cons m ms ih =>
    obtain ⟨name, value⟩ := m
    intro front hs
    have hlast : ∀ m ∈ front, m.1 < name := by
      intro m hm
      exact (List.pairwise_append.mp hs).2.2 m hm _ List.mem_cons_self
    rw [List.append_cons] at hs ⊢
    rw [List.foldl_cons, ← ih _ hs, ← insertMember_last hlast]

end

namespace Reader

variable {strict : Bool} {rest : List Char}

-- ---------------------------------------------------------------------------
-- Items between brackets
-- ---------------------------------------------------------------------------

def behind (close : Char) (write : α → List Char) : List α → List Char
  | [] => [close]
  | x :: xs => ',' :: write x ++ behind close write xs

def listed (close : Char) (write : α → List Char) : List α → List Char
  | [] => [close]
  | x :: xs => write x ++ behind close write xs

def Begins (text : List Char) : Prop :=
  ∃ c cs, text = c :: cs ∧ isBlank c = false ∧ c ≠ ']' ∧ c ≠ '\x7d'

theorem Begins.skipBlanks {text : List Char} (h : Begins text) (rest : List Char) :
    skipBlanks (text ++ rest) = text ++ rest := by
  obtain ⟨c, cs, rfl, hblank, -⟩ := h
  simp [Reader.skipBlanks, hblank]

structure ReadsAs (item? : List Char → Option (β × List Char)) (text : List Char) (y : β) :
    Prop where
  begins : Begins text
  reads : ∀ rest, Closes rest → item? (text ++ rest) = some (y, rest)

structure Fails (item? : List Char → Option (β × List Char)) (text : List Char) : Prop where
  begins : Begins text
  fails : ∀ rest, Closes rest → item? (text ++ rest) = none

section
variable {item? : List Char → Option (β × List Char)} {write : α → List Char} {value : α → β}
  {close : Char} {xs : List α}

theorem closes_behind (hc : close = ']' ∨ close = '\x7d') :
    Closes (behind close write xs ++ rest) := by
  cases xs with
  | nil => exact closes_cons (.inr hc)
  | cons x xs => exact closes_cons (.inl rfl)

theorem length_lt_behind (close : Char) (write : α → List Char) (xs : List α) :
    xs.length < (behind close write xs).length := by
  induction xs with
  | nil => simp [behind]
  | cons x xs ih =>
    simp only [behind, List.length_cons, List.length_append, List.cons_append]
    omega

theorem itemsUntil?_behind (hc : close = ']' ∨ close = '\x7d') {x : α} {steps : Nat}
    (hsteps : xs.length < steps) (h : ∀ x' ∈ x :: xs, ReadsAs item? (write x') (value x'))
    (rest : List Char) :
    itemsUntil? close item? steps (write x ++ (behind close write xs ++ rest)) =
      some ((x :: xs).map value, rest) := by
  induction xs generalizing x steps with
  | nil =>
    obtain ⟨steps, rfl⟩ := Nat.exists_eq_add_one.mpr hsteps
    obtain ⟨hx, -⟩ := List.forall_mem_cons.mp h
    rw [itemsUntil?, hx.begins.skipBlanks, hx.reads _ (closes_behind hc)]
    rcases hc with rfl | rfl <;> simp [behind, skipBlanks, isBlank]
  | cons x' xs ih =>
    obtain ⟨steps, rfl⟩ := Nat.exists_eq_add_one.mpr (Nat.zero_lt_of_lt hsteps)
    obtain ⟨hx, hxs⟩ := List.forall_mem_cons.mp h
    have hnext := ih (Nat.lt_of_succ_lt_succ hsteps) hxs
    rw [itemsUntil?, hx.begins.skipBlanks, hx.reads _ (closes_behind hc)]
    simp [behind, skipBlanks, isBlank, hnext]

theorem bracketed?_listed (hc : close = ']' ∨ close = '\x7d')
    (h : ∀ x ∈ xs, ReadsAs item? (write x) (value x)) (rest : List Char) :
    bracketed? close item? (listed close write xs ++ rest) = some (xs.map value, rest) := by
  cases xs with
  | nil => rcases hc with rfl | rfl <;> simp [bracketed?, listed, skipBlanks, isBlank]
  | cons x xs =>
    have hx := h x List.mem_cons_self
    have hsteps : xs.length < (write x ++ (behind close write xs ++ rest)).length := by
      have hbehind := length_lt_behind close write xs
      simp only [List.length_append]
      omega
    have hitems := itemsUntil?_behind hc hsteps h rest
    have hskip := hx.begins.skipBlanks (behind close write xs ++ rest)
    obtain ⟨c, cs, he, -, hne, hne'⟩ := hx.begins
    have hclose : c ≠ close := by rcases hc with rfl | rfl <;> assumption
    rw [he, List.cons_append] at hskip hitems
    simp only [bracketed?, listed, List.append_assoc, he, List.cons_append, hskip, hclose,
      ↓reduceIte]
    exact hitems

theorem itemsUntil?_fails (hc : close = ']' ∨ close = '\x7d') {x : α} {steps : Nat}
    (h : ∀ x' ∈ x :: xs, (∃ y, ReadsAs item? (write x') y) ∨ Fails item? (write x'))
    (hfails : ∃ x' ∈ x :: xs, Fails item? (write x')) (rest : List Char) :
    itemsUntil? close item? steps (write x ++ (behind close write xs ++ rest)) = none := by
  induction steps generalizing x xs with
  | zero => rfl
  | succ steps ih =>
    have hcloses : Closes (behind close write xs ++ rest) := closes_behind hc
    obtain ⟨hx, hxs⟩ := List.forall_mem_cons.mp h
    rcases hx with ⟨y, hx⟩ | hx
    · -- the item before is read, so it is another that is not
      rw [itemsUntil?, hx.begins.skipBlanks, hx.reads _ hcloses]
      obtain ⟨x', hx', hfail⟩ := hfails
      obtain rfl | hx' := List.mem_cons.mp hx'
      · have hread := hx.reads _ hcloses
        rw [hfail.fails _ hcloses] at hread
        cases hread
      · obtain ⟨next, later, rfl⟩ := List.exists_cons_of_ne_nil (List.ne_nil_of_mem hx')
        have hnext := ih hxs ⟨x', hx', hfail⟩
        simp [behind, skipBlanks, isBlank, hnext]
    · rw [itemsUntil?, hx.begins.skipBlanks, hx.fails _ hcloses]
      rfl

theorem bracketed?_fails (hc : close = ']' ∨ close = '\x7d')
    (h : ∀ x ∈ xs, (∃ y, ReadsAs item? (write x) y) ∨ Fails item? (write x))
    (hfails : ∃ x ∈ xs, Fails item? (write x)) (rest : List Char) :
    bracketed? close item? (listed close write xs ++ rest) = none := by
  cases xs with
  | nil => simp at hfails
  | cons x xs =>
    have hbegins : Begins (write x) := by
      rcases h x List.mem_cons_self with ⟨y, hx⟩ | hx
      · exact hx.begins
      · exact hx.begins
    have hitems (steps : Nat) :
        itemsUntil? close item? steps (write x ++ (behind close write xs ++ rest)) = none :=
      itemsUntil?_fails hc h hfails rest
    have hskip := hbegins.skipBlanks (behind close write xs ++ rest)
    obtain ⟨c, cs, he, -, hne, hne'⟩ := hbegins
    have hclose : c ≠ close := by rcases hc with rfl | rfl <;> assumption
    rw [he, List.cons_append] at hskip hitems
    simp only [bracketed?, listed, List.append_assoc, he, List.cons_append, hskip, hclose,
      ↓reduceIte]
    exact hitems _

end

-- ---------------------------------------------------------------------------
-- Values
-- ---------------------------------------------------------------------------

def memberText : String × Json → List Char
  | (name, x) => quoted name ++ ':' :: chars x

theorem elementChars_eq (xs : List Json) : elementChars xs = behind ']' chars xs := by
  induction xs with
  | nil => simp [elementChars, behind]
  | cons x xs ih => simp [elementChars, behind, ih]

theorem memberChars_eq (ms : List (String × Json)) :
    memberChars ms = behind '\x7d' memberText ms := by
  induction ms with
  | nil => simp [memberChars, behind]
  | cons m ms ih => simp [memberChars, behind, memberText, ih]

theorem chars_array (xs : List Json) : chars (.array xs) = '[' :: listed ']' chars xs := by
  cases xs <;> simp [chars, listed, elementChars_eq]

theorem chars_object (ms : List (String × Json)) :
    chars (.object ms) = '\x7b' :: listed '\x7d' memberText ms := by
  cases ms <;> simp [chars, listed, memberChars_eq, memberText]

theorem begins_cons (hblank : isBlank c = false) (hclose : c ≠ ']' ∧ c ≠ '\x7d') :
    Begins (c :: cs) := ⟨c, cs, rfl, hblank, hclose.1, hclose.2⟩

theorem value?_number {c : Char} {cs : List Char} (h : c = '-' ∨ c.isDigit) (depth : Nat) :
    value? strict depth (c :: cs) = number? strict (c :: cs) := by
  have hother : c ≠ 'n' ∧ c ≠ 't' ∧ c ≠ 'f' ∧ c ≠ '"' ∧ c ≠ '[' ∧ c ≠ '\x7b' := by
    rcases h with rfl | h
    · decide
    · exact Digits.of_isDigit (P := fun c => c ≠ 'n' ∧ c ≠ 't' ∧ c ≠ 'f' ∧ c ≠ '"' ∧ c ≠ '[' ∧
        c ≠ '\x7b') (by decide) h
  obtain ⟨hn, ht, hf, hquote, harray, hobject⟩ := hother
  unfold value?
  split <;> simp_all

theorem value?_int {n : Int} (hlow : -9223372036854775808 ≤ n) (hhigh : n < 18446744073709551616)
    (hr : Closes rest) :
    value? strict depth ((toString n).toList ++ rest) = some (.int n, rest) := by
  have hread : number? strict _ = _ := number?_int hlow hhigh hr
  obtain ⟨c, cs, he, hc⟩ := exists_toString n
  rw [he, List.cons_append] at hread ⊢
  rw [value?_number hc, hread]

theorem begins_chars (h : Plain depth x) : Begins (chars x) := by
  cases h with
  | null => exact begins_cons rfl (by decide)
  | @bool _ value => cases value <;> exact begins_cons rfl (by decide)
  | @int _ n =>
    obtain ⟨c, cs, he, hc⟩ := exists_toString n
    have hbegins : isBlank c = false ∧ c ≠ ']' ∧ c ≠ '\x7d' := by
      rcases hc with rfl | hc
      · decide
      · exact Digits.of_isDigit (P := fun c => isBlank c = false ∧ c ≠ ']' ∧ c ≠ '\x7d')
          (by decide) hc
    rw [chars, he]
    exact begins_cons hbegins.1 hbegins.2
  | string => exact begins_cons rfl (by decide)
  | array =>
    rw [chars_array]
    exact begins_cons rfl (by decide)
  | object =>
    rw [chars_object]
    exact begins_cons rfl (by decide)

theorem ReadsAs.member {read? : String → List Char → Option (α × List Char)} {name : String}
    {x : Json} {y : α} (h : ReadsAs (read? name) (chars x) y) :
    ReadsAs (member? strict read?) (memberText (name, x)) (name, y) := by
  refine ⟨begins_cons rfl (by decide), fun rest hr => ?_⟩
  have hvalue := h.reads rest hr
  have hcolon : skipBlanks (':' :: (chars x ++ rest)) = ':' :: (chars x ++ rest) := by
    simp [skipBlanks, isBlank]
  simp [member?, memberText, string?_quoted, hcolon, h.begins.skipBlanks, hvalue]

theorem readsAs_value (h : Plain depth x) : ReadsAs (value? strict depth) (chars x) x := by
  refine ⟨begins_chars h, fun rest hr => ?_⟩
  induction h generalizing rest with
  | null => simp [chars, value?]
  | @bool _ value => cases value <;> simp [chars, value?]
  | int hlow hhigh => exact value?_int hlow hhigh hr
  | @string _ text =>
    have hread : string? strict (quoted text ++ rest) = _ := string?_quoted text
    simp only [quoted, List.cons_append, List.append_assoc, List.nil_append] at hread
    simp [chars, quoted, value?, hread]
  | @array depth xs h ih =>
    have hitems : ∀ x ∈ xs, ReadsAs (value? strict depth) (chars x) x :=
      fun x hx => ⟨begins_chars (h x hx), ih x hx⟩
    rw [chars_array, List.cons_append, value?, bracketed?_listed (.inl rfl) hitems]
    simp
  | @object depth ms hs h ih =>
    have hitems : ∀ m ∈ ms,
        ReadsAs (member? strict fun _ => value? strict depth) (memberText m) m := by
      intro m hm
      exact ReadsAs.member ⟨begins_chars (h m hm), ih m hm⟩
    rw [chars_object, List.cons_append, value?, bracketed?_listed (.inr rfl) hitems]
    simp [ofMembers, sortMembers_of_sorted hs]

theorem Fails.member {read? : String → List Char → Option (α × List Char)} {name : String}
    {x : Json} (h : Fails (read? name) (chars x)) :
    Fails (member? strict read?) (memberText (name, x)) := by
  refine ⟨begins_cons rfl (by decide), fun rest hr => ?_⟩
  have hvalue := h.fails rest hr
  have hcolon : skipBlanks (':' :: (chars x ++ rest)) = ':' :: (chars x ++ rest) := by
    simp [skipBlanks, isBlank]
  simp [member?, memberText, string?_quoted, hcolon, h.begins.skipBlanks, hvalue]

theorem reads_or_fails (h : ¬Plain depth x → Fails (value? strict depth) (chars x)) :
    (∃ y, ReadsAs (value? strict depth) (chars x) y) ∨ Fails (value? strict depth) (chars x) := by
  by_cases hx : Plain depth x
  · exact .inl ⟨x, readsAs_value hx⟩
  · exact .inr (h hx)

theorem fails_value (hp : Plain levels x) (h : ¬Plain depth x) :
    Fails (value? strict depth) (chars x) := by
  induction hp generalizing depth with
  | null => exact absurd .null h
  | bool => exact absurd .bool h
  | int hlow hhigh => exact absurd (.int hlow hhigh) h
  | string => exact absurd .string h
  | @array levels xs hxs ih =>
    rw [chars_array]
    refine ⟨begins_cons rfl (by decide), fun rest _ => ?_⟩
    cases depth with
    | zero => rfl
    | succ depth =>
      obtain ⟨x, hx, hdeep⟩ : ∃ x ∈ xs, ¬Plain depth x := by
        simpa using mt Plain.array h
      have hitems : ∀ x ∈ xs, (∃ y, ReadsAs (value? strict depth) (chars x) y) ∨
          Fails (value? strict depth) (chars x) := fun x hx => reads_or_fails (ih x hx)
      rw [List.cons_append, value?, bracketed?_fails (.inl rfl) hitems ⟨x, hx, ih x hx hdeep⟩]
      rfl
  | @object levels ms hs hms ih =>
    rw [chars_object]
    refine ⟨begins_cons rfl (by decide), fun rest _ => ?_⟩
    cases depth with
    | zero => rfl
    | succ depth =>
      obtain ⟨m, hm, hdeep⟩ : ∃ m ∈ ms, ¬Plain depth m.2 := by
        simpa using mt (Plain.object hs) h
      have hitems : ∀ m ∈ ms,
          (∃ y, ReadsAs (member? strict fun _ => value? strict depth) (memberText m) y) ∨
            Fails (member? strict fun _ => value? strict depth) (memberText m) := by
        intro m hm
        rcases reads_or_fails (ih m hm) with ⟨y, hy⟩ | hfails
        · exact .inl ⟨(m.1, y), hy.member⟩
        · exact .inr hfails.member
      rw [List.cons_append, value?,
        bracketed?_fails (.inr rfl) hitems ⟨m, hm, (ih m hm hdeep).member⟩]
      rfl

end Reader

end SpoolIndex.Json
