import SpoolIndex.Report

/-!
# Journals

What a run reported, in order: the spans and events with the spans around them, and how often
each instrument counted under each set of labels.
-/

namespace SpoolIndex

inductive JournalEntry where
  | span (name : String) (fields : List (String × Field))
  | fill (span field value : String)
  /-- An event with the spans it happened in, the outermost first. -/
  | event (level : Level) (message : String) (fields : List (String × Field))
      (spans : List String)
deriving DecidableEq

structure Tally where
  instrument : Instrument
  labels : List (String × String)
  count : Nat
deriving DecidableEq

structure Journal where
  /-- The spans entered and not left, the innermost first. -/
  spans : List String
  /-- The latest entry comes first. -/
  entries : List JournalEntry
  tallies : List Tally

namespace Journal

def empty : Journal := ⟨[], [], []⟩

instance : Inhabited Journal := ⟨empty⟩

def increment (instrument : Instrument) (labels : List (String × String)) :
    List Tally → List Tally
  | [] => [⟨instrument, labels, 1⟩]
  | t :: ts =>
    if t.instrument = instrument ∧ t.labels = labels then { t with count := t.count + 1 } :: ts
    else t :: increment instrument labels ts

def add (j : Journal) : Report → Journal
  | .span name fields => { j with entries := .span name fields :: j.entries }
  | .fill span field value => { j with entries := .fill span field value :: j.entries }
  | .enter span => { j with spans := span :: j.spans }
  | .leave => { j with spans := j.spans.drop 1 }
  | .event level message fields =>
    { j with entries := .event level message fields j.spans.reverse :: j.entries }
  | .count instrument labels => { j with tallies := increment instrument labels j.tallies }

def count (j : Journal) (instrument : Instrument) (labels : List (String × String)) : Nat :=
  match j.tallies.find? fun t => t.instrument = instrument ∧ t.labels = labels with
  | some t => t.count
  | none => 0

end Journal

end SpoolIndex
