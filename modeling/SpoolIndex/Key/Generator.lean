import SpoolIndex.Key

/-!
# Making keys

Keys of version 7 for given moments. While the moments do not go back, a counter of 42 bits keeps
the keys in the order they were made: it starts at a random number of 41 bits with each new
millisecond and goes up by one within it. A moment before the last one gets random bits instead,
so that a replayed item keeps its own time.
-/

namespace SpoolIndex

structure KeyGenerator where
  /-- The latest millisecond a key was asked for. -/
  lastMillis : Nat
  /-- The millisecond the counter belongs to; it runs ahead once a counter is used up. -/
  counterMillis : Nat
  counter : Nat
deriving DecidableEq

namespace KeyGenerator

def new : KeyGenerator := ⟨0, 0, 0⟩

instance : Inhabited KeyGenerator := ⟨new⟩

/-- Random bits for one key: the start of a new counter, and the bits no counter takes. -/
structure Entropy where
  counterStart : Nat
  tail : Nat
deriving Inhabited

/-- A key of version 7 and variant 2 from milliseconds and 74 more bits. -/
def compose (millis low : Nat) : Key :=
  .ofNat ((millis % 0x1_0000_0000_0000) <<< 80 + 7 <<< 76 + (low >>> 62 % 0x1000) <<< 64 +
    2 <<< 62 + low % 0x4000_0000_0000_0000)

/-- Whole milliseconds since 1970; moments of earlier seconds count as 1970. -/
def clampedMillis (t : Instant) : Nat := if t.seconds < 0 then 0 else t.millis.toNat

/-- Moves the counter for a moment that is not before the last one. -/
def advance (g : KeyGenerator) (millis : Nat) (fresh : Nat) : KeyGenerator :=
  if g.counterMillis < millis then ⟨millis, millis, fresh % 0x200_0000_0000⟩
  else if g.counter + 1 < 0x400_0000_0000 then ⟨millis, g.counterMillis, g.counter + 1⟩
  else ⟨millis, g.counterMillis + 1, fresh % 0x200_0000_0000⟩

def keyAt (g : KeyGenerator) (t : Instant) (entropy : Entropy) : Key × KeyGenerator :=
  let millis := clampedMillis t
  if g.lastMillis ≤ millis then
    let g := g.advance millis entropy.counterStart
    (compose g.counterMillis (g.counter * 0x1_0000_0000 + entropy.tail % 0x1_0000_0000), g)
  else (compose millis (entropy.tail % 0x400_0000_0000_0000_0000), g)

def keysAt (g : KeyGenerator) : List (Instant × Entropy) → List Key
  | [] => []
  | (t, entropy) :: rest =>
    let (key, g) := g.keyAt t entropy
    key :: g.keysAt rest

end KeyGenerator

end SpoolIndex
