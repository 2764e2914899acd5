import Tremor.Random.ChaCha

/-!
# A source of random numbers

A source is a place in a key stream. Drawing takes words from the stream and gives the number with the source that
follows it.

- `Source.ofSeed` : the start of the stream of a seed
- `Source.word` : 64 random bits
- `Source.unit` : a number from 0 up to, but not including, 1
- `Source.below` : a number from one bound up to, but not including, another
-/

namespace Tremor.Random

/-- A place in a key stream: the block in use, how many of its words are taken, and the number of the next block. -/
structure Source where
  key : Words
  current : Words
  taken : Nat
  next : UInt64

namespace Source

def ofSeed (seed : UInt64) : Source :=
  { key := keyOfSeed seed, current := #[], taken := 0, next := 0 }

def word32 (s : Source) : UInt32 × Source :=
  if h : s.taken < s.current.size then
    (s.current[s.taken], { s with taken := s.taken + 1 })
  else
    let fresh := block s.key s.next
    (fresh[0]!, { s with current := fresh, taken := 1, next := s.next + 1 })

/-- The next 64 bits, the low half first. -/
def word (s : Source) : UInt64 × Source :=
  let (low, s) := s.word32
  let (high, s) := s.word32
  (low.toUInt64 ||| (high.toUInt64 <<< 32), s)

/-- A multiple of `2 ^ -53` from 0 up to 1. -/
def unit (s : Source) : Float × Source :=
  let (bits, s) := s.word
  ((bits >>> 11).toFloat * Float.ofBits 0x3ca0000000000000, s)

/-- The upper 52 bits of a word as a fraction. -/
def fraction (bits : UInt64) : Float :=
  (bits >>> 12).toFloat * Float.ofBits 0x3cb0000000000000

/-- Draws at most `tries` times until the number is below `high`. -/
def belowWithin (low high : Float) : Nat → Source → Float × Source
  | 0, s => (low, s)
  | tries + 1, s =>
    let (bits, s) := s.word
    let x := fraction bits * (high - low) + low
    if x < high then (x, s) else belowWithin low high tries s

/-- A number from `low` up to `high`. Rounding can reach `high` itself only in one draw out of many, and then the draw
is repeated; a hundred draws are always enough. -/
def below (low high : Float) (s : Source) : Float × Source :=
  belowWithin low high 100 s

end Source

end Tremor.Random
