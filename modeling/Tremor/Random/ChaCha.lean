/-!
# The ChaCha key stream

A block of sixteen words is the sum of an initial state and that state after a number of rounds. The initial state
holds four constants, eight key words and a block counter; the stream is the sequence of the blocks.

- `block` : the sixteen words of one block
- `keyOfSeed` : the key that a 64-bit seed stands for
-/

namespace Tremor.Random

@[inline] def rotl (x : UInt32) (n : UInt32) : UInt32 :=
  (x <<< n) ||| (x >>> (32 - n))

/-- The state of the cipher: sixteen words. -/
abbrev Words := Array UInt32

/-- Mixes four words of the state. -/
def quarterRound (s : Words) (a b c d : Nat) : Words :=
  let s := s.set! a (s[a]! + s[b]!)
  let s := s.set! d (rotl (s[d]! ^^^ s[a]!) 16)
  let s := s.set! c (s[c]! + s[d]!)
  let s := s.set! b (rotl (s[b]! ^^^ s[c]!) 12)
  let s := s.set! a (s[a]! + s[b]!)
  let s := s.set! d (rotl (s[d]! ^^^ s[a]!) 8)
  let s := s.set! c (s[c]! + s[d]!)
  s.set! b (rotl (s[b]! ^^^ s[c]!) 7)

/-- One round on the columns of the state and one on its diagonals. -/
def doubleRound (s : Words) : Words :=
  let s := quarterRound s 0 4 8 12
  let s := quarterRound s 1 5 9 13
  let s := quarterRound s 2 6 10 14
  let s := quarterRound s 3 7 11 15
  let s := quarterRound s 0 5 10 15
  let s := quarterRound s 1 6 11 12
  let s := quarterRound s 2 7 8 13
  quarterRound s 3 4 9 14

def doubleRounds : Nat → Words → Words
  | 0, s => s
  | n + 1, s => doubleRounds n (doubleRound s)

def constants : Words := #[0x61707865, 0x3320646e, 0x79622d32, 0x6b206574]

def initialState (key : Words) (counter : UInt64) : Words :=
  constants ++ key ++ #[counter.toUInt32, (counter >>> 32).toUInt32, 0, 0]

/-- The block with the given number under a key of eight words, after twelve rounds. -/
def block (key : Words) (counter : UInt64) : Words :=
  let start := initialState key counter
  Array.zipWith (· + ·) (doubleRounds 6 start) start

/-- One step of the generator that spreads a seed over a key. -/
def spread (state : UInt64) : UInt64 :=
  state * 6364136223846793005 + 11634580027462260723

/-- The word that the state of the spreading generator puts out. -/
def spreadWord (state : UInt64) : UInt32 :=
  let x := (((state >>> 18) ^^^ state) >>> 27).toUInt32
  let turn := (state >>> 59).toUInt32
  if turn = 0 then x else (x >>> turn) ||| (x <<< (32 - turn))

/-- The next `n` words of the spreading generator. -/
def spreadWords : Nat → UInt64 → List UInt32
  | 0, _ => []
  | n + 1, state => let next := spread state; spreadWord next :: spreadWords n next

/-- The eight key words of a seed. -/
def keyOfSeed (seed : UInt64) : Words :=
  (spreadWords 8 seed).toArray

end Tremor.Random
