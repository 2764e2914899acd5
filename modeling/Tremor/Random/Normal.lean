import Tremor.Random.Generator
import Tremor.Random.Source

/-!
# Normally distributed numbers

The ziggurat method covers the bell curve by layers of equal area. A draw picks a layer and a point in it; the point
counts at once when it lies under the next layer, and otherwise when it lies under the curve. The lowest layer stands
for the tail, which has a method of its own.

- `edges`, `heights` : the right ends of the layers and the curve above them
- `Source.normal` : a normally distributed number with mean 0 and deviation 1
- `generator` : all that is drawn from a source
-/

namespace Tremor.Random

namespace Ziggurat

def tailStart : Float := 3.654152885361008796

def layerArea : Float := 0.00492867323399

/-- The bell curve, one at its top. -/
def curve (x : Float) : Float := (-x * x / 2.0).exp

/-- Adds `n` edges, each by the equal area of the layers. -/
def moreEdges : Nat → Array Float → Float → Array Float
  | 0, edges, _ => edges
  | n + 1, edges, x =>
    let next := (-2.0 * (layerArea / x + curve x).log).sqrt
    moreEdges n (edges.push next) next

/-- The right ends of the 256 layers, from the lowest up, and zero. -/
def edges : Array Float :=
  (moreEdges 254 #[layerArea / curve tailStart, tailStart] tailStart).push 0.0

def heights : Array Float := edges.map curve

end Ziggurat

namespace Source

open Ziggurat

/-- A number between 0 and 1 that is neither. -/
def openUnit (s : Source) : Float × Source :=
  let (bits, s) := s.word
  (fraction bits + Float.ofBits 0x3ca0000000000000, s)

/-- A point of the tail, on the side that `u` tells, in at most `tries` draws. -/
def tail (u : Float) : Nat → Source → Float × Source
  | 0, s => (tailStart, s)
  | tries + 1, s =>
    let (o₁, s) := s.openUnit
    let (o₂, s) := s.openUnit
    let x := o₁.log / tailStart
    let y := o₂.log
    if -2.0 * y < x * x then tail u tries s
    else (if u < 0.0 then x - tailStart else tailStart - x, s)

/-- A normally distributed number in at most `tries` draws. -/
def normalWithin : Nat → Source → Float × Source
  | 0, s => (0, s)
  | tries + 1, s =>
    let (bits, s) := s.word
    let layer := (bits &&& 0xff).toNat
    let u := 2.0 * (1.0 + fraction bits) - 3.0
    let x := u * edges[layer]!
    if x.abs < edges[layer + 1]! then (x, s)
    else if layer = 0 then tail u 1000 s
    else
      let (v, s) := s.unit
      if heights[layer + 1]! + (heights[layer]! - heights[layer + 1]!) * v < curve x then (x, s)
      else normalWithin tries s

/-- A normally distributed number. A draw is kept in more than 97 cases of 100, so that a thousand draws are always
enough. -/
def normal (s : Source) : Float × Source :=
  normalWithin 1000 s

end Source

/-- What is drawn from the key stream of a seed. -/
def generator : Generator where
  State := Source
  ofSeed := Source.ofSeed
  unit := Source.unit
  below := Source.below
  normal := Source.normal

end Tremor.Random
