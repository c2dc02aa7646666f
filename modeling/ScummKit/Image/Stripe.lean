import ScummKit.Bits
import ScummKit.Position

/-!
# Stripes

A stripe is filled and read through a cursor that moves along rows or down columns. Outside the stripe
writing changes nothing and reading gives zero.
-/

namespace ScummKit

inductive Direction where
  | rows
  | columns
  | still (code : Int)
  deriving Repr, DecidableEq, Inhabited

namespace Direction

def ofCode (n : Int) : Direction := if n = 0 then .rows else if n = 1 then .columns else .still n

def code : Direction → Int
  | .rows => 0
  | .columns => 1
  | .still n => n

end Direction

structure Stripe where
  height : Int
  pixels : Array Int
  x : Nat
  y : Nat
  lastX : Int
  lastY : Int
  direction : Direction
  deriving Repr, DecidableEq, Inhabited

namespace Stripe

def new (height : Int) (direction : Direction) : Stripe where
  height := height
  pixels := Array.replicate (height * 8).toNat 0
  x := 0
  y := 0
  lastX := -1
  lastY := -1
  direction := direction

def ofPixels (height : Int) (pixels : List Int) : Stripe := { new height .rows with pixels := pixels.toArray }

def reset (s : Stripe) (direction : Direction) : Stripe := { s with x := 0, y := 0, direction := direction }

def within (s : Stripe) : Bool := s.x < 8 && (s.y : Int) < s.height

def advance (s : Stripe) : Stripe :=
  match s.direction with
  | .rows => if 8 ≤ s.x + 1 then { s with x := 0, y := s.y + 1 } else { s with x := s.x + 1 }
  | .columns =>
    if s.height ≤ (s.y : Int) + 1 then { s with x := s.x + 1, y := 0 } else { s with y := s.y + 1 }
  | .still _ => s

def write (s : Stripe) (colour : Int) : Stripe :=
  if s.within then
    advance { s with pixels := s.pixels.setIfInBounds (s.y * 8 + s.x) colour }
  else s

def writeMany (colour : Int) : Nat → Stripe → Stripe
  | 0, s => s
  | n + 1, s => writeMany colour n (s.write colour)

def writeByte (s : Stripe) (byte : Int) : Stripe :=
  (Bits.ofInt 8 byte).reverse.foldl (fun s b => s.write (Bits.toNat b)) s

def pixel (s : Stripe) (i : Int) : Except Fault Int :=
  let j := if i < 0 then i + s.pixels.size else i
  if j < 0 then .error .outOfRange
  else match s.pixels[j.toNat]? with
    | some c => .ok c
    | none => .error .outOfRange

def read (s : Stripe) : Except Fault (Int × Stripe) := do
  if s.within then
    let c ← s.pixel (s.y * 8 + s.x : Nat)
    return (c, advance { s with lastX := s.x, lastY := s.y })
  else return (0, s)

def noteRead (s : Stripe) (x y : Int) : Stripe := { s with lastX := x, lastY := y }

def colourAt (s : Stripe) (x y : Int) : Except Fault Int := s.pixel (y * 8 + x)

def places (height : Nat) : Direction → List (Nat × Nat)
  | .rows => (List.range height).flatMap fun y => (List.range 8).map fun x => (x, y)
  | .columns => (List.range 8).flatMap fun x => (List.range height).map fun y => (x, y)
  | .still _ => []

def colours (s : Stripe) (d : Direction) : Except Fault (List Int) :=
  (places s.height.toNat d).mapM fun (x, y) => s.colourAt x y

end Stripe

end ScummKit
