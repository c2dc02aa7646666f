import ScummKit.Position

/-!
# Pictures

A pixel is one byte of grey, or three or four bytes of colour. Positions may be negative and then count
from the far edge; a place outside is a fault.
-/

namespace ScummKit

inductive Picture.Mode where
  | grey
  | rgb
  | rgba
  deriving Repr, DecidableEq, Inhabited

def Picture.Mode.bands : Picture.Mode → Nat
  | .grey => 1
  | .rgb => 3
  | .rgba => 4

abbrev Pixel := List UInt8

structure Picture where
  mode : Picture.Mode
  width : Nat
  height : Nat
  pixels : Array Pixel
  deriving Repr, DecidableEq, Inhabited

/-- A colour as it is asked for or painted: a single level, or a value for each band. -/
inductive Shade where
  | level (v : Int)
  | bands (vs : List Int)
  deriving Repr, DecidableEq, Inhabited

namespace Shade

def band (s : Shade) (i : Nat) : Except Fault Int :=
  match s with
  | .level _ => .error .wrongKind
  | .bands vs => Position.look vs i

def rgb (r g b : Int) : Shade := .bands [r, g, b]

def clip (v : Int) : UInt8 := UInt8.ofNat (min v.toNat 255)

/-- The pixel a colour leaves on a picture of three bands. A fourth band is dropped, and a level is
taken as three bytes, least significant first. -/
def ink : Shade → Except Fault Pixel
  | .level v => .ok [UInt8.ofNat (v % 256).toNat, UInt8.ofNat (v / 256 % 256).toNat, UInt8.ofNat (v / 65536 % 256).toNat]
  | .bands [r, g, b] => .ok [clip r, clip g, clip b]
  | .bands [r, g, b, _] => .ok [clip r, clip g, clip b]
  | .bands _ => .error .wrongKind

end Shade

namespace Picture

def ofFn (mode : Mode) (width height : Nat) (f : Nat → Nat → Pixel) : Picture :=
  ⟨mode, width, height, Array.ofFn fun i : Fin (width * height) => f (i.val % width) (i.val / width)⟩

def ofRows (mode : Mode) (width : Nat) (rows : List (List Pixel)) : Picture :=
  ⟨mode, width, rows.length, rows.flatten.toArray⟩

def Mode.black (m : Mode) : Pixel := List.replicate m.bands 0

def checkSize (width height : Int) : Except Fault (Nat × Nat) :=
  if width < 0 ∨ height < 0 then .error .badValue else .ok (width.toNat, height.toNat)

def blank (width height : Int) : Except Fault Picture := do
  let (w, h) ← checkSize width height
  return ofFn .rgb w h fun _ _ => Mode.black .rgb

def place? (p : Picture) (x y : Int) : Option (Nat × Nat) :=
  let x := if x < 0 then x + p.width else x
  let y := if y < 0 then y + p.height else y
  if 0 ≤ x ∧ x < p.width ∧ 0 ≤ y ∧ y < p.height then some (x.toNat, y.toNat) else none

def pixelAt (p : Picture) (x y : Nat) : Pixel :=
  if x < p.width ∧ y < p.height then p.pixels[y * p.width + x]?.getD p.mode.black else p.mode.black

def Mode.shade : Mode → Pixel → Shade
  | .grey, px => .level ((px.headD 0).toNat : Int)
  | _, px => .bands (px.map fun b => (b.toNat : Int))

def get (p : Picture) (x y : Int) : Except Fault Shade :=
  match p.place? x y with
  | some (x, y) => .ok (p.mode.shade (p.pixelAt x y))
  | none => .error .outOfRange

def set (p : Picture) (x y : Int) (px : Pixel) : Except Fault Picture :=
  match p.place? x y with
  | some (x, y) => .ok { p with pixels := p.pixels.setIfInBounds (y * p.width + x) px }
  | none => .error .outOfRange

def put (p : Picture) (x y : Int) (s : Shade) : Except Fault Picture := do
  p.set x y (← s.ink)

/-- The part of a picture between two corners. What lies outside of it is zero in every band. -/
def crop (p : Picture) (x0 y0 x1 y1 : Int) : Except Fault Picture :=
  if x1 < x0 ∨ y1 < y0 then .error .badValue
  else .ok (ofFn p.mode (x1 - x0).toNat (y1 - y0).toNat fun i j =>
    let x := x0 + i
    let y := y0 + j
    if x < 0 ∨ y < 0 then p.mode.black else p.pixelAt x.toNat y.toNat)

def paste (p q : Picture) (x y : Int) : Picture :=
  ofFn p.mode p.width p.height fun i j =>
    let u := (i : Int) - x
    let v := (j : Int) - y
    if 0 ≤ u ∧ u < q.width ∧ 0 ≤ v ∧ v < q.height then q.pixelAt u.toNat v.toNat
    else p.pixelAt i j

def rows (p : Picture) : List (List Pixel) :=
  (List.range p.height).map fun y => (List.range p.width).map fun x => p.pixelAt x y

end Picture

/-! ### Palettes -/

abbrev Palette := List Shade

namespace Palette

/-- Whether two colours agree in their first three bands, looked at one after the other. -/
def agree (a b : Shade) : Nat → Nat → Except Fault Bool
  | _, 0 => .ok true
  | i, n + 1 => do
    if (← a.band i) = (← b.band i) then agree a b (i + 1) n else return false

def findFrom (colour : Shade) : Nat → List Shade → Except Fault (Option Nat)
  | _, [] => .ok none
  | i, c :: rest => do
    if ← agree c colour 0 3 then return some i else findFrom colour (i + 1) rest

def notFound : Fault := .stopped "Error: Color not in palette"

def index (palette : Palette) (colour : Shade) : Except Fault Nat := do
  match ← findFrom colour 0 palette with
  | some i => return i
  | none => throw notFound

def sharedStart : Nat := 0xc0

/-- The entry of a palette with a colour. Colours that all rooms share come first. -/
def sharedIndex (palette : Palette) (colour : Shade) : Except Fault Nat := do
  match ← findFrom colour sharedStart (palette.drop sharedStart) with
  | some i => return i
  | none => palette.index colour

def ega : Palette :=
  [.rgb 0x00 0x00 0x00, .rgb 0x00 0x00 0xaa, .rgb 0x00 0xaa 0x00, .rgb 0x00 0xaa 0xaa,
   .rgb 0xaa 0x00 0x00, .rgb 0xaa 0x00 0xaa, .rgb 0xaa 0x55 0x00, .rgb 0xaa 0xaa 0xaa,
   .rgb 0x55 0x55 0x55, .rgb 0x55 0x55 0xff, .rgb 0x55 0xff 0x55, .rgb 0x55 0xff 0xff,
   .rgb 0xff 0x55 0x55, .rgb 0xff 0x55 0xff, .rgb 0xff 0xff 0x55, .rgb 0xff 0xff 0xff]

def mask : Palette := [.rgb 0x00 0x00 0x00, .rgb 0xff 0xff 0xff]

end Palette

end ScummKit
