import ScummKit.Image.Ega
import ScummKit.Image.Mask
import ScummKit.Image.Vga
import ScummKit.Picture
import ScummKit.Word

/-!
# Pictures in stripes

A picture is stored as a table of offsets and the stripes they point to. Offsets count from a base
before the table.
-/

namespace ScummKit

inductive Video where
  | ega
  | vga
  | mask
  deriving Repr, DecidableEq, Inhabited

namespace Video

def ofText? : String → Option Video
  | "ega" => some .ega
  | "vga" => some .vga
  | "zplane" => some .mask
  | _ => none

def wordSize : Video → Nat
  | .ega => 2
  | .vga => 4
  | .mask => 2

def palette (v : Video) (given : Palette) : Palette :=
  match v with
  | .ega => Palette.ega
  | .vga => given
  | .mask => Palette.mask

def decodeStripe : Video → Int → List Int → Except Fault Stripe
  | .ega => Ega.decode
  | .vga => Vga.decode
  | .mask => Mask.decode

def encodeStripe : Video → Stripe → Except Fault (List Int)
  | .ega => Ega.encode
  | .vga => Vga.encode
  | .mask => Mask.encode

end Video

namespace Subimage

def stripeCount (width : Int) : Nat := (Int.tdiv width 8).toNat

def offsets (data : List Int) (width wordSize base : Int) : Except Fault (List Int) := do
  let table ← (List.range (stripeCount width)).mapM fun (i : Nat) => do
    let p := (i : Int) * wordSize
    return (← Word.decodeLE (Position.cut data p (p + wordSize)) wordSize) - base
  return table ++ [(data.length : Int)]

def stretches (data : List Int) : List Int → List (List Int)
  | a :: b :: rest => Position.cut data a b :: stretches data (b :: rest)
  | _ => []

def rowPixels (palette : Palette) (s : Stripe) (y : Nat) : Except Fault (List (Int × Pixel)) :=
  (List.range 8).mapM fun (x : Nat) => do
    let i ← s.pixel (y * 8 + x : Nat)
    return (i, ← (← Position.look palette i).ink)

def composite (stripes : List Stripe) (palette : Palette) (height : Int) : Except Fault (Picture × Bool) := do
  let (width, h) ← Picture.checkSize (stripes.length * 8 : Nat) height
  let columns ← stripes.mapM fun s => (List.range h).mapM (rowPixels palette s)
  let rows := (List.range h).map fun y => columns.flatMap fun column => column[y]?.getD []
  let blank := rows.all fun row => row.all fun px => px.1 = 0
  return (Picture.ofRows .rgb width (rows.map fun row => row.map Prod.snd), blank)

def decode (video : Video) (data : List Int) (width height base : Int) (palette : Palette) : Except Fault (Picture × Bool) := do
  let table ← offsets data width video.wordSize base
  let stripes ← (stretches data table).mapM (video.decodeStripe height)
  composite stripes (video.palette palette) height

def stripeOf (p : Picture) (palette : Palette) (i : Nat) : Except Fault Stripe := do
  let entries ← (List.range p.height).mapM fun (y : Nat) => (List.range 8).mapM fun (x : Nat) => do
    let n ← palette.index (← p.get (i * 8 + x : Nat) y)
    return (n : Int)
  return entries.flatten.foldl Stripe.write (Stripe.new p.height .rows)

def split (p : Picture) (palette : Palette) : Except Fault (List Stripe) :=
  (List.range (stripeCount p.width)).mapM (stripeOf p palette)

def offsetBytes (wordSize : Int) : Int → List (List Int) → Except Fault (List Int)
  | _, [] => .ok []
  | offset, stripe :: rest => do
    let bytes ← Word.encodeLE (.int offset) wordSize
    return bytes ++ (← offsetBytes wordSize (offset + stripe.length) rest)

def pack (stripes : List (List Int)) (wordSize base : Int) : Except Fault (List Int) := do
  return (← offsetBytes wordSize (base + wordSize * stripes.length) stripes) ++ stripes.flatten

def encode (video : Video) (p : Picture) (base : Int) (palette : Palette) : Except Fault (List Int) := do
  let stripes ← split p (video.palette palette)
  let encoded ← stripes.mapM video.encodeStripe
  pack encoded video.wordSize base

/-- Decodes by the name of a coding. A name that is none is no key of the table of codings. -/
def decodeNamed (video : String) (data : List Int) (width height base : Int) (palette : Palette) :
    Except Fault (Picture × Bool) :=
  match Video.ofText? video with
  | some v => decode v data width height base palette
  | none => .error (.missingKey video)

/-- Encodes by the name of a coding. The picture is taken apart before the name is looked up. -/
def encodeNamed (video : String) (p : Picture) (base : Int) (palette : Palette) : Except Fault (List Int) :=
  match Video.ofText? video with
  | some v => encode v p base palette
  | none => do
    let _ ← split p palette
    throw (.missingKey video)

end Subimage

end ScummKit
