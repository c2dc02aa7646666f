import ScummKit.Bits
import ScummKit.Json.Number
import ScummKit.Picture
import ScummKit.Take

/-!
# Pictures of costumes

The pixels of a picture are runs down the columns: the upper bits of a byte are a colour of the costume,
the lower ones a count, and a count of zero says that it has a byte of its own.
-/

namespace ScummKit.Costume

/-- A picture of a limb. `data` are the runs it was read from, and the place on the sheet is where it
is drawn for editing. -/
structure Pict where
  sheetX : Int
  sheetY : Int
  width : Int
  height : Int
  relativeX : Int
  relativeY : Int
  moveX : Int
  moveY : Int
  redirectLimb : Int
  redirectPict : Int
  limb : Int
  data : List Int
  image : Picture
  deriving Repr, DecidableEq, Inhabited

def countSize (palette : Palette) : Nat := if palette.length = 32 then 8 else 16

/-- The pixels of some runs, down the columns, until `room` of them are there; what the data leave
open has the first colour. -/
def runPixels (palette : Palette) (room : Nat) (data : List Int) : Except Fault (List Pixel) :=
  if room = 0 then .ok []
  else
    match data with
    | [] => do
      let px ← (← Position.look palette 0).ink
      return List.replicate room px
    | byte :: rest =>
      let size : Int := countSize palette
      let colour := byte % 256 / size
      let paint (count : Int) (more : Except Fault (List Pixel)) : Except Fault (List Pixel) := do
        if count ≤ 0 then more
        else
          let px ← (← Position.look palette colour).ink
          return List.replicate (min count.toNat room) px ++ (← more)
      if byte % size = 0 then
        match rest with
        | count :: rest => paint count (runPixels palette (room - count.toNat) rest)
        | [] => .error .outOfRange
      else paint (byte % size) (runPixels palette (room - (byte % size).toNat) rest)
termination_by structural data

def ofColumns (width height : Nat) (pixels : List Pixel) : Picture :=
  let cells := pixels.toArray
  Picture.ofFn .rgb width height fun x y => cells[x * height + y]?.getD (Picture.Mode.black .rgb)

/-- The picture of some runs. A picture that is wide and not high has no place for its first pixel. -/
def runImage (palette : Palette) (width height : Int) (data : List Int) : Except Fault Picture := do
  let (w, h) ← Picture.checkSize width height
  if h = 0 ∧ 0 < w then throw .outOfRange
  return ofColumns w h (← runPixels palette (w * h) data)

namespace Pict

def decode (data : List Int) (limb : Int) (redirectable : Bool) (palette : Palette) :
    Except Fault Pict := do
  let header : Take (List Int) := do
    let size ← Take.count (fun _ => Take.word) 0 2
    let places ← Take.count (fun _ => Take.signed) 0 4
    let redirect ← if redirectable then Take.count (fun _ => Take.item) 0 2 else pure [0, 0]
    return size ++ places ++ redirect
  match ← header.run data with
  | ([w, h, relativeX, relativeY, moveX, moveY, limbTo, pictTo], rest) =>
    let image ← runImage palette w h rest
    return ⟨0, 0, w, h, relativeX, relativeY, moveX, moveY, limbTo, pictTo, limb, rest, image⟩
  | _ => throw .outOfRange

def toJson (p : Pict) : Json :=
  .record [("Spritesheet X", .int p.sheetX), ("Spritesheet Y", .int p.sheetY),
    ("Width", .int p.width), ("Height", .int p.height), ("Relative X", .int p.relativeX),
    ("Relative Y", .int p.relativeY), ("Move X", .int p.moveX), ("Move Y", .int p.moveY),
    ("Redirect limb", .int p.redirectLimb), ("Redirect pict", .int p.redirectPict)]

end Pict

/-! ### Documents -/

structure PictEntry where
  width : Json
  height : Json
  relativeX : Json
  relativeY : Json
  moveX : Json
  moveY : Json
  redirectLimb : Json
  redirectPict : Json
  image : Picture
  deriving Inhabited

namespace PictEntry

def of (p : Pict) : PictEntry :=
  ⟨.int p.width, .int p.height, .int p.relativeX, .int p.relativeY, .int p.moveX, .int p.moveY,
   .int p.redirectLimb, .int p.redirectPict, p.image⟩

def cutOut (sheet : Picture) (x y width height : Json) : Except Fault Picture := do
  let left ← x.ratio
  let right := left.add (← width.ratio)
  let top ← y.ratio
  let bottom := top.add (← height.ratio)
  if right.less left || bottom.less top then throw .badValue
  sheet.crop left.round top.round right.round bottom.round

def ofJson (j : Json) (sheet : Picture) : Except Fault PictEntry := do
  let x ← j.field "Spritesheet X"
  let y ← j.field "Spritesheet Y"
  let width ← j.field "Width"
  let height ← j.field "Height"
  let relativeX ← j.field "Relative X"
  let relativeY ← j.field "Relative Y"
  let moveX ← j.field "Move X"
  let moveY ← j.field "Move Y"
  let limb ← j.field "Redirect limb"
  let pict ← j.field "Redirect pict"
  let image ← cutOut sheet x y width height
  return ⟨width, height, relativeX, relativeY, moveX, moveY, limb, pict, image⟩

def columnShades (image : Picture) (width height : Int) : Except Fault (List Shade) :=
  if height ≤ 0 ∧ 0 < width then .error .outOfRange
  else
    (List.range width.toNat).flatMapM fun (x : Nat) =>
      (List.range height.toNat).mapM fun (y : Nat) => image.get x y

def runsFrom (colour : Shade) : Nat → List Shade → List (Shade × Nat)
  | n, [] => [(colour, n)]
  | n, c :: rest =>
    if c = colour ∧ n < 0xff then runsFrom colour (n + 1) rest
    else (colour, n) :: runsFrom c 1 rest

def runs : List Shade → List (Shade × Nat)
  | [] => []
  | c :: rest => runsFrom c 1 rest

def runBytes (palette : Palette) (run : Shade × Nat) : Except Fault (List Int) := do
  let (colour, count) := run
  let i ← palette.index colour
  let size := countSize palette
  return if size ≤ count then [(i * size : Nat), count] else [(i * size ||| count : Nat)]

def encode (p : PictEntry) (palette : Palette) (redirectable : Bool) : Except Fault (List Json) := do
  let width ← p.width.integer
  let height ← p.height.integer
  let places ← [p.relativeX, p.relativeY, p.moveX, p.moveY].mapM Json.integer
  let header := Word.toLE 2 width ++ Word.toLE 2 height ++ places.flatMap fun v => Word.toLE 2 (Word.signedEncode v)
  let redirect := if redirectable then [p.redirectLimb, p.redirectPict] else []
  let shades ← columnShades p.image width height
  let body ← (runs shades).flatMapM (runBytes palette)
  return header.map Json.int ++ redirect ++ body.map Json.int

end PictEntry

end ScummKit.Costume
