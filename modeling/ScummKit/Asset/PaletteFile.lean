import ScummKit.Workspace.Ledger

/-!
# Files of palettes

A palette is kept as a picture of sixteen by sixteen colours. It can also be read only to be used, and
then nothing is said and nothing stored.
-/

namespace ScummKit.PaletteFile

open Work

def colours : List Int → Except Fault Palette
  | [] => .ok []
  | r :: g :: b :: rest => do return .bands [r, g, b, 255] :: (← colours rest)
  | _ => .error .outOfRange

/-- The colours of a file behind its header. Other versions are read from the start. -/
def ofData (version : String) (data : List Int) : Except Fault Palette :=
  if version = "4" ∨ version = "5" then colours (data.drop 8) else colours data

def toPicture (palette : Palette) : Except Fault Picture := do
  let rows ← (List.range 16).mapM fun (y : Nat) => (List.range 16).mapM fun (x : Nat) => do
    (← Position.look palette (y * 16 + x : Nat)).ink
  return Picture.ofRows .rgb 16 rows

def read (version : String) (p : Path) : Work Palette := do
  (ofData version (← octets p) : Except Fault Palette)

def decode (version : String) (stamped : Bool) (p : Path) : Work Palette := do
  say s!"Decoding {p.text}"
  let palette ← read version p
  let target := p.rename (Text.swap · ".dmp" ".png")
  let pic ← (toPicture palette : Except Fault Picture)
  writePicture target pic
  if stamped then stamp target
  return palette

def ofPicture (pic : Picture) : Except Fault Palette := do
  let rows ← (List.range 16).mapM fun (y : Nat) => (List.range 16).mapM fun (x : Nat) => pic.get x y
  return rows.flatten

def readPicture (p : Path) : Work Palette := do
  (ofPicture (← picture p) : Except Fault Palette)

def header? : String → Option (List Int)
  | "4" => some [0x08, 0x03, 0x00, 0x00, 0x50, 0x41, 0x00, 0x03]
  | "5" => some [0x43, 0x4c, 0x55, 0x54, 0x00, 0x00, 0x03, 0x08]
  | _ => none

def bandBytes (c : Shade) : Except Fault (List Int) := do
  let r ← c.band 0
  let g ← c.band 1
  return [r, g, ← c.band 2]

def encode (version : String) (stamped : Bool) (p : Path) : Work Palette := do
  let palette ← readPicture p
  say s!"Encoding {p.text}"
  match header? version with
  | none => giveUp "Version (4 or 5) must be specified."
  | some header =>
    let body ← (palette.mapM bandBytes : Except Fault (List (List Int)))
    writeOctets (p.rename (Text.swap · ".png" ".dmp")) ((header ++ body.flatten).map .int)
    if stamped then stamp p
    return palette

end ScummKit.PaletteFile
