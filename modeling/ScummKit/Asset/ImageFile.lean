import ScummKit.Asset.ImagePath
import ScummKit.Asset.PaletteFile
import ScummKit.Image.Subimage
import ScummKit.Xml.Reader

/-!
# Files of images

In version 4 a picture and its mask share a file; in version 5 every layer has its own.
-/

namespace ScummKit.ImageFile

open Work Asset

/-! ### Headers -/

def headerPath? (p : Path) (version : String) (s : Option Subject) : Except Fault (Option Path) := do
  match s, version with
  | some .object, "4" => return some ((← p.ancestor 0).join "OBHD.xml")
  | some .object, "5" => return some ((← p.ancestor 1).join "OBHD.xml")
  | some .room, "4" => return some ((← p.ancestor 0).join "HD.xml")
  | some .room, "5" => return some ((← p.ancestor 2).join "RMHD.xml")
  | _, _ => return none

def readXml (p : Path) : Work Xml.Element := do
  (Xml.parse (← bytes p) : Except Fault Xml.Element)

def number (root : Xml.Element) (tags : List String) : Except Fault Int := do
  match (← root.follow tags).text with
  | some s => Numeral.read 10 s
  | none => throw .wrongKind

/-- The size that a header gives. Objects of version 4 count their width in stripes. -/
def sizeIn (version : String) (s : Subject) (root : Xml.Element) : Except Fault (Int × Int) := do
  match s, version with
  | .object, "4" =>
    let width ← number root ["code", "width"]
    return (width * 8, ← number root ["code", "height"])
  | .object, _ =>
    let width ← number root ["image", "width"]
    return (width, ← number root ["image", "height"])
  | .room, _ =>
    let width ← number root ["width"]
    return (width, ← number root ["height"])

def size (p : Path) (version : String) (s : Option Subject) : Work (Int × Int) := do
  match ← (headerPath? p version s : Except Fault (Option Path)), s with
  | some header, some s =>
    let root ← readXml header
    (sizeIn version s root : Except Fault (Int × Int))
  | _, _ => throw .noFile

def objectId (p : Path) : Work Int := do
  let root ← readXml (p.sibling "OBHD.xml")
  (number root ["id"] : Except Fault Int)

def roomPalette (p : Path) (version : String) (s : Option Subject) : Work Palette := do
  let above : Option (Int × String) := match s, version with
    | some .object, "4" => some (2, "PA.dmp")
    | some .object, "5" => some (3, "CLUT.dmp")
    | some .room, "4" => some (0, "PA.dmp")
    | some .room, "5" => some (2, "CLUT.dmp")
    | _, _ => none
  match above with
  | some (levels, name) =>
    let folder ← (p.ancestor levels : Except Fault Path)
    PaletteFile.read version (folder.join name)
  | none => throw .wrongKind

def paletteFor (video : String) (given : Palette) (p : Path) (version : String) (s : Option Subject) : Work Palette :=
  if video = "vga" ∧ given = [] then roomPalette p version s else return given

def wordSize (video : String) : Except Fault Nat :=
  match Video.ofText? video with
  | some v => .ok v.wordSize
  | none => .error (.missingKey video)

/-! ### Decoding -/

def save (stamped : Bool) (p : Path) (pic : Picture) : Work Unit := do
  writePicture p pic
  if stamped then stamp p

def decode4 (stamped : Bool) (video : String) (palette : Palette) (s : Option Subject) (p : Path)
    (data : List Int) (width height : Int) : Work Unit := do
  let header : Int := if s = some .room then 6 else 8
  let word ← (wordSize video : Except Fault Nat)
  if (data.length : Int) ≤ header + 4 then return
  let length ← (Word.decodeLE (Position.cut data header (header + word)) word : Except Fault Int)
  let stop := length + header
  let (pic, _) ← (Subimage.decodeNamed video (Position.cut data (header + word) stop) width height
    word palette : Except Fault (Picture × Bool))
  let plain := p.rename (Text.swap · ".dmp" "_image.png")
  let target ←
    if s = some .object then (flatten plain 1 : Except Fault Path) else pure plain
  save stamped target pic
  if (data.length : Int) ≤ stop + 4 then return
  let (mask, blank) ← (Subimage.decodeNamed "zplane" (Position.onward data (stop + 2)) width height
    2 [] : Except Fault (Picture × Bool))
  if blank then return
  save stamped (target.rename (Text.swap · "_image" "_zplane")) mask

def decode5 (stamped : Bool) (video : String) (palette : Palette) (p : Path) (data : List Int)
    (width height : Int) : Work Unit := do
  let (pic, blank) ← (Subimage.decodeNamed video (data.drop 8) width height 8 palette : Except Fault (Picture × Bool))
  if blank then return
  let target ← (flatten (p.rename (Text.swap · ".dmp" ".png")) 2 : Except Fault Path)
  save stamped target pic

def decode (version : String) (stamped : Bool) (video : String) (given : Palette) (p : Path) :
    Work Unit := do
  say s!"Decoding {p.text}"
  let data ← octets p
  let s ← (subject p version : Except Fault (Option Subject))
  let (width, height) ← size p version s
  let palette ← paletteFor video given p version s
  match version with
  | "4" => decode4 stamped video palette s p data width height
  | "5" => decode5 stamped video palette p data width height
  | _ => return

/-! ### Encoding -/

def tag4 (target : Path) : Option Subject → Work (List Int)
  | some .object => do return [0x4f, 0x49] ++ Word.toLE 2 (← objectId target)
  | some .room => return [0x42, 0x4d]
  | none => return []

def announce (picture mask : Path) : Work Unit := do
  if ← ask (·.has mask) then say s!"Encoding {picture.text} and {mask.text}"
  else say s!"Encoding {picture.text}"

def maskFor (pic : Picture) (mask : Path) : Work Picture := do
  if ← ask (·.has mask) then picture mask
  else (Picture.blank pic.width pic.height : Except Fault Picture)

def stampPair (picture mask : Path) : Work Unit := do
  stamp picture
  if ← ask (·.has mask) then stamp mask

def encode4 (stamped : Bool) (video : String) (palette : Palette) (s : Option Subject) (target p : Path) : Work (List Int) := do
  match imagePair p with
  | none => throw .wrongKind
  | some (picture, mask) =>
    announce picture mask
    let pic ← Work.picture picture
    let word ← (wordSize video : Except Fault Nat)
    let body ← (Subimage.encodeNamed video pic word palette : Except Fault (List Int))
    let layer ← maskFor pic mask
    let maskBody ← (Subimage.encodeNamed "zplane" layer 2 [] : Except Fault (List Int))
    let tag ← tag4 target s
    let length : Nat := word + body.length
    let maskLength : Nat := 2 + maskBody.length
    let data := Word.toLE 4 (4 + tag.length + length + maskLength : Nat) ++ tag
      ++ Word.toLE word length ++ body ++ Word.toLE 2 maskLength ++ maskBody
    if stamped then stampPair picture mask
    return data

def maskNumber? : List Char → Option Nat
  | [] => none
  | 'Z' :: 'P' :: rest =>
    let ds := rest.takeWhile Char.isDigit
    if !ds.isEmpty && ".png".toList.isPrefixOf (rest.dropWhile Char.isDigit) then
      some (Json.ofDigits ds)
    else maskNumber? ('P' :: rest)
  | _ :: rest => maskNumber? rest
termination_by cs => cs.length

/-- The tag of a layer of version 5. Masks are numbered by a digit, and a file without a number gets
that of the last one before it. -/
def tag5 (video : String) (p : Path) : Work (List Int) := do
  match video with
  | "vga" => return [0x53, 0x4d, 0x41, 0x50]
  | "zplane" =>
    match maskNumber? p.name.toList with
    | some n => modify fun w => { w with maskDigit := (0x30 ||| n : Nat) }
    | none => pure ()
    return [0x5a, 0x50, 0x30, (← get).maskDigit]
  | _ => return []

def encode5 (stamped : Bool) (video : String) (palette : Palette) (p : Path) : Work (List Int) := do
  say s!"Encoding {p.text}"
  let pic ← picture p
  let body ← (Subimage.encodeNamed video pic 8 palette : Except Fault (List Int))
  let tag ← tag5 video p
  if stamped then stamp p
  return tag ++ Word.toBE 4 (8 + body.length : Nat) ++ body

def encode (version : String) (stamped : Bool) (video : String) (given : Palette) (p : Path) :
    Work Unit := do
  let target := unflatten (p.rename fun name =>
    Text.swapAll name [("_image", ""), ("_zplane", ""), (".png", ".dmp")])
  let s ← (subject target version : Except Fault (Option Subject))
  let palette ← paletteFor video given target version s
  let data ← match version with
    | "4" => encode4 stamped video palette s target p
    | "5" => encode5 stamped video palette p
    | _ => pure []
  writeOctets target (data.map .int)

end ScummKit.ImageFile
