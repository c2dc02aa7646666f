import ScummKit.Asset.ImagePath
import ScummKit.Asset.PaletteFile
import ScummKit.Costume.Basic

/-!
# Files of costumes

A costume is edited as a document and a sheet with all its pictures.
-/

namespace ScummKit.CostumeFile

open Work Asset

def roomPalette (p : Path) (version : String) : Work Palette :=
  match version with
  | "4" => PaletteFile.read version ((p.sibling "RO").join "PA.dmp")
  | "5" => PaletteFile.read version ((p.sibling "ROOM").join "CLUT.dmp")
  | _ => throw .noFile

def paletteFor (video : String) (given : Palette) (p : Path) (version : String) : Work Palette :=
  if video = "ega" then return Palette.ega
  else if video = "vga" ∧ given = [] then roomPalette p version
  else return given

def decode (version : String) (stamped : Bool) (video : String) (given : Palette) (p : Path) :
    Work Unit := do
  say s!"Decoding {p.text}"
  let data ← octets p
  let palette ← paletteFor video given p version
  match Costume.notice? version data with
  | some notice => say notice
  | none => pure ()
  let c ← (Costume.decode version data palette : Except Fault Costume)
  let (sheet, picts) ← (Costume.buildSheet c.picts c.palette : Except Fault (Picture × List Costume.Pict))
  let file := p.rename fun name => "_" ++ Text.swap name ".dmp" "_animdata.json"
  writeText file (Json.pretty 4 ({ c with picts }).toJson)
  let sheetFile := p.rename fun name => "_" ++ Text.swap name ".dmp" "_spritesheet.png"
  writePicture sheetFile sheet
  if stamped then
    stamp file
    stamp sheetFile

def encode (version : String) (stamped : Bool) (video : String) (given : Palette) (p : Path) :
    Work Unit := do
  say s!"Encoding {p.text}"
  match costumePair p with
  | none => throw .wrongKind
  | some (file, sheetFile) =>
    let sheet ← picture sheetFile
    let doc ← document file
    let palette ← paletteFor video given p version
    let draft ← (Costume.Draft.ofJson doc sheet : Except Fault Costume.Draft)
    let data ← (draft.encode version palette : Except Fault (List Json))
    writeOctets (file.rename fun name =>
      Text.swap (String.ofList (name.toList.drop 1)) "_animdata.json" ".dmp") data
    if stamped then
      stamp file
      stamp sheetFile

end ScummKit.CostumeFile
