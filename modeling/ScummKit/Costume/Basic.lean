import ScummKit.Costume.Animation
import ScummKit.Costume.Offsets
import ScummKit.Costume.Sheet

/-!
# Costumes

Animations, limbs and pictures of a costume are numbered in order of first use, and tables say which
number each slot has.
-/

namespace ScummKit.Costume

structure Settings where
  animCount : Int
  formatByte : Int
  paletteSize : Int
  mirrorWest : Bool
  redirectable : Bool
  deriving Repr, DecidableEq, Inhabited

namespace Settings

def decode (data : List Int) : Except Fault Settings := do
  let count ← Position.look data 0
  let format ← Position.look data 1
  return ⟨count + 1, format, 16 + 16 * (format % 2), !Bits.test format 6, format % 0x80 / 2 = 0x30⟩

def encode (s : Settings) : List Int := [s.animCount - 1, s.formatByte]

def toJson (s : Settings) : Json :=
  .record [("Anim count", .int s.animCount), ("Format byte", .int s.formatByte),
    ("Palette size", .int s.paletteSize), ("Mirror west anims", .bool s.mirrorWest),
    ("Allow redirectable picts", .bool s.redirectable)]

def notice? (s : Settings) : Option String :=
  if s.redirectable then
    some "This costume uses redirectable picts which i HAVEN'T implemented!!!"
  else none

end Settings

end Costume

/-- A costume. Slots that hold nothing are -1 in the maps. -/
structure Costume where
  settings : Costume.Settings
  palette : Palette
  commands : List Int
  animMap : List Int
  anims : List (List Costume.Subanimation)
  limbMap : List Int
  limbs : List (List Int)
  picts : List Costume.Pict
  deriving Repr, Inhabited

namespace Costume

/-! ### Reading -/

def bases (version : String) : Int × Int := if version = "5" then (2, 8) else (0, 6)

/-- Parts met so far by their offsets, the numbers given to the slots, and the parts. -/
structure Found (α : Type) where
  seen : List (Int × Int)
  map : List Int
  parts : List α

def Found.start : Found α := ⟨[], [], []⟩

/-- Gives a slot the number -1, the number of its offset if that was met before, or the next number,
for a part that is then read. -/
def Found.slot (f : Found α) (offset : Int) (read : Except Fault α) : Except Fault (Found α) := do
  if !isOffset offset then return { f with map := f.map ++ [-1] }
  match Table.find? offset f.seen with
  | some n => return { f with map := f.map ++ [n] }
  | none =>
    let n : Int := f.parts.length
    return ⟨Table.put offset n f.seen, f.map ++ [n], f.parts ++ [← read]⟩

def decodeAnims (data : List Int) (table : List Int) (count commands : Int) : Except Fault (Found (List Subanimation)) :=
  let ordered := orderedOffsets table
  (table.zipIdx).foldlM (fun f (offset, i) =>
    let stop := if (i : Int) = count - 1 then commands
      else nextOffset offset data.length ordered
    f.slot offset (decodeAnimation (Position.cut data offset stop))) Found.start

structure Limbs where
  found : Found (List Int)
  first : Int

/-- One slot of the limb table. A limb without any entry counts as none. The last limb ends where the
first picture begins. -/
def limbSlot (data : List Int) (base : Int) (ordered : List Int) (l : Limbs) (offset : Int) :
    Except Fault Limbs := do
  let f := l.found
  if !isOffset offset then return { l with found := { f with map := f.map ++ [-1] } }
  match Table.find? offset f.seen with
  | some n => return { l with found := { f with map := f.map ++ [n] } }
  | none =>
    let limb := Position.cut data offset (nextOffset offset l.first ordered)
    if limb.isEmpty then
      return { l with found := { f with seen := Table.put offset (-1) f.seen, map := f.map ++ [-1] } }
    let n : Int := f.parts.length
    let table ← decodeOffsets limb ((limb.length / 2 : Nat) : Int) base
    let low := lowestOffset table
    let first := if l.first = -1 ∨ low < l.first then low else l.first
    return ⟨⟨Table.put offset n f.seen, f.map ++ [n], f.parts ++ [table]⟩, first⟩

def decodeLimbs (data : List Int) (table : List Int) (base : Int) : Except Fault (Found (List Int)) :=
  return (← table.foldlM (limbSlot data base (orderedOffsets table)) ⟨Found.start, -1⟩).found

def decodePicts (data : List Int) (limbs : List (List Int)) (redirectable : Bool)
    (palette : Palette) : Except Fault (List (List Int) × List Pict) := do
  let ordered := orderedOffsets limbs.flatten
  let start : List (List Int) × Found Pict := ([], Found.start)
  let (maps, f) ← limbs.zipIdx.foldlM (fun (maps, f) (table, i) => do
    let f ← table.foldlM (fun (f : Found Pict) offset =>
      f.slot offset (Pict.decode (Position.cut data offset (nextOffset offset data.length ordered)) (i : Nat) redirectable
        palette)) { f with map := [] }
    return (maps ++ [f.map], f)) start
  return (maps, f.parts)

def decodeSettings (version : String) (data : List Int) : Except Fault Settings :=
  let p := (bases version).2
  Settings.decode (Position.cut data p (p + 2))

def notice? (version : String) (data : List Int) : Option String :=
  match decodeSettings version data with
  | .ok s => s.notice?
  | .error _ => none

def decode (version : String) (data : List Int) (room : Palette) : Except Fault Costume := do
  let (base, header) := bases version
  let settings ← decodeSettings version data
  let p := header + 2
  let map := Position.cut data p (p + settings.paletteSize)
  let palette ← map.mapM (Position.look room)
  let p := p + settings.paletteSize
  let commands := (← Word.decodeLE (Position.cut data p (p + 2)) 2) + base
  let p := p + 2
  let limbTable ← decodeOffsets (Position.cut data p (p + 32)) 16 base
  let p := p + 32
  let animTable ← decodeOffsets (Position.cut data p (p + 2 * settings.animCount)) settings.animCount base
  let anims ← decodeAnims data animTable settings.animCount commands
  let limbs ← decodeLimbs data limbTable base
  let (maps, picts) ← decodePicts data limbs.parts settings.redirectable palette
  return ⟨settings, palette, Position.cut data commands (lowestOffset limbTable), anims.map, anims.parts, limbs.map, maps, picts⟩

def toJson (c : Costume) : Json :=
  .record [("Settings", c.settings.toJson), ("Commands sequence", .ofInts c.commands), ("Animation index map", .ofInts c.animMap),
    ("Animations", .list (c.anims.zipIdx.map fun (anim, i) =>
      animationToJson (.int i) (anim.map SubanimationEntry.of))),
    ("Limb index map", .ofInts c.limbMap), ("Limbs", .list (c.limbs.map .ofInts)),
    ("Picts", .list (c.picts.map Pict.toJson))]

def paletteImage (c : Costume) : Except Fault Picture := do
  let height := if c.settings.paletteSize = 32 then 4 else 2
  let rows ← (List.range height).mapM fun (y : Nat) => (List.range 8).mapM fun (x : Nat) => do
    (← Position.look c.palette (y * 8 + x : Nat)).ink
  return Picture.ofRows .rgb 8 rows

/-! ### Writing -/

structure Draft where
  animCount : Json
  formatByte : Json
  paletteSize : Json
  mirrorWest : Json
  redirectable : Json
  commands : Json
  animMap : Json
  anims : List (List SubanimationEntry)
  limbMap : Json
  limbs : List Json
  picts : List PictEntry
  palette : Palette

namespace Draft

def of (c : Costume) : Draft where
  animCount := .int c.settings.animCount
  formatByte := .int c.settings.formatByte
  paletteSize := .int c.settings.paletteSize
  mirrorWest := .bool c.settings.mirrorWest
  redirectable := .bool c.settings.redirectable
  commands := .ofInts c.commands
  animMap := .ofInts c.animMap
  anims := c.anims.map fun anim => anim.map SubanimationEntry.of
  limbMap := .ofInts c.limbMap
  limbs := c.limbs.map .ofInts
  picts := c.picts.map PictEntry.of
  palette := c.palette

def ofJson (j : Json) (sheet : Picture) : Except Fault Draft := do
  let settings ← j.field "Settings"
  let animCount ← settings.field "Anim count"
  let formatByte ← settings.field "Format byte"
  let paletteSize ← settings.field "Palette size"
  let mirrorWest ← settings.field "Mirror west anims"
  let redirectable ← settings.field "Allow redirectable picts"
  let commands ← j.field "Commands sequence"
  let animMap ← j.field "Animation index map"
  let anims ← (← (← j.field "Animations").items).mapM animationOfJson
  let limbMap ← j.field "Limb index map"
  let limbs ← (← j.field "Limbs").items
  let picts ← (← (← j.field "Picts").items).mapM fun p => PictEntry.ofJson p sheet
  let size ← paletteSize.integer
  let palette ← (List.range size.toNat).mapM fun (i : Nat) => sheet.get i 0
  return ⟨animCount, formatByte, paletteSize, mirrorWest, redirectable, commands, animMap, anims, limbMap, limbs, picts, palette⟩

def less : Json → Except Fault Json
  | .real x => .ok (.real x)
  | j => return .int ((← j.integer) - 1)

/-- The entries of the room's palette that a costume's colours are. A room of sixteen colours has none
that all rooms share. -/
def paletteMap (palette room : Palette) : Except Fault (List Json) :=
  palette.mapM fun colour => do
    return .int (← if room.length = 16 then room.index colour else room.sharedIndex colour : Nat)

def header (version : String) (length : Int) : List Int :=
  match version with
  | "4" => Word.toLE 4 length ++ [0x43, 0x4f]
  | "5" => [0x43, 0x4f, 0x53, 0x54] ++ Word.toBE 4 length
  | _ => []

def encode (d : Draft) (version : String) (room : Palette) : Except Fault (List Json) := do
  let (base, headerLength) := bases version
  let count ← less d.animCount
  let map ← paletteMap d.palette room
  let anims ← d.anims.mapM encodeAnimation
  let picts ← d.picts.mapM fun p => p.encode d.palette d.redirectable.truth
  let limbLengths : List Nat ← d.limbs.mapM fun l => return 2 * (← l.length)
  let animsStart := headerLength + 2 + (← d.paletteSize.integer) + 2 + 32 + (← d.animCount.integer) * 2
  let commandsStart := animsStart + anims.flatten.length
  let limbsStart := commandsStart + (← d.commands.length)
  let pictsStart := limbsStart + (limbLengths.foldr (· + ·) 0 : Nat)
  let pictLengths := picts.map List.length
  let limbs ← d.limbs.mapM fun l => do
    encodeOffsets pictLengths (pictsStart - base) (← l.items) false
  let limbTable ← encodeOffsets (limbs.map List.length) (limbsStart - base) (← d.limbMap.items) true
  let animTable ← encodeOffsets (anims.map List.length) (animsStart - base) (← d.animMap.items) false
  let ints (xs : List Int) : List Json := xs.map .int
  return ints (header version (pictsStart + picts.flatten.length)) ++ [count, d.formatByte] ++ map
    ++ ints (Word.toLE 2 (commandsStart - base)) ++ ints limbTable ++ ints animTable
    ++ anims.flatten ++ (← d.commands.items) ++ ints limbs.flatten ++ picts.flatten

end Draft

end Costume

end ScummKit
