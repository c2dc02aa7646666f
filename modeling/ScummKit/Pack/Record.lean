import ScummKit.Pack.Field
import ScummKit.Pack.Game
import ScummKit.Xml.Basic

/-!
# Records

The numbers at the head of a room and of an object: in a game file a row of fields, in an unpacked game
an XML element with a child for each number.
-/

namespace ScummKit.Pack

open Xml (Element)

def numberIn (e : Element) (tag : String) : Except Fault Int := do
  match (← e.find tag).text with
  | some s => Spelling.number s
  | none => .error .absent

def decimalChild (tag : String) (n : Int) : Element := .leaf tag (Spelling.decimal n)

def hexChild (tag : String) (n : Int) : Element := .leaf tag (Spelling.hex n)

/-! ### Sheets -/

structure Sheet where
  root : String
  tags : List String
  deriving Repr, DecidableEq, Inhabited

namespace Sheet

def room : Sheet := ⟨"room", ["width", "height", "num_objects"]⟩

def roomImage : Sheet := ⟨"room_image", ["num_zbuffers"]⟩

def maximums (f : Format) : Sheet :=
  ⟨"maximums", if f = .six then
      ["variables", "unknown_1", "bit_variables", "local_objects", "arrays", "unknown_2", "verbs",
       "floating_objects", "inventory_objects", "rooms", "scripts", "sounds", "character_sets",
       "costumes", "global_objects"]
    else
      ["variables", "unknown_1", "bit_variables", "local_objects", "unknown_2", "character_sets",
       "unknown_3", "unknown_4", "inventory_objects"]⟩

def fields (s : Sheet) : List Field := s.tags.map fun _ => .word

def width (s : Sheet) : Nat := 2 * s.tags.length

def pack (s : Sheet) (values : List Int) : Except Fault (List UInt8) := packFields (s.fields.zip values)

def toXml (s : Sheet) (values : List Int) : Element :=
  .node s.root ((s.tags.zip values).map fun e => decimalChild e.1 e.2)

def ofXml (s : Sheet) (e : Element) : Except Fault (List Int) := s.tags.mapM (numberIn e)

end Sheet

/-! ### Objects -/

structure ImageHeader where
  id : Int
  images : Int
  planes : Int
  flags : Int
  unknown : Int
  x : Int
  y : Int
  width : Int
  height : Int
  hotspots : List (Int × Int)
  deriving Repr, DecidableEq, Inhabited

namespace ImageHeader

def fields (f : Format) : List Field :=
  [.word, .word, .word, .byte, .byte, .word, .word, .word, .word] ++ if f = .six then [.word] else []

def ofNumbers : List Int → ImageHeader
  | id :: images :: planes :: flags :: unknown :: x :: y :: width :: height :: _ =>
    ⟨id, images, planes, flags, unknown, x, y, width, height, []⟩
  | _ => default

def numbers (f : Format) (h : ImageHeader) : List Int :=
  [h.id, h.images, h.planes, h.flags, h.unknown, h.x, h.y, h.width, h.height]
    ++ if f = .six then [(h.hotspots.length : Int)] else []

def byteCount (f : Format) (h : ImageHeader) : Int := widthOf (fields f) + 4 * h.hotspots.length

def toXml (f : Format) (h : ImageHeader) : Element :=
  .node "image" ([decimalChild "x" h.x, decimalChild "y" h.y, decimalChild "width" h.width,
      decimalChild "height" h.height, hexChild "flags" h.flags, hexChild "unknown" h.unknown,
      decimalChild "num_images" h.images, decimalChild "num_zplanes" h.planes]
      ++ if f = .six then
        [.node "hotspots" (h.hotspots.map fun s =>
          .node "hotspot" [decimalChild "x" s.1, decimalChild "y" s.2])]
      else [])

def hotspotsIn (e : Element) : Except Fault (List (Int × Int)) := do
  let spots := (← e.find "hotspots").children.filter (·.tag = "hotspot")
  spots.mapM fun s => do return (← numberIn s "x", ← numberIn s "y")

def ofXml (f : Format) (object : Element) : Except Fault ImageHeader := do
  let id ← numberIn object "id"
  let e ← object.find "image"
  let x ← numberIn e "x"
  let y ← numberIn e "y"
  let width ← numberIn e "width"
  let height ← numberIn e "height"
  let flags ← numberIn e "flags"
  let unknown ← numberIn e "unknown"
  let images ← numberIn e "num_images"
  let planes ← numberIn e "num_zplanes"
  let hotspots ← if f = .six then hotspotsIn e else pure []
  return { id, images, planes, flags, unknown, x, y, width, height, hotspots }

end ImageHeader

structure CodeHeader where
  id : Int
  x : Int
  y : Int
  width : Int
  height : Int
  flags : Int
  parent : Int
  walkX : Int
  walkY : Int
  facing : Int
  deriving Repr, DecidableEq, Inhabited

namespace CodeHeader

def fields (f : Format) : List Field :=
  let small : Field := if f = .six then .word else .byte
  [.word, small, small, small, small, .byte, .byte, .signed, .signed, .byte]

def ofNumbers : List Int → CodeHeader
  | [id, x, y, width, height, flags, parent, walkX, walkY, facing] =>
    ⟨id, x, y, width, height, flags, parent, walkX, walkY, facing⟩
  | _ => default

def numbers (h : CodeHeader) : List Int :=
  [h.id, h.x, h.y, h.width, h.height, h.flags, h.parent, h.walkX, h.walkY, h.facing]

def toXml (h : CodeHeader) : Element :=
  .node "code" [decimalChild "x" h.x, decimalChild "y" h.y, decimalChild "width" h.width,
     decimalChild "height" h.height, hexChild "flags" h.flags, decimalChild "parent" h.parent,
     decimalChild "walk_x" h.walkX, decimalChild "walk_y" h.walkY,
     decimalChild "actor_dir" h.facing]

def ofXml (object : Element) : Except Fault CodeHeader := do
  let id ← numberIn object "id"
  let e ← object.find "code"
  let x ← numberIn e "x"
  let y ← numberIn e "y"
  let width ← numberIn e "width"
  let height ← numberIn e "height"
  let flags ← numberIn e "flags"
  let parent ← numberIn e "parent"
  let walkX ← numberIn e "walk_x"
  let walkY ← numberIn e "walk_y"
  let facing ← numberIn e "actor_dir"
  return { id, x, y, width, height, flags, parent, walkX, walkY, facing }

end CodeHeader

def objectName (object : Element) : Except Fault String := do
  match (← object.find "name").text with
  | some s => Spelling.unescape s
  | none => return ""

structure ObjectScript where
  id : Int
  unknown : Int
  x : Int
  y : Int
  parentState : Int
  width : Int
  parent : Int
  walkX : Int
  walkY : Int
  height : Int
  facing : Int
  events : List UInt8
  name : String
  script : List UInt8
  deriving Repr, DecidableEq, Inhabited

namespace ObjectScript

def fields : List Field := [.word, .byte, .byte, .byte, .byte, .byte, .signed, .signed, .byte, .byte]

def storedEvents (o : ObjectScript) : List UInt8 := if o.events.isEmpty then [0] else o.events

def eventsAt : Nat := 6 + 13

/-- The numbers of the fields. Two fields hold two numbers each. -/
def numbers (o : ObjectScript) : List Int :=
  [o.id, o.unknown, o.x, o.parentState / 0x80 % 2 * 0x80 + o.y % 0x80, o.width, o.parent, o.walkX,
   o.walkY, o.height % 0x100 / 8 * 8 + o.facing % 8, eventsAt + o.storedEvents.length]

def ofNumbers : List Int → ObjectScript
  | [id, unknown, x, yState, width, parent, walkX, walkY, heightFacing, _] =>
    { id, unknown, x, width, parent, walkX, walkY
      y := yState % 0x80
      parentState := yState / 0x80 * 0x80
      height := heightFacing / 8 * 8
      facing := heightFacing % 8
      events := [], name := "", script := [] }
  | _ => default

def tail (o : ObjectScript) : List UInt8 := o.storedEvents ++ (Text.toBytes o.name ++ [0]) ++ o.script

/-- The size of the block, counted before an empty table of events is filled. -/
def size (o : ObjectScript) : Int := eventsAt + o.events.length + o.name.length + 1 + o.script.length

def toXml (o : ObjectScript) : Element :=
  .node "code" [decimalChild "x" o.x, decimalChild "y" o.y, decimalChild "width" o.width,
     decimalChild "height" o.height, hexChild "unknown" o.unknown,
     hexChild "parent_state" o.parentState, hexChild "parent" o.parent,
     decimalChild "walk_x" o.walkX, decimalChild "walk_y" o.walkY,
     decimalChild "actor_dir" o.facing]

def ofXml (object : Element) : Except Fault ObjectScript := do
  let id ← numberIn object "id"
  let name ← objectName object
  let e ← object.find "code"
  let x ← numberIn e "x"
  let y ← numberIn e "y"
  let width ← numberIn e "width"
  let height ← numberIn e "height"
  let unknown ← numberIn e "unknown"
  let parentState ← numberIn e "parent_state"
  let parent ← numberIn e "parent"
  let walkX ← numberIn e "walk_x"
  let walkY ← numberIn e "walk_y"
  let facing ← numberIn e "actor_dir"
  return { id, unknown, x, y, parentState, width, parent, walkX, walkY, height, facing, name
           events := [], script := [] }

end ObjectScript

end ScummKit.Pack
