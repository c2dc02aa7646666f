import ScummKit.Bits
import ScummKit.Take

/-!
# Walk boxes

A box has four corners, flags, and a scale that is fixed or taken from a table. A table of matrices says
through which box a way leads. What is written back comes from a document that can hold anything, so the
writers work on documents.
-/

namespace ScummKit

structure Box.Flags where
  mirrorX : Bool
  mirrorY : Bool
  ignoreScale : Bool
  locked : Bool
  invisible : Bool
  unknown0 : Bool
  unknown1 : Bool
  unknown2 : Bool
  deriving Repr, DecidableEq, Inhabited

inductive Box.Scale where
  | dynamic (row : Int)
  | fixed (factor : Int)
  deriving Repr, DecidableEq, Inhabited

structure Box where
  index : Nat
  vertices : List (Int × Int)
  zplane : Int
  flags : Box.Flags
  scale : Box.Scale
  deriving Repr, DecidableEq, Inhabited

namespace Box

/-! ### Reading -/

def Flags.ofByte (b : Int) : Flags where
  mirrorX := Bits.test b 3
  mirrorY := Bits.test b 4
  ignoreScale := Bits.test b 5
  locked := Bits.test b 6
  invisible := Bits.test b 7
  unknown0 := Bits.test b 0
  unknown1 := Bits.test b 1
  unknown2 := Bits.test b 2

def Scale.ofWord (w : Int) : Scale := if Bits.test w 15 then .dynamic (w % 0x8000) else .fixed w

def takeVertex : Take (Int × Int) := do
  let x ← Take.signed
  return (x, ← Take.signed)

def take (index : Nat) : Take Box := do
  let vertices ← Take.count (fun _ => takeVertex) 0 4
  let zplane ← Take.item
  let flags ← Take.item
  let scale ← Take.word
  return ⟨index, vertices, zplane, Flags.ofByte flags, Scale.ofWord scale⟩

def takeCount : String → Take Int
  | "4" => Take.item
  | "5" => Take.word
  | _ => return 0

def takeAll (version : String) : Take (List Box) := do
  let n ← takeCount version
  Take.count take 0 n.toNat

def decode (version : String) (data : List Int) : Except Fault (List Box) := return (← (takeAll version).run data).1

def Flags.toJson (f : Flags) : Json :=
  .record [("mirror_x", .bool f.mirrorX), ("mirror_y", .bool f.mirrorY),
    ("ignore_scale", .bool f.ignoreScale), ("locked", .bool f.locked),
    ("invisible", .bool f.invisible), ("unk_0", .bool f.unknown0), ("unk_1", .bool f.unknown1),
    ("unk_2", .bool f.unknown2)]

def Scale.toJson : Scale → Json
  | .dynamic row => .record [("type", .text "dynamic"), ("table_index", .int row)]
  | .fixed factor => .record [("type", .text "fixed"), ("factor", .int factor)]

def toJson (b : Box) : Json :=
  .record [("index", .int b.index), ("vertices", .list (b.vertices.map fun v => .list [.int v.1, .int v.2])),
    ("zplane_enabled", .int b.zplane), ("flags", b.flags.toJson), ("scale", b.scale.toJson)]

/-! ### Writing -/

def wordOf (v : Json) : Except Fault (List Json) := do
  return (Word.toLE 2 (← v.integer)).map .int

def vertexBytes (v : Json) : Except Fault (List Json) := do
  let x ← (← v.item 0).integer
  let xs := Word.toLE 2 (Word.signedEncode x)
  let y ← (← v.item 1).integer
  return (xs ++ Word.toLE 2 (Word.signedEncode y)).map .int

def flagBits : List (String × Nat) :=
  [("unk_0", 0x01), ("unk_1", 0x02), ("unk_2", 0x04), ("mirror_x", 0x08), ("mirror_y", 0x10),
   ("ignore_scale", 0x20), ("locked", 0x40), ("invisible", 0x80)]

def flagByte (box : Json) : Except Fault Nat :=
  flagBits.foldlM (fun byte (name, bit) => do
    return if (← (← box.field "flags").field name).truth then byte ||| bit else byte) 0

def scaleWord (box : Json) : Except Fault (List Json) := do
  let scale ← box.field "scale"
  let kind ← scale.field "type"
  if kind.isText "fixed" then wordOf (← scale.field "factor")
  else if kind.isText "dynamic" then
    let row ← (← scale.field "table_index").integer
    wordOf (.int (Bits.or row 0x8000))
  else wordOf (.int 0)

def boxBytes (box : Json) : Except Fault (List Json) := do
  let vertices ← (← box.field "vertices").items
  let corners ← vertices.mapM vertexBytes
  let zplane ← box.field "zplane_enabled"
  let flags ← flagByte box
  let scale ← scaleWord box
  return corners.flatten ++ [zplane, .int flags] ++ scale

def countBytes (version : String) (n : Nat) : List Json :=
  match version with
  | "4" => [.int n]
  | "5" => (Word.toLE 2 n).map .int
  | _ => []

def encode (version : String) (boxes : Json) : Except Fault (List Json) := do
  let n ← boxes.length
  let bodies ← (← boxes.items).mapM boxBytes
  return countBytes version n ++ bodies.flatten

end Box

/-! ### Matrices -/

/-- A row of a matrix: from any box in a range the way leads through a box. -/
structure Box.Way where
  first : Int
  last : Int
  through : Int
  deriving Repr, DecidableEq, Inhabited

namespace Box

def takeTable : List Int → Except Fault (List Way × List Int)
  | [] => .error .outOfRange
  | a :: rest =>
    if a = 0xff then .ok ([], rest)
    else match rest with
      | b :: c :: rest => do
        let (ways, rest) ← takeTable rest
        return (⟨a, b, c⟩ :: ways, rest)
      | _ => .error .outOfRange

/-- The matrices in some data: one table after the other as long as more than one byte is left. The
fuel is the number of bytes. -/
def takeTables : Nat → List Int → Except Fault (List (List Way))
  | 0, _ => .ok []
  | fuel + 1, data =>
    if data.length ≤ 1 then .ok []
    else do
      let (table, rest) ← takeTable data
      return table :: (← takeTables fuel rest)

def decodeMatrices (data : List Int) : Except Fault (List (List Way)) := takeTables data.length data

def Way.toJson (w : Way) : Json :=
  .record [("range_start", .int w.first), ("range_end", .int w.last), ("goto", .int w.through)]

def matricesToJson (tables : List (List Way)) : Json :=
  .list (tables.zipIdx.map fun (table, i) =>
    .record [("index", .int i), ("table", .list (table.map Way.toJson))])

def wayBytes (entry : Json) : Except Fault (List Json) := do
  let first ← entry.field "range_start"
  let last ← entry.field "range_end"
  return [first, last, ← entry.field "goto"]

def tableBytes (matrix : Json) : Except Fault (List Json) := do
  let rows ← (← (← matrix.field "table").items).mapM wayBytes
  return rows.flatten ++ [.int 0xff]

def encodeMatrices (matrices : Json) : Except Fault (List Json) := do
  return (← (← matrices.items).mapM tableBytes).flatten

/-- Boxes and matrices of a file that holds both. A box takes twenty bytes, and their number stands
behind a header of six. -/
def separate (file : List Int) : Except Fault (List Int × List Int) := do
  let count ← Position.look file 6
  let stop := 7 + 20 * count
  return (Position.cut file 6 stop, Position.onward file stop)

end Box

end ScummKit
