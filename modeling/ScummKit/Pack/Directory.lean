import ScummKit.Pack.Load
import ScummKit.Pack.Write

/-!
# Index files

The index of a game lists rooms, resources and objects. What can be found out from the resource files is
made anew when a game is packed; the rest is kept in XML files.
-/

namespace ScummKit.Pack

open Xml (Element)

structure ObjectState where
  owner : Int
  state : Int
  classes : Int
  deriving Repr, DecidableEq, Inhabited

structure ArraySpec where
  number : Int
  a : Int
  b : Int
  c : Int
  deriving Repr, DecidableEq, Inhabited

inductive IndexBlock where
  | roomNames (name : String) (names : List (Int × String))
  | rooms (name : String)
  | directory (name : String)
  | objects (name : String) (states : List ObjectState)
  | maximums (name : String) (values : List Int)
  | arrays (name : String) (arrays : List ArraySpec)
  | other (label : Label) (data : List UInt8)
  deriving Repr, DecidableEq, Inhabited

def IndexBlock.name : IndexBlock → String
  | .roomNames n _ => n
  | .rooms n => n
  | .directory n => n
  | .objects n _ => n
  | .maximums n _ => n
  | .arrays n _ => n
  | .other label _ => label.name

def listedKind : String → Option String
  | "0S" => some "SC"
  | "0N" => some "SO"
  | "0C" => some "CO"
  | "DSCR" => some "SCRP"
  | "DSOU" => some "SOUN"
  | "DCOS" => some "COST"
  | "DCHR" => some "CHAR"
  | _ => none

def classWidth (f : Format) : Nat := if f.isOld then 3 else 4

def roomNameLength : Nat := 9

/-- A room's name as it is stored: every bit is turned round. -/
def roomNameBytes (name : String) : List UInt8 :=
  let bytes := Text.toBytes name
  Cipher.bytes (some 0xFF) ((bytes ++ List.replicate (roomNameLength - bytes.length) 0).take roomNameLength)

def roomNameOf (stored : List UInt8) : String :=
  Text.ofBytes ((Cipher.bytes (some 0xFF) stored).reverse.dropWhile (· = 0)).reverse

namespace Job

/-! ### Reading -/

def readRoomNames : Nat → Int → Job (List (Int × String))
  | 0, _ => throw .endless
  | fuel + 1, stop => do
    if stop ≤ (← tell) then return []
    let room ← number 1
    if room = 0 then return []
    let name := roomNameOf (← take roomNameLength)
    return (room, name) :: (← readRoomNames fuel stop)

def times (row : Job α) : Nat → Job (List α)
  | 0 => return []
  | n + 1 => do
    let x ← row
    return x :: (← times row n)

def noteRows (table : String) : Nat → List (Int × Int) → Job Unit
  | _, [] => return
  | i, (room, offset) :: rest => do
    note table (.place room offset) i
    noteRows table (i + 1) rest

def readDirectory (f : Format) (table : String) : Job Unit := do
  let count := (← number 2).toNat
  if f.isOld then
    let rows ← times (do
      let room ← number 1
      return (room, ← number 4)) count
    noteRows table 0 rows
  else
    let rooms ← times (number 1) count
    let offsets ← times (number 4) count
    noteRows table 0 (rooms.zip offsets)

def splitOwner (b : Int) : Int × Int := (b / 16, b % 16)

def readObjectStates (f : Format) : Job (List ObjectState) := do
  let count := (← number 2).toNat
  if f.isOld then
    times (do
      let classes ← number (classWidth f)
      let (owner, state) := splitOwner (← number 1)
      return ⟨owner, state, classes⟩) count
  else
    let owners ← times (do return splitOwner (← number 1)) count
    let classes ← times (number (classWidth f)) count
    return (owners.zip classes).map fun e => ⟨e.1.1, e.1.2, e.2⟩

def readArrays : Nat → Job (List ArraySpec)
  | 0 => throw .endless
  | fuel + 1 => do
    let n ← number 2
    if n = 0 then return []
    let a ← number 2
    let b ← number 2
    let c ← number 2
    return ⟨n, a, b, c⟩ :: (← readArrays fuel)

def readIndexBody (f : Format) (name : String) (start : Int) : Job IndexBlock := do
  let label ← readLabel
  match name with
  | "RN" | "RNAM" => return .roomNames name (← readRoomNames (← steps) (start + label.size))
  | "0R" => do
    discard (times (do
      let _ ← number 1
      number 4) (← number 2).toNat)
    return .rooms name
  | "DROO" => do
    skip (label.size - 8)
    return .rooms name
  | "0O" | "DOBJ" => return .objects name (← readObjectStates f)
  | "MAXS" => return .maximums name (← record (Sheet.maximums f).fields)
  | "AARY" => return .arrays name (← readArrays (← steps))
  | _ =>
    match listedKind name with
    | some table => do
      readDirectory f table
      return .directory name
    | none => return .other label (← readRest start label)

def indexNames (f : Format) : List String :=
  if f.isOld then ["RN", "0R", "0S", "0N", "0C", "0O"]
  else ["RNAM", "MAXS", "DROO", "DSCR", "DSOU", "DCOS", "DCHR", "DOBJ"] ++ if f = .six then ["AARY"] else []

/-- The name of the block at the position; the position goes back as far as for a whole name. -/
def nextName : Job String := do
  if (← format).isOld then
    skip 4
    let name ← take 2
    skip (-2)
    skip (-4)
    return Text.ofBytes name
  else
    let name ← take 4
    skip (-4)
    return Text.ofBytes name

def readIndexBlock : Job IndexBlock := do
  let s ← get
  let f := s.format
  let name ← nextName
  let start ← tell
  if name = "0R" ∨ name = "DROO" then
    if (Table.find? s.game Game.roomSlots).isNone then throw (.missingKey s.game)
  if (indexNames f).contains name then readIndexBody f name start
  else
    let label ← readLabel
    return .other label (← readRest start label)

def readIndexBlocks : Nat → Job (List IndexBlock)
  | 0 => throw .endless
  | fuel + 1 => do
    let r := (← get).resource
    if r.data.length ≤ r.pos then return []
    let b ← readIndexBlock
    return b :: (← readIndexBlocks fuel)

def readIndex (path : String) : Job (List IndexBlock) := do
  openFile path (← format).indexKey
  readIndexBlocks (← steps)

/-! ### Unpacking -/

def indexXml (f : Format) : IndexBlock → Option (String × Element)
  | .roomNames _ names =>
    some ("roomnames.xml", .node "room_names" (names.map fun e =>
      .node "room" [decimalChild "id" e.1, .leaf "name" (Spelling.escape e.2)]))
  | .objects _ states =>
    some ("dobj.xml", .node "object-directory" (states.zipIdx.map fun (o, i) =>
      .node "object-entry" [decimalChild "id" (i + 1), decimalChild "owner" o.owner,
        decimalChild "state" o.state, hexChild "class-data" o.classes]))
  | .maximums _ values => some ("maxs.xml", (Sheet.maximums f).toXml values)
  | .arrays _ arrays =>
    some ("aary.xml", .node "arrays" (arrays.map fun a =>
      .node "array-entry" [decimalChild "num" a.number, decimalChild "a" a.a, decimalChild "b" a.b, decimalChild "c" a.c]))
  | _ => none

def saveIndexBlock (path : String) (b : IndexBlock) : Job Unit := do
  log .debug ("Saving index " ++ b.name ++ " to file: " ++ path)
  match b with
  | .other label data => saveLeaf label (.plain data) path
  | b =>
    match indexXml (← format) b with
    | some (name, root) => storeXml (Path.append path name) root
    | none => return

/-! ### Loading -/

def roomNamesIn (root : Element) : Except Fault (List (Int × String)) :=
  (root.children.filter (·.tag = "room")).mapM fun e => do
    let room ← numberIn e "id"
    return (room, ← objectName e)

def plainNumberIn (e : Element) (tag : String) : Except Fault Int := do
  match (← e.find tag).text with
  | some s => Numeral.read 10 s
  | none => .error .wrongKind

def objectStatesIn (root : Element) : Except Fault (List ObjectState) :=
  (root.all "object-entry").mapM fun e => do
    let _ ← plainNumberIn e "id"
    let owner ← numberIn e "owner"
    let state ← numberIn e "state"
    return ⟨owner, state, ← numberIn e "class-data"⟩

def arraysIn (root : Element) : Except Fault (List ArraySpec) :=
  (root.all "array-entry").mapM fun e => do
    let n ← numberIn e "num"
    let a ← numberIn e "a"
    let b ← numberIn e "b"
    return ⟨n, a, b, ← numberIn e "c"⟩

def loadXml (path name : String) (read : Element → Except Fault α) : Job α := do
  ofExcept (read (← xml (Path.append path name)))

def roomsBlock (name : String) : Job IndexBlock := do
  let s ← get
  if (Table.find? s.game Game.roomSlots).isNone then throw (.missingKey s.game)
  return .rooms name

def loadIndex (path : String) : Job (List IndexBlock) := do
  let f ← format
  if f.isOld then
    let rooms ← roomsBlock "0R"
    let states ← loadXml path "dobj.xml" objectStatesIn
    return [rooms, .directory "0S", .directory "0N", .directory "0C", .objects "0O" states]
  else
    let names ← loadXml path "roomnames.xml" roomNamesIn
    let values ← loadXml path "maxs.xml" (Sheet.maximums f).ofXml
    let rooms ← roomsBlock "DROO"
    let states ← loadXml path "dobj.xml" objectStatesIn
    let blocks := [.roomNames "RNAM" names, .maximums "MAXS" values, rooms, .directory "DSCR",
      .directory "DSOU", .directory "DCOS", .directory "DCHR", .objects "DOBJ" states]
    if f = .six then
      let arrays ← loadXml path "aary.xml" arraysIn
      return blocks ++ [.arrays "AARY" arrays]
    else return blocks

/-! ### Writing -/

/-- The rows of a directory: the place of the resource with each number below a count, if any. -/
def directoryRows (rows : List (Key × Int)) (count : Nat) : List (Int × Int) :=
  let byNumber := (rows.mergeSort fun a b => a.2 ≤ b.2).foldl (fun t e => Table.put e.2 e.1 t) ([] : List (Int × Key))
  (List.range count).map fun (i : Nat) =>
    match Table.find? (i : Int) byNumber with
    | some (.tuple [room, offset]) => (room, offset)
    | _ => (0, 0)

def leastEntries (game : String) : Job (List (String × Int)) := do
  match Table.find? game Game.leastEntries with
  | some t => return t
  | none => throw (.missingKey game)

/-- The number of entries of a directory: the greatest number of a resource, but no fewer than the game
expects. -/
def directoryCount (name : String) (rows : List (Key × Int)) : Job Int := do
  let least := Table.find? name (← leastEntries (← get).game)
  match rows.map (·.2) with
  | [] =>
    match least with
    | some n => return n
    | none => throw (.missingKey name)
  | i :: rest => return max (rest.foldl max i) (least.getD (rest.foldl max i))

def writeDirectory (name : String) : Job Unit := do
  let s ← get
  let f := s.format
  let rows ← ofExcept (s.tables.rows ((listedKind name).getD name))
  if rows.isEmpty then
    log .info ("No indexes found for block type \"" ++ name ++ "\" - are there any files of this block type?")
  let count ← directoryCount name rows
  writeLabel ⟨name, 5 * count + 2 + f.headerLength⟩
  emit (le 2 count)
  let places := directoryRows rows count.toNat
  if f.isOld then emit (places.flatMap fun e => le 1 e.1 ++ le 4 e.2)
  else
    emit (places.flatMap fun e => le 1 e.1)
    emit (places.flatMap fun e => le 4 e.2)

def diskOf (room : Nat) : Job Int := do
  return (← find? (find (← format).diskName (.number room))).getD 0

/-- Writes the table of rooms. Only old formats use it; others get a table that says nothing. -/
def writeRooms (name : String) : Job Unit := do
  let s ← get
  let f := s.format
  let slots ← match Table.find? s.game Game.roomSlots with
    | some n => pure n
    | none => throw (.missingKey s.game)
  writeLabel ⟨name, 5 * slots + 2 + f.headerLength⟩
  emit (le 2 slots)
  if f.isOld then
    (List.range slots.toNat).forM fun room => do
      emit (le 1 (← diskOf room) ++ le 4 0)
  else
    emit (List.replicate slots.toNat 1)
    emit (List.replicate (4 * slots.toNat) 0)

def joinOwner (o : ObjectState) : Int := o.owner % 16 * 16 + o.state % 16

def writeIndexBlock (b : IndexBlock) : Job Unit := do
  let f ← format
  log .debug ("Saving index: " ++ b.name)
  match b with
  | .roomNames name names => do
    writeLabel ⟨name, 10 * names.length + 1 + f.headerLength⟩
    emit (names.flatMap fun e => le 1 e.1 ++ roomNameBytes e.2)
    emit [0]
  | .rooms name => writeRooms name
  | .directory name => writeDirectory name
  | .objects name states => do
    writeLabel ⟨name, (1 + classWidth f) * states.length + 2 + f.headerLength⟩
    emit (le 2 states.length)
    if f.isOld then
      emit (states.flatMap fun o => le (classWidth f) o.classes ++ le 1 (joinOwner o))
    else
      emit (states.flatMap fun o => le 1 (joinOwner o))
      emit (states.flatMap fun o => le (classWidth f) o.classes)
  | .maximums name values => do
    let s := Sheet.maximums f
    writeLabel ⟨name, s.width + f.headerLength⟩
    emit (← ofExcept (s.pack values))
  | .arrays name arrays => do
    writeLabel ⟨name, arrays.length * 8 + 2 + f.headerLength⟩
    emit (arrays.flatMap fun a => le 2 a.number ++ le 2 a.a ++ le 2 a.b ++ le 2 a.c)
    emit (le 2 0)
  | .other label data => do
    writeLabel label
    emit data

def writeIndex (blocks : List IndexBlock) : Job Unit := blocks.forM writeIndexBlock

end Job

end ScummKit.Pack
