import ScummKit.Pack.Form
import ScummKit.Pack.Job

/-!
# Reading blocks

The name of the next block says what its form is; a group is read block by block up to the end that its
size gives.
-/

namespace ScummKit.Pack

structure Contents where
  children : List Block
  members : List Block
  between : List Block
  scripts : List Block
  deriving Inhabited

structure Holder where
  form : Form
  name : String
  ranking : Ranking
  deriving Inhabited

namespace Job

/-! ### Heads -/

def readLabel : Job Label := do
  if (← format).isOld then
    let size ← take 4
    let name ← take 2
    return ⟨Text.ofBytes name, ofLE size⟩
  else
    let name ← take 4
    let size ← take 4
    return ⟨Text.ofBytes name, ofBE size⟩

def readSoundLabel : Job Label := do
  let label ← readLabel
  return { label with size := label.size + 8 }

/-- Sounds whose stored size is wrong: the game, where the size stands, and the stored size. -/
def misstated : List (String × Int × Int) := [("MI1EGA", 0xA0B2, 0x8215), ("MI1VGA", 0x10DCE, 0x8215)]

def readSongLabel : Job Label := do
  let location ← tell
  let size : Int := ofLE (← take 4)
  let game := (← get).game
  let wrong := misstated.contains (game, location, size)
  if wrong then log .debug s!"dodgy SO offset found: {game}, {location}, {size}"
  let name ← take 2
  return ⟨Text.ofBytes name, if wrong then size + 256 else size⟩

/-- The form of the block at the position. The position goes back by as much as a whole name takes,
also where the file ends within it. -/
def nextForm : Job Form := do
  let f ← format
  if f.isOld then
    skip 4
    let name ← take 2
    skip (-2)
    skip (-4)
    return .ofName f (Text.ofBytes name)
  else
    let name ← take 4
    skip (-4)
    return .ofName f (Text.ofBytes name)

def readRest (start : Int) (label : Label) : Job (List UInt8) := do
  takeAll (label.size - ((← tell) - start))

def skipBlock : Job Unit := do
  let start ← tell
  let label ← readLabel
  log .warning s!"Skipping block \"{label.name}\" at offset {start}"
  seek (start + label.size)

/-! ### Numbers of resources -/

def lookUp (table : String) (location room : Int) : Job Int := do
  let number ← roomAt room
  let offset ← roomStart number
  find table (.place number (location - offset))

def reportUnlisted (name : String) (location : Int) : Job Unit :=
  log .error (s!"Block \"{name}\" at offset {location} has no entry in the index file (.000). "
    ++ "It can not be re-packed or used in the game.")

def unlistedEntry (name table : String) (location room : Int) : Job Entry := do
  let number ← roomAt room
  log .debug s!"Unknown block at room num: {number}"
  let offset ← roomStart number
  log .debug s!"Unknown block at room offset: {location - offset}"
  reportUnlisted name location
  return ⟨some (← nextUnknown table), true⟩

def findEntry (name table : String) (location room : Int) : Job Entry := do
  match ← find? (lookUp table location room) with
  | some i => return ⟨some i, false⟩
  | none =>
    log .debug ("name: " ++ name)
    unlistedEntry name table location room

/-- The number of a sound that may stand inside another, and then has none. -/
def findSongEntry (name : String) (location room : Int) : Job Entry := do
  match ← find? (lookUp name location room) with
  | some i => return ⟨some i, false⟩
  | none =>
    log .debug ("name: " ++ name)
    let f ← format
    let outer ← if f = .three then find? (lookUp name (location - f.headerLength) room)
      else pure none
    match outer with
    | some _ => return ⟨none, false⟩
    | none => unlistedEntry name name location room

def findVolume (name : String) (location : Int) : Job Int := do
  match ← attempt (find name (.place (← get).disk location)) with
  | .ok number => return number
  | .error f =>
    match f with
    | .unlisted _ => reportUnlisted name location
    | _ => pure ()
    throw f

/-! ### Blocks without others -/

def terminated : List UInt8 → Option (List UInt8 × List UInt8)
  | [] => none
  | b :: rest => if b = 0 then some ([], rest) else (terminated rest).map fun r => (b :: r.1, r.2)

/-- The bytes up to a zero, which is passed over. Without one the search has no end. -/
def takeTerminated : Job (List UInt8) := do
  match terminated (← get).resource.rest with
  | none => throw .endless
  | some (bs, _) =>
    skip (bs.length + 1)
    return bs

def readHotspots : Nat → Job (List (Int × Int))
  | 0 => return []
  | n + 1 => do
    match ← record [.word, .word] with
    | [x, y] => return (x, y) :: (← readHotspots n)
    | _ => throw .badLayout

def readImageHeader (f : Format) : Job ImageHeader := do
  let numbers ← record (ImageHeader.fields f)
  let hotspots ← if f = .six then readHotspots (numbers.getLastD 0).toNat else pure []
  return { ImageHeader.ofNumbers numbers with hotspots }

def readObjectScript (start : Int) (label : Label) : Job ObjectScript := do
  let numbers ← record ObjectScript.fields
  let events ← takeAll (start + numbers.getLastD 0 - (← tell))
  let name ← takeTerminated
  let script ← readRest start label
  return { ObjectScript.ofNumbers numbers with events, script, name := Text.ofBytes name }

def readObject (f : Format) : Job Body := do
  let _ ← readLabel
  let header := CodeHeader.ofNumbers (← record (CodeHeader.fields f))
  let verbStart ← tell
  let verb ← readLabel
  let verbs ← readRest verbStart verb
  let nameStart ← tell
  let nameLabel ← readLabel
  let count := nameLabel.size - ((← tell) - nameStart)
  let name ← if count < 0 then take (← get).resource.rest.length else take count.toNat
  return .object header verb verbs (Text.ofBytes name.dropLast)

def readOffsets (f : Format) : Nat → Job Unit
  | 0 => return ()
  | n + 1 => do
    let room ← number 1
    let offset ← number 4
    let (volume, start) := if f.isOld then (offset, offset + 2 + f.headerLength)
      else (offset - f.headerLength, offset)
    note f.volumeName (.place (← get).disk volume) room
    note f.roomName (.number room) start
    readOffsets f n

def readLeaf (form : Form) (room : Int) : Job Block := do
  let f ← format
  let start ← tell
  match form with
  | .resource =>
    let label ← readLabel
    let data ← readRest start label
    return .leaf label (.resource (← findEntry label.name label.name start room) data)
  | .nameless =>
    let label ← readLabel
    let data ← readRest start label
    return .leaf label (.nameless (← findEntry label.name "SO" start room) data)
  | .palette =>
    let label ← readLabel
    return .leaf label (.palette none (← readRest start label))
  | .localScript =>
    let label ← readLabel
    let id ← number 1
    return .leaf label (.localScript id (← readRest start label))
  | .sheet s =>
    let label ← readLabel
    return .leaf label (.sheet s (← record s.fields))
  | .image =>
    let label ← readLabel
    let id := (← record [.word]).headD 0
    return .leaf label (.image id (← readRest start label))
  | .code =>
    let label ← readLabel
    return .leaf label (.code (← readObjectScript start label))
  | .imageHeader =>
    let label ← readLabel
    return .leaf label (.imageHeader (← readImageHeader .five))
  | .object =>
    let label ← readLabel
    return .leaf label (← readObject f)
  | .offsets =>
    let label ← readLabel
    readOffsets f (← number 1).toNat
    return .leaf label .offsets
  | .midi =>
    let label ← readSoundLabel
    let head ← takeAll 16
    return .leaf label (.midi head (← readRest start label))
  | .voice =>
    let label ← readSoundLabel
    skip 19
    return .leaf label (.voice (← readRest start label))
  | .tune =>
    let label ← readSoundLabel
    return .leaf label (.tune (← readRest start label))
  | _ =>
    let label ← readLabel
    return .leaf label (.plain (← readRest start label))

/-! ### Groups -/

def addChild (name : String) (ranking : Ranking) (order : Order) (b : Block) (children : List Block) : Job (List Block) := do
  if (ranking.rank? b.name).isNone then
    log .error ("Oops! The container block '" ++ name ++ "' doesn't know how to order blocks of type '"
      ++ ranking.key b.name ++ "'! Get me a developer, STAT!")
  ofExcept (Block.insert ranking order b children)

def addPalette (h : Holder) (c : Contents) : Block → Job Contents
  | .leaf label (.palette _ data) => do
    let b := Block.leaf label (.palette (some (c.children.length + 1)) data)
    return { c with children := ← addChild h.name h.ranking [] b c.children }
  | b =>
    if b.name = "OFFS" then return c
    else throw (.packing ("Unexpected block \"" ++ b.name ++ "\" found in WRAP container (only expecting APAL or OFFS)."))

/-- Puts a block in a room: scripts and objects are kept apart, and the number of scripts is not
kept. -/
def addToRoom (f : Format) (h : Holder) (c : Contents) (b : Block) : Job Contents := do
  let scripts := Block.scriptNames f
  let objects := Block.objectNames f
  if [scripts.entry, scripts.leaving, scripts.other].contains b.name then
    return { c with scripts := c.scripts ++ [b] }
  else if [objects.1, objects.2].contains b.name then
    if b.objectOf?.isNone then throw .absent
    return { c with members := c.members ++ [b] }
  else if f.isOld ∧ ["NL", "SL"].contains b.name then
    return { c with between := c.between ++ [b] }
  else if b.name = (if f.isOld then "LC" else "NLSC") then return c
  else return { c with children := ← addChild h.name h.ranking [] b c.children }

def gather (h : Holder) (c : Contents) (b : Block) : Job Contents := do
  match h.form with
  | .palettes => addPalette h c b
  | .room => addToRoom (← format) h c b
  | _ => return { c with children := ← addChild h.name h.ranking [] b c.children }

def closeRoom (label : Label) (ranking : Ranking) (c : Contents) : Job Block := do
  let objects := Block.objects c.members c.between (c.members.filterMap Block.imageOf?)
    (c.members.filterMap fun b => b.codeOf?.map (·.1))
  let children ← addChild label.name ranking [] objects c.children
  let children ← addChild label.name ranking [] (.scripts c.scripts) children
  return .group label .room ranking [] children

mutual

def readBlock : Nat → Form → Int → Job Block
  | 0, _, _ => throw .endless
  | fuel + 1, form, room => do
    let f ← format
    let start ← tell
    match form with
    | .group ranking =>
      let label ← readLabel
      let c ← readUntil fuel ⟨form, label.name, ranking⟩ (start + label.size) room default
      return .group label .plain ranking [] c.children
    | .root =>
      let label ← readLabel
      let ranking : Ranking := if f.isOld then .four else .five
      let c ← readUntil fuel ⟨form, label.name, ranking⟩ (start + label.size) room default
      return .group label .root ranking [] c.children
    | .sounds =>
      let label ← readSoundLabel
      let c ← readUntil fuel ⟨form, label.name, f.ranking⟩ (start + label.size) room default
      return .group label .sounds f.ranking [] c.children
    | .palettes =>
      let label ← readLabel
      let c ← readUntil fuel ⟨form, label.name, f.ranking⟩ (start + label.size) room default
      return .group label .palettes f.ranking [] c.children
    | .volume =>
      let label ← readLabel
      if f.isOld then discard (take 2)
      let c ← readUntil fuel ⟨form, label.name, f.ranking⟩ (start + label.size) start default
      let number ← findVolume label.name start
      return .group label (.volume ⟨some number, false⟩) f.ranking [] c.children
    | .room =>
      let label ← readLabel
      let c ← readUntil fuel ⟨form, label.name, f.ranking⟩ (start + label.size) room default
      closeRoom label f.ranking c
    | .song =>
      let label ← readSongLabel
      let c ← readUntil fuel ⟨form, label.name, f.ranking⟩ (start + label.size) room default
      let entry ← findSongEntry label.name start room
      return .group label (.song entry) f.ranking [] c.children
    | .sound =>
      let label ← readLabel
      let inner ← number 4
      skip (-4)
      if inner = label.size - 8 then
        let data ← readRest start label
        let entry ← findEntry label.name label.name start room
        return .leaf label (.track entry (some data))
      else
        let c ← readUntil fuel ⟨form, label.name, f.ranking⟩ (start + label.size) 0 default
        let entry ← findEntry label.name label.name start room
        return .group label (.sound entry) f.ranking [] c.children
    | .picture =>
      let label ← readLabel
      let _ ← readLabel
      let header ← readImageHeader f
      let children ← readImages fuel label.name f.ranking header.images.toNat []
      return .group label (.picture header) f.ranking [] children
    | _ => readLeaf form room

def readUntil : Nat → Holder → Int → Int → Contents → Job Contents
  | 0, _, _, _, _ => throw .endless
  | fuel + 1, h, stop, room, c => do
    if stop ≤ (← tell) then return c
    let form ← nextForm
    if form = .room ∧ h.form = .volume ∧ (← format).isOld ∧ c.children.any Block.isRoom then
      skipBlock
      readUntil fuel h stop room c
    else
      let b ← readBlock fuel form room
      let c ← gather h c b
      readUntil fuel h stop room c

def readImages : Nat → String → Ranking → Nat → List Block → Job (List Block)
  | 0, _, _, _, _ => throw .endless
  | _ + 1, _, _, 0, children => return children
  | fuel + 1, name, ranking, n + 1, children => do
    let b ← readBlock fuel (.group ranking) 0
    let children ← addChild name ranking [] b children
    readImages fuel name ranking n children

end

def steps : Job Nat := do return 4 * (← get).resource.data.length + 100

def readRoot : Job Block := do readBlock (← steps) .root 0

def readRoomFile (path : String) : Job Block := do
  let name := (Path.splitEnding (Path.lastName path)).1
  let s ← get
  let number ← ofExcept (Numeral.read 10 name)
  note s.format.volumeName (.place s.disk 0) number
  note s.format.roomName (.number number) 0
  note s.format.diskName (.number number) number
  let size := s.resource.data.length
  let c ← readUntil (← steps) ⟨.root, name, .four⟩ size 0 default
  return .group ⟨name, size⟩ .roomFile .four [] c.children

end Job

end ScummKit.Pack
