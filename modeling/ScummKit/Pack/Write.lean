import ScummKit.Pack.Save

/-!
# Packing blocks

The size of a group is known only when all of it is written: a group is first given the size zero, and
its head is written again in the end.
-/

namespace ScummKit.Pack

namespace Job

/-! ### Heads -/

def writeLabel (label : Label) : Job Unit := do
  emit ((← format).header label.name label.size)

def soundName (name : String) : String := if name.length = 3 then name ++ " " else name

def writeSoundLabel (name : String) (stored : Int) : Job Unit := writeLabel ⟨soundName name, stored⟩

def noteEntry (table : String) (location room : Int) (index : Int) : Job Unit := do
  let number ← roomAt room
  let offset ← roomStart number
  note table (.place number (location - offset)) index

def noteEntry? (table : String) (location room : Int) (e : Entry) : Job Unit :=
  match e.index with
  | some i => noteEntry table location room i
  | none => return

/-! ### Blocks without others -/

def writeLeaf (label : Label) (body : Body) (room : Int) : Job Unit := do
  let f ← format
  let location ← tell
  match body with
  | .plain data => do
    writeLabel label
    emit data
  | .resource e data => do
    noteEntry? label.name location room e
    writeLabel label
    emit data
  | .nameless e data => do
    noteEntry? "SO" location room e
    writeLabel label
    emit data
  | .palette _ data => do
    writeLabel label
    emit data
  | .localScript id data => do
    writeLabel label
    emit (le 1 id)
    emit data
  | .sheet s values => do
    writeLabel label
    emit (← ofExcept (s.pack values))
  | .image id data => do
    writeLabel label
    emit (← ofExcept (packFields [(.word, id)]))
    emit data
  | .code o => do
    writeLabel label
    emit (← ofExcept (packFields (ObjectScript.fields.zip o.numbers)))
    emit o.tail
  | .imageHeader h => do
    writeLabel label
    emit (← ofExcept (packFields ((ImageHeader.fields f).zip (h.numbers f))))
    h.hotspots.forM fun s => do
      emit (← ofExcept (packFields [(.word, s.1), (.word, s.2)]))
  | .object h verb verbs name => do
    let start := location
    writeLabel ⟨label.name, 0⟩
    let fields := CodeHeader.fields f
    writeLabel ⟨"CDHD", widthOf fields + 8⟩
    emit (← ofExcept (packFields (fields.zip h.numbers)))
    writeLabel verb
    emit verbs
    writeLabel ⟨"OBNA", name.length + 1 + 8⟩
    emit (Text.toBytes name ++ [0])
    let stop ← tell
    seek start
    writeLabel ⟨label.name, stop - start⟩
    seek stop
  | .offsets => return
  | .midi head data => do
    writeSoundLabel label.name (label.size + 16)
    emit head
    emit data
  | .voice data => do
    writeSoundLabel label.name (label.size - 8)
    emit (voiceMark ++ be 4 (label.size - 27))
    emit data
  | .tune data => do
    writeSoundLabel label.name (label.size - 8)
    emit data
  | .track e data => do
    noteEntry? label.name location room e
    writeLabel label
    match data with
    | some data => emit data
    | none => throw .absent

/-! ### Tables of rooms -/

def keyAtMost : List Int → List Int → Bool
  | [], _ => true
  | _ :: _, [] => false
  | a :: as, b :: bs => a < b || a = b && keyAtMost as bs

def roomRows : Job (List (Int × Int)) := do
  let s ← get
  let f := s.format
  let rows ← ofExcept (s.tables.rows (if f.isOld then f.volumeName else f.roomName))
  let placed := rows.map fun e => match e.1 with
    | .tuple [disk, offset] => ([disk, offset], e.2, offset)
    | .number room => ([room], room, e.2)
    | _ => ([], e.2, 0)
  let sorted := placed.mergeSort fun a b => keyAtMost a.1 b.1
  let here ← sorted.filterM fun e => do
    return (← find f.diskName (.number e.2.1)) = s.disk
  return here.map (·.2)

def offsetsName (f : Format) : String := if f.isOld then "FO" else "LOFF"

def reserveOffsets (rooms : Nat) : Job Int := do
  let start ← tell
  writeLabel ⟨offsetsName (← format), 0⟩
  emit (le 1 rooms)
  emit (List.replicate (5 * rooms) 0)
  return (← tell) - start

def writeOffsets (size : Int) : Job Unit := do
  writeLabel ⟨offsetsName (← format), size⟩
  let rows ← roomRows
  emit (le 1 rows.length)
  rows.forM fun e => emit (le 1 e.1 ++ le 4 e.2)

/-! ### Groups -/

def writeGroupLabel (label : Label) (kind : GroupKind) (size : Int) (first : Bool) : Job Unit := do
  match kind with
  | .sounds => writeSoundLabel label.name (if first then 0 else size - 8)
  | .volume e => do
    writeLabel ⟨label.name, size⟩
    if (← format).isOld then emit (le 2 (e.index.getD 0))
  | _ => writeLabel ⟨label.name, size⟩

def writeGroup (label : Label) (kind : GroupKind) (inside : Job Unit) : Job Unit := do
  let start ← tell
  writeGroupLabel label kind 0 true
  inside
  let stop ← tell
  seek start
  writeGroupLabel label kind (stop - start) false
  seek stop

def writeRoot (label : Label) (rooms : Nat) (inside : Job Unit) : Job Unit := do
  let start ← tell
  writeLabel ⟨label.name, 0⟩
  let tableSize ← reserveOffsets rooms
  inside
  let stop ← tell
  seek start
  writeLabel ⟨label.name, stop - start⟩
  writeOffsets tableSize
  seek stop

def writePalettes (base : Int) : List (Block × (Int → Job Unit)) → Int → Job (List Int)
  | [], _ => return []
  | (b, write) :: rest, room => do
    if b.name = "APAL" then
      let start ← tell
      write room
      return (start - base) :: (← writePalettes base rest room)
    else writePalettes base rest room

def writePaletteGroup (label : Label) (children : List (Block × (Int → Job Unit))) (room : Int) :
    Job Unit := do
  let start ← tell
  writeLabel ⟨label.name, 0⟩
  let base ← tell
  writeLabel ⟨"OFFS", 0⟩
  emit (List.replicate (4 * children.length) 0)
  let offsets ← writePalettes base children room
  let stop ← tell
  seek start
  writeLabel ⟨label.name, stop - start⟩
  if offsets.length ≠ children.length then throw .refused
  writeLabel ⟨"OFFS", 8 + offsets.length * 4⟩
  emit (offsets.flatMap (le 4))
  seek stop

def writeObjects (members : List (Block × (Int → Job Unit))) (between : Job Unit)
    (images codes : List Int) (room : Int) : Job Unit := do
  let ids := Block.objectIds (members.map (·.1))
  let run (p : Block → Bool) : Job Unit :=
    match Block.lastWhere p members with
    | some write => write room
    | none => throw .absent
  (arrange images ids).forM fun id => run (Block.isImageOf id)
  between
  (arrange codes ids).forM fun id => run (Block.isCodeOf id)

/-- Scripts in the order of their numbers. Several scripts must all have one. -/
def sortScripts (scripts : List (Block × (Int → Job Unit))) : Except Fault (List (Block × (Int → Job Unit))) :=
  if 1 < scripts.length ∧ scripts.any (fun e => e.1.scriptNumber?.isNone) then .error .absent
  else .ok (scripts.mergeSort fun a b =>
    (a.1.scriptNumber?.getD 0) ≤ (b.1.scriptNumber?.getD 0))

def writeScriptCount (n : Nat) : Job Unit := do
  let f ← format
  writeLabel ⟨if f.isOld then "LC" else "NLSC", f.headerLength + 2⟩
  emit (le 2 n)

/-- Writes the scripts of a room: the one that runs on leaving, the one that runs on entering, the
number of the others, and the others by number. -/
def writeScripts (parts : List (Block × (Int → Job Unit))) (room : Int) : Job Unit := do
  let names := Block.scriptNames (← format)
  match Block.lastWhere (·.name = names.entry) parts, Block.lastWhere (·.name = names.leaving) parts with
  | some entry, some leaving =>
    leaving room
    entry room
    let others := parts.filter (·.1.name = names.other)
    writeScriptCount others.length
    (← ofExcept (sortScripts others)).forM fun e => e.2 room
  | _, _ =>
    let number ← roomAt room
    throw (.packing (s!"Room #{number} appears to be missing either a room entry or exit script " ++ "(or both)."))

end Job

/-! ### Trees -/

namespace Block

mutual

def write : Block → Int → Job Unit
  | .leaf label body, room => Job.writeLeaf label body room
  | .group label kind _ _ children, room => do
    let location ← Job.tell
    match kind with
    | .root => Job.writeRoot label children.length (writeAll children room)
    | .roomFile => writeAll children room
    | .palettes => Job.writePaletteGroup label (writers children) room
    | .volume e =>
      let s ← get
      let index := e.index.getD 0
      Job.note label.name (.place s.disk location) index
      Job.note s.format.diskName (.number index) s.disk
      Job.writeGroup label kind (writeAll children location)
    | .room =>
      let number ← Job.roomAt room
      Job.log .debug s!"Saving room: {number}"
      Job.note (← Job.format).roomName (.number number) location
      Job.writeGroup label kind (writeAll children room)
    | .song e =>
      Job.noteEntry? label.name location room e
      Job.writeGroup label kind (writeAll children room)
    | .sound e =>
      Job.noteEntry? label.name location room e
      Job.writeGroup label kind (writeAll children room)
    | _ => Job.writeGroup label kind (writeAll children room)
  | .objects members between images codes, room =>
    Job.writeObjects (writers members) (writeAll between room) images codes room
  | .scripts parts, room => Job.writeScripts (writers parts) room

def writeAll : List Block → Int → Job Unit
  | [], _ => pure ()
  | b :: rest, room => do
    write b room
    writeAll rest room

def writers : List Block → List (Block × (Int → Job Unit))
  | [] => []
  | b :: rest => (b, write b) :: writers rest

end

def writeRoomFile (b : Block) : Job Unit := do
  let f ← Job.format
  let number ← Job.ofExcept (Numeral.read 10 b.name)
  if (← Job.find? (Job.roomStart number)).isNone then Job.note f.roomName (.number number) 0
  modify fun s => { s with disk := number }
  b.write 0

end Block

end ScummKit.Pack
