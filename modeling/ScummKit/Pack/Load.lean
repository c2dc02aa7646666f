import ScummKit.Pack.Read
import ScummKit.Pack.Save

/-!
# Loading unpacked blocks

The name of a file or folder says what its form is; what has no form is left alone. Blocks keep the
order that the folder's own list gives.
-/

namespace ScummKit.Pack

open Xml (Element)

namespace Job

/-! ### Orders -/

def orderLists (root : Element) : Except Fault (List (Option String × List Int)) :=
  (root.children.filter (·.tag = "order-list")).mapM fun list => do
    let numbers ← (list.children.filter (·.tag = "order-entry")).mapM fun e =>
      match e.text with
      | some s => Spelling.number s
      | none => .error .absent
    return (Table.find? "block-type" list.attributes, numbers)

def loadOrder (path : String) : Job Order := do
  let file := Path.append path "order.xml"
  if ← isFile file then
    let lists ← ofExcept (orderLists (← xml file))
    return lists.foldl (fun order e => match e.1 with
      | some name => Table.put name e.2 order
      | none => order) []
  else return []

/-- One order of objects: the listed ones, then those that are there and not listed. -/
def mergeOrder (lists : List (Option String × List Int)) (name : String) (there : List Int) :
    List Int :=
  lists.foldl (fun order e =>
    if e.1 = some name then
      let order := order ++ e.2
      order ++ there.filter fun i => !order.contains i
    else order) []

/-! ### Blocks without others -/

def lastThree (s : String) : String := String.ofList (s.toList.drop (s.length - 3))

def numberAtEnd (path : String) : Job (Except Fault Int) := do
  let name := Path.lastName path
  let stem := if ← isFolder path then name else (Path.splitEnding name).1
  return Numeral.read 10 (lastThree stem)

def loadPlain (path : String) : Job (Label × List UInt8) := do
  openFile path none
  let label ← readLabel
  return (label, ← readRest 0 label)

def loadNumbered (path : String) (make : Entry → List UInt8 → Body) : Job Block := do
  match ← numberAtEnd path with
  | .error _ => throw (.packing ("None is an invalid index for resource " ++ path))
  | .ok i =>
    let (label, data) ← loadPlain path
    return .leaf label (make ⟨some i, false⟩ data)

def loadMidi (path : String) : Job Block := do
  let headFile := (Path.splitEnding path).1 ++ ".mdhd"
  let head ← if ← isFile headFile then do
      openFile headFile none
      takeAll 16
    else pure usualMidiHead
  let data ← bytes path
  return .leaf ⟨(Path.splitEnding (Path.lastName path)).1, data.length⟩ (.midi head data)

def loadLeaf (form : Form) (path : String) : Job Block := do
  let stem := (Path.splitEnding (Path.lastName path)).1
  match form with
  | .resource => loadNumbered path .resource
  | .nameless => loadNumbered path .nameless
  | .palette =>
    match ← numberAtEnd path with
    | .error _ => throw .absent
    | .ok i =>
      let (label, data) ← loadPlain path
      return .leaf label (.palette (some i) data)
  | .localScript =>
    openFile path none
    let label ← readLabel
    let id ← number 1
    return .leaf label (.localScript id (← readRest 0 label))
  | .sheet s =>
    let values ← ofExcept (s.ofXml (← xml path))
    return .leaf ⟨stem, s.width + (← format).headerLength⟩ (.sheet s values)
  | .midi => loadMidi path
  | .voice =>
    let data ← bytes path
    return .leaf ⟨stem, data.length - 0x1A + 27⟩ (.voice (data.drop 0x1A))
  | .tune =>
    let data ← bytes path
    return .leaf ⟨stem, data.length + 8⟩ (.tune data)
  | _ =>
    let (label, data) ← loadPlain path
    return .leaf label (.plain data)

def loadImage (path : String) : Job Block := do
  let id ← ofExcept (numberIn (← xml (Path.append path "OBHD.xml")) "id")
  let data := (← bytes (Path.append path "OI.dmp")).drop 8
  return .leaf ⟨"OI", 8 + data.length⟩ (.image id data)

def loadObjectScript (path : String) : Job Block := do
  let head ← ofExcept (ObjectScript.ofXml (← xml (Path.append path "OBHD.xml")))
  openFile (Path.append path "OC.dmp") none
  seek (6 + 12)
  let nameOffset ← take 1
  if nameOffset.isEmpty then throw .wrongKind
  let events ← takeAll (ofLE nameOffset - (← tell))
  discard takeTerminated
  let script := (← get).resource.rest
  let o := { head with events, script }
  return .leaf ⟨"OC", o.size⟩ (.code o)

def loadObject (path : String) : Job Block := do
  let head := Path.append path "OBHD.xml"
  let header ← ofExcept (CodeHeader.ofXml (← xml head))
  let (verb, verbs) ← loadPlain (Path.append path "VERB.dmp")
  let name ← ofExcept (objectName (← xml head))
  return .leaf ⟨"OBCD", 0⟩ (.object header verb verbs name)

/-! ### Groups -/

def nameParts (path : String) : List String := Text.split (Path.lastName path) '_'

def partNumber (parts : List String) : Job Int := do
  match parts with
  | _ :: part :: _ => ofExcept (Numeral.read 10 part)
  | _ => throw .outOfRange

def addScript (b : Block) (parts : List Block) : Job (List Block) := do
  let names := Block.scriptNames (← format)
  if [names.entry, names.leaving, names.other].contains b.name then return parts ++ [b]
  else throw (.packing ("Unrecognised script type: " ++ b.name))

def isObjectFolder (name : String) : Bool := startsNumbered isDecimal "" 4 "_" name

mutual

def load : Nat → Form → String → Job Block
  | 0, _, _ => throw .endless
  | fuel + 1, form, path => do
    let f ← format
    let name := Path.lastName path
    match form with
    | .group ranking => loadFolder fuel path name .plain ranking
    | .sounds => loadFolder fuel path name .sounds f.ranking
    | .palettes => loadFolder fuel path name .palettes f.ranking
    | .room => loadFolder fuel path name .room f.ranking
    | .root =>
      let (name, ranking) := if f.isOld then ("LE", Ranking.four) else ("LECF", .five)
      loadFolder fuel (Path.append path name) name .root ranking
    | .volume =>
      let parts := nameParts path
      let number ← partNumber parts
      loadFolder fuel path (parts.headD "") (.volume ⟨some number, false⟩) f.ranking
    | .song =>
      let parts := nameParts path
      let index ← if parts.length > 1 then some <$> partNumber parts else pure none
      loadFolder fuel path (parts.headD "") (.song ⟨index, false⟩) f.ranking
    | .sound => loadSound fuel path
    | .objects =>
      let names ← list path
      let members ← loadObjects fuel path (names.filter isObjectFolder)
      let between ← loadNames fuel path (names.filter fun n => !isObjectFolder n)
      let images := members.filterMap Block.imageOf?
      let codes := members.filterMap fun b => b.codeOf?.map (·.1)
      let orderFile := Path.append path "order.xml"
      if ← isFile orderFile then
        let lists ← ofExcept (orderLists (← xml orderFile))
        let (code, image) := Block.objectNames f
        return .objects members between (mergeOrder lists image images) (mergeOrder lists code codes)
      else return .objects members between images codes
    | .scripts => return .scripts (← loadScripts fuel path (← list path) [])
    | _ => loadLeaf form path

def loadFolder : Nat → String → String → GroupKind → Ranking → Job Block
  | 0, _, _, _, _ => throw .endless
  | fuel + 1, path, name, kind, ranking => do
    let names ← list path
    let order ← if names.contains "order.xml" then loadOrder path else pure []
    let children ← loadChildren fuel path name ranking order (names.filter (· ≠ "order.xml")) []
    return .group ⟨name, 0⟩ kind ranking order children

def loadChildren : Nat → String → String → Ranking → Order → List String → List Block → Job (List Block)
  | 0, _, _, _, _, _, _ => throw .endless
  | _ + 1, _, _, _, _, [], children => return children
  | fuel + 1, path, name, ranking, order, file :: rest, children => do
    match Form.ofFile (← format) file with
    | none => loadChildren fuel path name ranking order rest children
    | some form =>
      let b ← load fuel form (Path.append path file)
      let children ← addChild name ranking order b children
      loadChildren fuel path name ranking order rest children

def loadNames : Nat → String → List String → Job (List Block)
  | 0, _, _ => throw .endless
  | _ + 1, _, [] => return []
  | fuel + 1, path, file :: rest => do
    match Form.ofFile (← format) file with
    | none => loadNames fuel path rest
    | some form =>
      let b ← load fuel form (Path.append path file)
      return b :: (← loadNames fuel path rest)

def loadScripts : Nat → String → List String → List Block → Job (List Block)
  | 0, _, _, _ => throw .endless
  | _ + 1, _, [], parts => return parts
  | fuel + 1, path, file :: rest, parts => do
    match Form.ofFile (← format) file with
    | none => loadScripts fuel path rest parts
    | some form =>
      let b ← load fuel form (Path.append path file)
      loadScripts fuel path rest (← addScript b parts)

def loadObjects : Nat → String → List String → Job (List Block)
  | 0, _, _ => throw .endless
  | _ + 1, _, [] => return []
  | fuel + 1, path, folder :: rest => do
    let folder := Path.append path folder
    let old := (← format).isOld
    let image ← if old then loadImage folder else loadPicture fuel folder
    let code ← if old then loadObjectScript folder else loadObject folder
    return image :: code :: (← loadObjects fuel path rest)

/-- The image of an object of the fifth and sixth generation: its head and its pictures, of which there
must be as many as the head says. -/
def loadPicture : Nat → String → Job Block
  | 0, _ => throw .endless
  | fuel + 1, path => do
    let f ← format
    let header ← ofExcept (ImageHeader.ofXml f (← xml (Path.append path "OBHD.xml")))
    let head := Block.leaf ⟨"IMHD", header.byteCount f + 8⟩ (.imageHeader header)
    let children ← addChild "OBIM" f.ranking [] head []
    let folders := (← list path).filter (startsNumbered isHex "IM" 2 "")
    if (folders.length : Int) ≠ header.images then
      throw (.packing (s!"Number of images in the header ({header.images}) does not match the "
        ++ s!"number of image directories ({folders.length})"))
    let children ← loadPictures fuel path f.ranking folders children
    return .group ⟨"OBIM", 0⟩ (.picture header) f.ranking [] children

def loadPictures : Nat → String → Ranking → List String → List Block → Job (List Block)
  | 0, _, _, _, _ => throw .endless
  | _ + 1, _, _, [], children => return children
  | fuel + 1, path, ranking, folder :: rest, children => do
    let b ← loadFolder fuel (Path.append path folder) folder .plain ranking
    let children ← addChild "OBIM" ranking [] b children
    loadPictures fuel path ranking rest children

/-- A sound of the fifth and sixth generation: a folder, or a file for a track of a compact disc. A file
that holds no track is read as if it were enciphered. -/
def loadSound : Nat → String → Job Block
  | 0, _ => throw .endless
  | fuel + 1, path => do
    let f ← format
    let parts := nameParts path
    let name := parts.headD ""
    if (Path.splitEnding (Path.lastName path)).2 = "" then
      let entry : Entry := ⟨some (← partNumber parts), false⟩
      let children ← loadChildren fuel path name f.ranking [] (← list path) []
      return .group ⟨name, 0⟩ (.sound entry) f.ranking [] children
    else
      let index ← partNumber (parts.map fun p => (Path.splitEnding p).1)
      let entry : Entry := ⟨some index, false⟩
      openFile path none
      let label ← readLabel
      let inner ← number 4
      skip (-4)
      if inner = label.size - 8 then
        return .leaf label (.track entry (some (← readRest 0 label)))
      else
        modify fun s => { s with
          resource := { s.resource with data := Cipher.bytes f.key s.resource.data } }
        discard (readUntil (← steps) ⟨.sound, label.name, f.ranking⟩ label.size 0 default)
        return .leaf label (.track entry none)

end

def loadSteps : Job Nat := do return 4 * (← get).files.entries.length + 100

def loadRoot (path : String) : Job Block := do load (← loadSteps) .root path

def loadRoomFile (path : String) : Job Block := do
  let f ← format
  let name := Path.lastName path
  let names ← list path
  let order ← if names.contains "order.xml" then loadOrder path else pure []
  let number ← ofExcept (Numeral.read 10 name)
  note f.volumeName (.place number 0) number
  let children ← loadChildren (← loadSteps) path name .four order (names.filter (· ≠ "order.xml")) []
  return .group ⟨name, 0⟩ .roomFile .four order children

end Job

end ScummKit.Pack
