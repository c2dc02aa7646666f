import ScummKit.Pack.Job
import ScummKit.Pack.Form

/-!
# Unpacking blocks to files

A group is a folder, other blocks are files. The order of numbered blocks in a folder is kept in a file
of its own.
-/

namespace ScummKit.Pack

open Xml (Element)

def Format.header (f : Format) (name : String) (size : Int) : List UInt8 :=
  if f.isOld then le 4 size ++ Text.toBytes name else Text.toBytes name ++ be 4 size

/-! ### Files that other programs know -/

def usualMidiHead : List UInt8 :=
  [0x4D, 0x44, 0x68, 0x64, 0x00, 0x00, 0x00, 0x08, 0x00, 0x00, 0x80, 0x7F, 0x00, 0x00, 0x00, 0x80]

/-- The head of a file of recorded sound: a mark, where the sound starts, the version of the format
and a number that checks the version. -/
def voiceHead : List UInt8 :=
  Text.toBytes "Creative Voice File\x1a" ++ le 2 0x1A ++ le 2 0x010A ++ le 2 (0x1234 - 0x010A - 1)

def voiceMark : List UInt8 := Text.toBytes "AUhd" ++ [0, 0, 0, 3, 0, 0, 0x80] ++ Text.toBytes "AUdt"

/-! ### Names -/

def trimEnd (s : String) : String := String.ofList (s.toList.reverse.dropWhile Numeral.isBlank).reverse

def GroupKind.folder (label : Label) : GroupKind → String
  | .sounds => trimEnd label.name
  | .volume e => label.name ++ "_" ++ e.text
  | .song e => if e.index.isNone ∧ !e.unknown then label.name else label.name ++ "_" ++ e.text
  | .sound e => label.name ++ "_" ++ e.text
  | .picture _ => ""
  | _ => label.name

/-! ### Orders -/

/-- Adds a number to the last list if it is of its name, and starts a list otherwise. The lists and
their numbers are in reverse. -/
def extendOrder (lists : Order) (entry : String × Int) : Order :=
  match lists with
  | (name, numbers) :: rest =>
    if name = entry.1 then (name, entry.2 :: numbers) :: rest else (entry.1, [entry.2]) :: lists
  | [] => [(entry.1, [entry.2])]

def orderOf (ranking : Ranking) (children : List Block) : Order :=
  let entries := children.filterMap fun b =>
    match b.number? with
    | some (some i) => some (ranking.key b.name, i)
    | _ => none
  (entries.foldl extendOrder []).reverse.map fun e => (e.1, e.2.reverse)

def orderXml (order : Order) : Element :=
  .node "order" (order.map fun e =>
    { Element.node "order-list" (e.2.map (decimalChild "order-entry")) with
      attributes := [("block-type", e.1)] })

namespace Job

def saveOrder (path : String) (order : Order) : Job Unit := do
  if order.isEmpty then return
  storeXml (Path.append path "order.xml") (orderXml order)

/-! ### Blocks without others -/

def saveParts (path name : String) (label : Label) (parts : Job Unit) : Job Unit := do
  let f ← format
  storing (Path.append path name) none do
    emit (f.header label.name label.size)
    parts

def saveLeaf (label : Label) (body : Body) (path : String) : Job Unit :=
  match body with
  | .plain data => saveParts path (label.name ++ ".dmp") label (emit data)
  | .resource e data => saveParts path (label.name ++ "_" ++ e.text ++ ".dmp") label (emit data)
  | .nameless e data => saveParts path ("00_" ++ e.text ++ ".dmp") label (emit data)
  | .palette index data =>
    match index with
    | none => throw .absent
    | some i =>
      saveParts path (label.name ++ "_" ++ Spelling.pad 3 (toString i) ++ ".dmp") label (emit data)
  | .localScript id data =>
    saveParts path (label.name ++ "_" ++ Spelling.pad 3 (toString id) ++ ".dmp") label do
      emit (le 1 id)
      emit data
  | .sheet s values => storeXml (Path.append path (label.name ++ ".xml")) (s.toXml values)
  | .image id data => saveParts path (label.name ++ ".dmp") label do
      emit (← ofExcept (packFields [(.word, id)]))
      emit data
  | .code o => saveParts path (label.name ++ ".dmp") label do
      emit (← ofExcept (packFields (ObjectScript.fields.zip o.numbers)))
      emit o.tail
  | .imageHeader _ => return
  | .object _ verb verbs _ => saveParts path (verb.name ++ ".dmp") verb (emit verbs)
  | .offsets => return
  | .midi head data => do
    if head ≠ usualMidiHead then
      storing (Path.append path (trimEnd label.name ++ ".mdhd")) none (emit head)
    storing (Path.append path (trimEnd label.name ++ ".mid")) none (emit data)
  | .voice data =>
    storing (Path.append path (trimEnd label.name ++ ".voc")) none do
      emit voiceHead
      emit data
  | .tune data => storing (Path.append path (trimEnd label.name ++ ".mid")) none (emit data)
  | .track e data =>
    saveParts path (label.name ++ "_" ++ e.text ++ ".dmp") label (emit (data.getD []))

/-! ### Objects -/

def objectXml (f : Format) (image code : Block) : Element :=
  let picture := match image with
    | .group _ (.picture h) _ _ _ => [h.toXml f]
    | _ => []
  let head := match code with
    | .leaf _ (.code o) => [o.toXml]
    | .leaf _ (.object h _ _ _) => [h.toXml]
    | _ => []
  let (id, name) := code.codeOf?.getD (0, "")
  .node "object" ([.leaf "name" (Spelling.escape name), decimalChild "id" id] ++ picture ++ head)

def objectFolder (id : Int) (name : String) : String :=
  Spelling.pad 4 (toString id) ++ "_" ++ trimEnd (Spelling.fileName name)

def saveObject (path : String) (members : List (Block × (String → Job Unit))) (id : Int) :
    Job Unit := do
  let f ← format
  let pairs := members.map fun e => (e.1, e)
  match Block.lastWhere (Block.isImageOf id) pairs, Block.lastWhere (Block.isCodeOf id) pairs with
  | some (image, saveImage), some (code, saveCode) =>
    let folder := Path.append path (objectFolder id (code.codeOf?.getD (0, "")).2)
    ensureFolder folder
    saveImage folder
    saveCode folder
    storeXml (Path.append folder "OBHD.xml") (objectXml f image code)
  | _, _ =>
    throw (.packing ("Object is missing either the code block or the image block! Dump follows.\n"
      ++ Block.objectsShown f (members.map (·.1))))

end Job

/-! ### Trees -/

namespace Block

mutual

def save : Block → String → Job Unit
  | .leaf label body, path => Job.saveLeaf label body path
  | .group label kind ranking _ children, path => do
    let name := kind.folder label
    match kind with
    | .volume _ => Job.log .info ("Saving block " ++ name)
    | _ => pure ()
    let folder := Path.append path name
    Job.ensureFolder folder
    saveAll children folder
    match kind with
    | .sound _ => pure ()
    | _ => Job.saveOrder folder (orderOf ranking children)
  | .objects members between images codes, path => do
    let folder := Path.append path "objects"
    Job.ensureFolder folder
    (objectIds members).forM (Job.saveObject folder (savers members))
    let names := objectNames (← Job.format)
    Job.storeXml (Path.append folder "order.xml") (orderXml [(names.1, codes), (names.2, images)])
    saveAll between folder
  | .scripts parts, path => do
    let folder := Path.append path "scripts"
    Job.ensureFolder folder
    let names := scriptNames (← Job.format)
    let savers := savers parts
    let single (name : String) : Job Unit :=
      match lastWhere (·.name = name) savers with
      | some run => run folder
      | none => pure ()
    single names.entry
    single names.leaving
    (savers.filter (·.1.name = names.other)).forM fun e => e.2 folder

def saveAll : List Block → String → Job Unit
  | [], _ => pure ()
  | b :: rest, path => do
    save b path
    saveAll rest path

def savers : List Block → List (Block × (String → Job Unit))
  | [] => []
  | b :: rest => (b, save b) :: savers rest

end

end Block

end ScummKit.Pack
