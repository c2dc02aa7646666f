import ScummKit.Asset.BoxFile
import ScummKit.Asset.CostumeFile
import ScummKit.Asset.ImageFile
import ScummKit.Asset.Kind
import ScummKit.Asset.ScaleFile
import ScummKit.Asset.ScriptFile

/-!
# Walks through the folders of a game

A walk visits every file below a folder and decodes or encodes those of the kinds it targets. Pictures
wait in a queue until everything else in their room's folder has been visited.
-/

namespace ScummKit.Work

open Asset

/-! ### Palette and queue -/

def targets (kind : Option Kind) : Work Bool := do
  return (← get).crawl.targets.contains ((kind.map Kind.label).getD "")

def foundPalette (palette : Palette) : Work Unit :=
  modify fun w => { w with crawl := { w.crawl with palette, found := true } }

def waiting : Work (List Path) := do
  let w ← get
  return w.crawl.queue.getD w.queue

def enqueue (p : Path) : Work Unit := modify fun w =>
  match w.crawl.queue with
  | some q => { w with crawl := { w.crawl with queue := some (q ++ [p]) } }
  | none => { w with queue := w.queue ++ [p] }

def needsPalette : Work Bool := do
  let w ← get
  return w.crawl.video = "vga" && !w.crawl.found

def withPalette (wait : Bool) (p : Path) (act : Palette → Work Unit) : Work Unit := do
  if wait then enqueue p else act (← get).crawl.palette

/-! ### Files -/

def decodePalette (p : Path) : Work Unit := do
  let version := (← get).crawl.version
  if ← targets (some .palette) then foundPalette (← PaletteFile.decode version true p)
  else foundPalette (← PaletteFile.read version p)

def decodeKind (p : Path) (kind : Kind) : Work Unit := do
  let c := (← get).crawl
  match kind with
  | .script => ScriptFile.decode c.version true p
  | .box => BoxFile.decode c.version true p
  | .scale => ScaleFile.decode c.version true p
  | .image =>
    withPalette (← needsPalette) p fun palette =>
      ImageFile.decode c.version true c.video palette p
  | .costume =>
    withPalette (← needsPalette) p fun palette =>
      CostumeFile.decode c.version true c.video palette p
  | .zplane => ImageFile.decode c.version true "zplane" [] p
  | _ => return

def visitDecoding (p : Path) : Work Unit := do
  let status := Status.ofName p.name
  if status = .header then stamp p
  if status ≠ .binary then return
  let kind := Kind.ofName? (← get).crawl.version p.name
  if kind = some .palette then decodePalette p
  else if ← targets kind then
    match kind with
    | some k => decodeKind p k
    | none => return

/-- Uses a palette: a decoded one is encoded if it is news, and a binary one is read if there is no
other. -/
def encodePalette (p : Path) (status : Status) : Work Unit := do
  let c := (← get).crawl
  match status with
  | .decoded =>
    let save ← if ← targets (some .palette) then outdated p else pure false
    if save then foundPalette (← PaletteFile.encode c.version true p)
    else foundPalette (← PaletteFile.readPicture p)
  | .binary =>
    let decoded := p.rename (Text.swap · ".dmp" ".png")
    if !c.found then
      if !(← ask (·.isFile decoded)) then foundPalette (← PaletteFile.read c.version p)
  | _ => return

def encodeKind (p : Path) (kind : Kind) : Work Unit := do
  let c := (← get).crawl
  let wait ← needsPalette
  match kind with
  | .script => ScriptFile.encode c.version true p
  | .box => BoxFile.encode c.version true p
  | .scale => ScaleFile.encode c.version true p
  | .image =>
    withPalette wait p fun palette => ImageFile.encode c.version true c.video palette p
  | .zplane =>
    withPalette (c.version = "4" && wait) p fun palette =>
      ImageFile.encode c.version true "zplane" palette p
  | .costume =>
    withPalette wait p fun palette => CostumeFile.encode c.version true c.video palette p
  | _ => return

def visitEncoding (p : Path) : Work Unit := do
  let status := Status.ofName p.name
  if status = .header then touch p
  let kind := Kind.ofName? (← get).crawl.version p.name
  if kind = some .palette then encodePalette p status
  else if status = .decoded then
    if ← targets kind then
      if ← outdated p then
        match kind with
        | some k => encodeKind p k
        | none => return

def visit (p : Path) : Work Unit := do
  if (← get).crawl.building then visitEncoding p else visitDecoding p

/-! ### Folders -/

/-- Leaves a room: the files that waited are visited, and the room's palette is forgotten. A file that
has to wait again would be visited for ever, since no palette can turn up any more. -/
def leaveRoom : Work Unit := do
  let files ← waiting
  files.forM visit
  if files.length < (← waiting).length then throw .endless
  modify fun w => { w with crawl := { w.crawl with queue := some [], found := false } }

/-- Visits everything below a folder. Folders of costumes are passed by. The first argument bounds how
deep folders may lie in each other. -/
def walk : Nat → Path → Work Unit
  | 0, _ => return
  | depth + 1, folder => do
    let kind := FolderKind.ofName (← get).crawl.version folder.name
    if kind = .costume then return
    (← look (·.list folder)).forM fun name => do
      let p := folder.join name
      if ← ask (·.isFolder p) then walk depth p
      else if ← ask (·.isFile p) then visit p
    if kind = .room then leaveRoom

def crawlFolder (folder : Path) : Work Unit := do
  walk ((← get).files.entries.length + 1) folder

def startCrawl (building : Bool) (version video : String) (targets : List String) : Work Unit :=
  modify fun w => { w with crawl := ⟨building, version, video, targets, [], false, none⟩ }

end ScummKit.Work
