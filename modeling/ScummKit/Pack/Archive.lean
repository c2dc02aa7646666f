import ScummKit.Pack.Directory

/-!
# Whole games

Unpacks all files of a game to a tree of files, and packs such a tree to the files of a game.
-/

namespace ScummKit.Pack

namespace Job

def fileLimit : Nat := 100

def fileNumbers : List Nat := (List.range fileLimit).drop 1

def readFile (g : Game) (path : String) : Job Block := do
  openFile path g.format.key
  match g.spanning with
  | .rooms => readRoomFile path
  | _ => readRoot

/-- Reads the resource files with some numbers. Files of rooms may be missing; otherwise the first file
that is missing is the end. -/
def readFiles (g : Game) (input : String) : List Nat → Job (List Block)
  | [] => return []
  | n :: rest => do
    let name := g.resourceFile n
    say name
    if g.ignored.contains name then readFiles g input rest
    else
      let path := Path.append input name
      if ← isFile path then
        log .normal ("Reading from " ++ path)
        modify fun s => { s with disk := n }
        let b ← readFile g path
        if g.spanning = .single then return [b]
        else return b :: (← readFiles g input rest)
      else if g.spanning = .rooms then readFiles g input rest
      else return []

def saveFiles (g : Game) (output : String) : Nat → List Block → Job Unit
  | _, [] => return
  | i, b :: rest => do
    let path := if g.spanning = .rooms then output else Path.append output (g.folder (i + 1))
    log .normal (s!"Saving resource {i} to " ++ path)
    ensureFolder path
    b.save path
    saveFiles g output (i + 1) rest

def unpack (g : Game) (input output : String) : Job Unit := do
  modify fun s => { s with game := Game.plainName s.game }
  log .normal "Loading from game resources..."
  let index ← readIndex (Path.append input g.indexFile)
  let blocks ← readFiles g input fileNumbers
  log .normal "Saving to files..."
  saveFiles g output 0 blocks
  index.forM (saveIndexBlock output)

def loadFiles (g : Game) (input : String) : List Nat → Job (List Block)
  | [] => return []
  | n :: rest => do
    let path := Path.append input (g.folder n)
    if ← isFolder path then
      log .normal ("Reading from " ++ path)
      modify fun s => { s with disk := n }
      let b ← if g.spanning = .rooms then loadRoomFile path else loadRoot path
      if g.spanning = .single then return [b]
      else return b :: (← loadFiles g input rest)
    else if g.spanning = .rooms then loadFiles g input rest
    else return []

def writeFiles (g : Game) (output : String) : Nat → List Block → Job Unit
  | _, [] => return
  | i, b :: rest => do
    let number : Int ← if g.spanning = .rooms then ofExcept (Numeral.read 10 b.name)
      else pure (i + 1)
    let path := Path.append output (g.resourceFile number)
    log .normal ("Saving to " ++ path)
    modify fun s => { s with disk := i + 1 }
    storing path g.format.key (if g.spanning = .rooms then b.writeRoomFile else b.write 0)
    writeFiles g output (i + 1) rest

def pack (g : Game) (input output : String) : Job Unit := do
  log .normal "Loading from files..."
  let blocks ← loadFiles g input fileNumbers
  let index ← loadIndex input
  log .normal "Saving to game resources..."
  writeFiles g output 0 blocks
  storing (Path.append output g.indexFile) g.format.indexKey (writeIndex index)

end Job

end ScummKit.Pack
