import ScummKit.Path
import ScummKit.Picture
import ScummKit.Table

/-!
# Trees of files

The files and folders that the tools work on, as a value, below a base folder. A clock gives each change
a later time than all changes before it. A path leads to an entry by way of folders: one that is missing
on the way, or is a file, is a fault.
-/

namespace ScummKit

/-- What a file holds. Pictures are kept as pictures, not as the bytes that store them. -/
inductive Content where
  | data (bytes : List UInt8)
  | picture (p : Picture)
  deriving Repr, DecidableEq, Inhabited

inductive Node where
  | file (content : Content) (time : Int)
  | folder (time : Int)
  deriving Repr, DecidableEq, Inhabited

def Node.time : Node → Int
  | .file _ t => t
  | .folder t => t

structure FileTree where
  base : List String
  entries : List (List String × Node)
  clock : Int
  deriving Repr, Inhabited

namespace FileTree

def below? (t : FileTree) (names : List String) : Option (List String) :=
  if t.base.isPrefixOf names then some (names.drop t.base.length) else none

def node? (t : FileTree) (names : List String) : Option Node :=
  match t.below? names with
  | some [] => some (.folder t.clock)
  | some rel => Table.find? rel t.entries
  | none => if names.isPrefixOf t.base then some (.folder t.clock) else none

/-- Follows names from folder to folder, given the names so far in reverse. The last name may be
one that is not there. -/
def walk (t : FileTree) : List String → List String → Except Fault (List String)
  | above, [] => .ok above.reverse
  | above, name :: rest =>
    match t.node? above.reverse with
    | none => .error .noFile
    | some (.file _ _) => .error .notFolder
    | some (.folder _) => if name = ".." then t.walk above.tail rest else t.walk (name :: above) rest

def locate (t : FileTree) (p : Path) : Except Fault (List String) := t.walk [] p.parts

def get (t : FileTree) (p : Path) : Except Fault Node := do
  match t.node? (← t.locate p) with
  | some n => .ok n
  | none => .error .noFile

def get? (t : FileTree) (p : Path) : Option Node := (t.get p).toOption

def has (t : FileTree) (p : Path) : Bool := (t.get? p).isSome

def isFolder (t : FileTree) (p : Path) : Bool :=
  match t.get? p with
  | some (.folder _) => true
  | _ => false

def isFile (t : FileTree) (p : Path) : Bool :=
  match t.get? p with
  | some (.file _ _) => true
  | _ => false

def content (t : FileTree) (p : Path) : Except Fault Content := do
  match ← t.get p with
  | .file c _ => .ok c
  | .folder _ => .error .isFolder

def pictureMark : List UInt8 := [0x89, 0x50, 0x4e, 0x47, 0x0d, 0x0a, 0x1a, 0x0a]

/-- The bytes of the file at a path. Of a picture only the first are known. -/
def bytes (t : FileTree) (p : Path) : Except Fault (List UInt8) := do
  match ← t.content p with
  | .data bs => .ok bs
  | .picture _ => .ok pictureMark

def text (t : FileTree) (p : Path) : Except Fault String := do
  let s ← Text.ofUtf8 (← t.bytes p)
  return String.ofList (Text.unixLines s.toList)

def picture (t : FileTree) (p : Path) : Except Fault Picture := do
  match ← t.content p with
  | .picture p => .ok p
  | .data _ => .error .notPicture

def childName? (folder key : List String) : Option String :=
  if folder.isPrefixOf key then
    match key.drop folder.length with
    | [name] => some name
    | _ => none
  else none

def childNames (t : FileTree) (rel : List String) : List String :=
  (t.entries.filterMap fun e => childName? rel e.1).mergeSort fun a b => !(b < a)

def list (t : FileTree) (p : Path) : Except Fault (List String) := do
  let names ← t.locate p
  match t.node? names with
  | none => .error .noFile
  | some (.file _ _) => .error .notFolder
  | some (.folder _) =>
    match t.below? names with
    | some rel => .ok (t.childNames rel)
    | none => .ok ((t.base.drop names.length).take 1)

/-! ### Changes -/

def tick (t : FileTree) : FileTree := { t with clock := t.clock + 1 }

def place (t : FileTree) (rel : List String) (n : Node) : FileTree :=
  let folder := rel.dropLast
  let entries := Table.put rel n t.entries
  if Table.has rel t.entries then { t with entries }
  else
    { t with entries := entries.map fun e =>
        if e.1 = folder then (match e.2 with
          | .folder _ => (e.1, .folder t.clock)
          | n => (e.1, n))
        else e }

def write (t : FileTree) (p : Path) (c : Content) : Except Fault FileTree := do
  let names ← t.locate p
  match t.node? names with
  | some (.folder _) => .error .isFolder
  | _ =>
    match t.below? names with
    | some rel => .ok (t.tick.place rel (.file c (t.clock + 1)))
    | none => .ok t

def makeFolder (t : FileTree) (p : Path) : Except Fault FileTree := do
  let names ← t.locate p
  if (t.node? names).isSome then .error .alreadyThere
  else match t.below? names with
    | some rel => .ok (t.tick.place rel (.folder (t.clock + 1)))
    | none => .ok t

def touch (t : FileTree) (p : Path) (time : Int) : Except Fault FileTree := do
  let names ← t.locate p
  match t.node? names, t.below? names with
  | none, _ => .error .noFile
  | some (.file c _), some rel => .ok (t.place rel (.file c time))
  | some (.folder _), some rel => .ok (t.place rel (.folder time))
  | _, none => .ok t

def remove (t : FileTree) (p : Path) : Except Fault FileTree := do
  let names ← t.locate p
  match t.node? names, t.below? names with
  | none, _ => .error .noFile
  | some _, some rel => .ok { t with entries := t.entries.filter fun e => !rel.isPrefixOf e.1 }
  | some _, none => .ok t

def replaceable (t : FileTree) (rel : List String) : Option Node → Option Node → Except Fault Unit
  | none, _ => .error .noFile
  | some _, none => .ok ()
  | some (.folder _), some (.file _ _) => .error .notFolder
  | some (.file _ _), some (.folder _) => .error .isFolder
  | some (.file _ _), some (.file _ _) => .ok ()
  | some (.folder _), some (.folder _) =>
    if (t.childNames rel).isEmpty then .ok () else .error .folderNotEmpty

def move (t : FileTree) (p q : Path) : Except Fault FileTree := do
  let old ← t.locate p
  let new ← t.locate q
  if old = new then return t
  match t.below? old, t.below? new with
  | some rel, some dest =>
    t.replaceable dest (t.node? old) (t.node? new)
    let kept := t.entries.filter fun e => e.1 ≠ dest
    return { t with entries := kept.map fun e =>
      if rel.isPrefixOf e.1 then (dest ++ e.1.drop rel.length, e.2) else e }
  | _, _ => .error .device

end FileTree

end ScummKit
