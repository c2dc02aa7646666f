import ScummKit.Path

/-!
# Paths of images

Where an image lies says whether it shows a room or an object. Decoded images of objects are kept a few
folders higher; the folders they passed are joined to their names by plus signs.
-/

namespace ScummKit.Asset

inductive Subject where
  | room
  | object
  deriving Repr, DecidableEq, Inhabited

def Subject.label : Subject → String
  | .room => "room"
  | .object => "object"

def Subject.ofLabel? : String → Option Subject
  | "room" => some .room
  | "object" => some .object
  | _ => none

def subject (p : Path) (version : String) : Except Fault (Option Subject) := do
  match version with
  | "4" =>
    if Text.starts p.name "OI." then return some .object
    else if Text.starts p.name "BM." then return some .room
    else return none
  | "5" =>
    if (← p.ancestor 2).name = "objects" then return some .object
    else if (← p.ancestor 1).name = "RMIM" then return some .room
    else return none
  | _ => return none

def joinFolders (p : Path) : Nat → Nat → String → Except Fault String
  | _, 0, name => .ok name
  | i, n + 1, name => do joinFolders p (i + 1) n ((← p.ancestor i).name ++ "+" ++ name)

def flatten (p : Path) (levels : Int) : Except Fault Path := do
  let name ← joinFolders p 0 levels.toNat p.name
  return (← p.ancestor levels).join ("_" ++ name)

/-- The path that an image was moved up from. The first character of the name is dropped. -/
def unflatten (p : Path) : Path := (Text.split (String.ofList (p.name.toList.drop 1)) '+').foldl Path.join p.parent

def imagePair (p : Path) : Option (Path × Path) :=
  if Text.has p.name "_image" then some (p, p.rename (Text.swap · "_image" "_zplane"))
  else if Text.has p.name "_zplane" then some (p.rename (Text.swap · "_zplane" "_image"), p)
  else none

def costumePair (p : Path) : Option (Path × Path) :=
  if Text.has p.name "_animdata.json" then
    some (p, p.rename (Text.swap · "_animdata.json" "_spritesheet.png"))
  else if Text.has p.name "_spritesheet.png" then
    some (p.rename (Text.swap · "_spritesheet.png" "_animdata.json"), p)
  else none

end ScummKit.Asset
