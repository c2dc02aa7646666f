import ScummKit.Text

/-!
# What a file is, by its name

What a file holds is told by its name: its ending says whether it is decoded, and a code in the name
what kind of resource it is. The codes depend on the version of the engine.
-/

namespace ScummKit.Asset

inductive Status where
  | ledger
  | binary
  | header
  | decoded
  | other
  deriving Repr, DecidableEq, Inhabited

def Status.label : Status → String
  | .ledger => "meta"
  | .binary => "binary"
  | .header => "xml"
  | .decoded => "decoded"
  | .other => "other"

def Status.ofName (name : String) : Status :=
  if name = "timestamps.json" then .ledger
  else if Text.ends name ".dmp" then .binary
  else if Text.ends name ".xml" then .header
  else if [".txt", ".json", ".png"].any (Text.ends name) then .decoded
  else .other

inductive Kind where
  | script
  | box
  | scale
  | palette
  | zplane
  | image
  | costume
  | other
  deriving Repr, DecidableEq, Inhabited

def Kind.label : Kind → String
  | .script => "script"
  | .box => "box"
  | .scale => "scale"
  | .palette => "palette"
  | .zplane => "zplane"
  | .image => "image"
  | .costume => "costume"
  | .other => "other"

def byCode (fallback : α) (table : List (List String × α)) (name : String) : α :=
  match table.find? fun row => row.1.any (Text.has name) with
  | some row => row.2
  | none => fallback

def codes4 : List (List String × Kind) :=
  [(["SC_", "LS_", "EN", "EX", "OC"], .script), (["BX."], .box), (["SA."], .scale),
   (["PA."], .palette), (["_zplane."], .zplane), (["BM.", "OI.", "_image."], .image),
   (["CO_"], .costume)]

def codes5 : List (List String × Kind) :=
  [(["SCRP_", "LSCR_", "ENCD", "EXCD", "VERB"], .script), (["BOXD.", "BOXM."], .box),
   (["SCAL."], .scale), (["CLUT."], .palette), (["SMAP."], .image), (["ZP"], .zplane),
   (["COST_"], .costume)]

def Kind.ofName4 (name : String) : Kind := byCode .other codes4 name

def Kind.ofName5 (name : String) : Kind := byCode .other codes5 name

def Kind.ofName? (version name : String) : Option Kind :=
  match version with
  | "4" => some (.ofName4 name)
  | "5" => some (.ofName5 name)
  | _ => none

inductive FolderKind where
  | room
  | costume
  | other
  deriving Repr, DecidableEq, Inhabited

def FolderKind.label : FolderKind → String
  | .room => "lfl"
  | .costume => "costume"
  | .other => "other"

def FolderKind.ofName4 (name : String) : FolderKind := byCode .other [(["LF_"], .room), (["CO_"], .costume)] name

def FolderKind.ofName5 (name : String) : FolderKind := byCode .other [(["LFLF_"], .room), (["COST_"], .costume)] name

/-- The kind of a folder. Other versions have only plain folders. -/
def FolderKind.ofName (version name : String) : FolderKind :=
  match version with
  | "4" => .ofName4 name
  | "5" => .ofName5 name
  | _ => .other

end ScummKit.Asset
