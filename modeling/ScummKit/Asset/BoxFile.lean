import ScummKit.Box
import ScummKit.Workspace.Ledger

/-!
# Files of walk boxes

In version 4 boxes and matrices share a file, in version 5 each has its own.
-/

namespace ScummKit.BoxFile

open Work

def toJson (version : String) (p : Path) (data : List Int) : Except Fault Json := do
  match version with
  | "4" =>
    let (boxes, matrices) ← Box.separate data
    let boxes ← Box.decode version boxes
    return .record [("boxes", .list (boxes.map Box.toJson)), ("matrices", Box.matricesToJson (← Box.decodeMatrices matrices))]
  | "5" =>
    if Text.ends p.name "BOXD.dmp" then
      return .list ((← Box.decode version (data.drop 8)).map Box.toJson)
    else if Text.ends p.name "BOXM.dmp" then
      return Box.matricesToJson (← Box.decodeMatrices (data.drop 8))
    else return .record []
  | _ => return .record []

def decode (version : String) (stamped : Bool) (p : Path) : Work Unit := do
  say s!"Decoding {p.text}"
  let doc ← (toJson version p (← octets p) : Except Fault Json)
  let target := p.rename (Text.swap · ".dmp" ".json")
  writeText target (Json.pretty 4 doc)
  if stamped then stamp target

def ofJson (version : String) (p : Path) (doc : Json) : Except Fault (List Json) := do
  let ints (xs : List Int) : List Json := xs.map .int
  match version with
  | "4" =>
    let boxes ← Box.encode version (← doc.field "boxes")
    let matrices ← Box.encodeMatrices (← doc.field "matrices")
    let length : Int := 6 + boxes.length + matrices.length
    return ints (Word.toLE 4 length ++ [0x42, 0x58]) ++ boxes ++ matrices
  | "5" =>
    let (tag, body) ←
      if Text.ends p.name "BOXD.json" then
        pure ([0x42, 0x4f, 0x58, 0x44], ← Box.encode version doc)
      else if Text.ends p.name "BOXM.json" then
        pure ([0x42, 0x4f, 0x58, 0x4d], ← Box.encodeMatrices doc)
      else pure ([], [])
    return ints (tag ++ Word.toBE 4 (8 + body.length : Nat)) ++ body
  | _ => return []

def encode (version : String) (stamped : Bool) (p : Path) : Work Unit := do
  say s!"Encoding {p.text}"
  let data ← (ofJson version p (← document p) : Except Fault (List Json))
  writeOctets (p.rename (Text.swap · ".json" ".dmp")) data
  if stamped then stamp p

end ScummKit.BoxFile
