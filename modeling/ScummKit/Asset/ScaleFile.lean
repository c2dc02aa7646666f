import ScummKit.ScaleTable
import ScummKit.Workspace.Ledger

/-!
# Files of scale tables
-/

namespace ScummKit.ScaleFile

open Work

def rows (version : String) (data : List Int) : Except Fault (List ScaleRow) :=
  match version with
  | "4" => ScaleRow.decodeAll (data.drop 6)
  | "5" => ScaleRow.decodeAll (data.drop 8)
  | _ => .ok []

def decode (version : String) (stamped : Bool) (p : Path) : Work Unit := do
  say s!"Decoding {p.text}"
  let table ← (rows version (← octets p) : Except Fault (List ScaleRow))
  let target := p.rename (Text.swap · ".dmp" ".json")
  writeText target (Json.pretty 4 (.list (table.map ScaleRow.toJson)))
  if stamped then stamp target

def header (version : String) (length : Nat) : List Int :=
  match version with
  | "4" => Word.toLE 4 (length + 6 : Nat) ++ [0x53, 0x41]
  | "5" => [0x53, 0x43, 0x41, 0x4c] ++ Word.toBE 4 (length + 8 : Nat)
  | _ => []

def encode (version : String) (stamped : Bool) (p : Path) : Work Unit := do
  say s!"Encoding {p.text}"
  let data ← (ScaleRow.encode (← document p) : Except Fault (List Int))
  writeOctets (p.rename (Text.swap · ".json" ".dmp")) ((header version data.length ++ data).map .int)
  if stamped then stamp p

end ScummKit.ScaleFile
