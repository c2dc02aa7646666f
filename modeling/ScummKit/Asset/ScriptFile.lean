import ScummKit.Script.Listing
import ScummKit.Workspace.Command
import ScummKit.Workspace.Ledger

/-!
# Files of scripts

Listings of scripts are made by a decompiler and compiled back by a compiler. Those of global scripts
have an underscore in front of their name.
-/

namespace ScummKit.ScriptFile

open Work Script

def role (p : Path) : Work Role := do
  let r := Role.ofName p.name
  match r.notice? p with
  | some notice => say notice
  | none => pure ()
  return r

def describeObject (script : String) (p : Path) : Work String := do
  let script := Listing.fillEmpty script
  let description ← describe p
  (Listing.describe description script : Except Fault String)

def listingName (r : Role) (version name : String) : String :=
  let name := Text.swap name ".dmp" ".txt"
  match r, version with
  | .global, "4" => Text.swap name "SC_" "_SC_"
  | .global, "5" => Text.swap name "SCRP_" "_SCRP_"
  | _, _ => name

def decode (version : String) (stamped : Bool) (p : Path) : Work Unit := do
  say s!"Decoding {p.text}"
  let r ← role p
  let listing := Listing.repair (← decompile version p)
  let script ←
    if r = .object then do
      let named ← (Listing.nameEvents version listing : Except Fault String)
      if version = "4" then describeObject named p else pure named
    else pure listing
  let target := p.rename (listingName r version)
  writeText target script
  if stamped then stamp target

def codeName (r : Role) (name : String) : String :=
  let name := Text.swap name ".txt" ".dmp"
  if r = .global then Text.swap name "_SC" "SC" else name

def encode (version : String) (stamped : Bool) (p : Path) : Work Unit := do
  say s!"Encoding {p.text}"
  let r ← role p
  let script ← text p
  if r = .object ∧ script.length ≤ 12 then
    giveUp s!"Empty object script {p.text} cannot be encoded"
  let source ← (Listing.unescape script : Except Fault (List UInt8))
  let middle := p.rename (Text.swap · ".txt" (r.ending version))
  writeBytes middle source
  compile version middle
  let code ← bytes middle
  let code ← (r.retagBytes version code : Except Fault (List UInt8))
  writeBytes (p.rename (codeName r)) code
  if stamped then stamp p

end ScummKit.ScriptFile
