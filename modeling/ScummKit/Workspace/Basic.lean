import ScummKit.Json.Number
import ScummKit.Json.Printer
import ScummKit.Json.Reader
import ScummKit.Tool.Report

/-!
# Workspaces

Everything that work on an unpacked game reads and changes. Work that fails keeps what it did before it
failed.
-/

namespace ScummKit

structure Programs where
  decompiler : String
  describer : String
  compiler : String
  packer : String
  /-- Whether the describer, the compiler and the packer of this library answer their commands. The
  fields below say what happens otherwise. -/
  own : Bool
  listing : String
  description : List UInt8
  compiled : Option (List UInt8)
  deriving Inhabited

structure Ledger where
  root : Path
  /-- The table that was read for this ledger. Ledgers without one share a table. -/
  own : Option Json
  changed : Bool
  deriving Inhabited

structure Crawl where
  building : Bool
  version : String
  video : String
  targets : List String
  palette : Palette
  found : Bool
  /-- The files of this walk that wait for a palette. Walks that have not left a room yet share a
  queue. -/
  queue : Option (List Path)
  deriving Inhabited

structure Workspace where
  files : FileTree
  said : String
  commands : List String
  reports : List Tool.Report
  programs : Programs
  ledger : Ledger
  stamps : Json
  crawl : Crawl
  queue : List Path
  maskDigit : Int
  deriving Inhabited

abbrev Work := ExceptT Fault (StateM Workspace)

namespace Work

def say (line : String) : Work Unit := modify fun w => { w with said := w.said ++ line ++ "\n" }

def giveUp (line : String) : Work α := throw (.stopped line)

def look (f : FileTree → Except Fault α) : Work α := do
  match f (← get).files with
  | .ok a => return a
  | .error e => throw e

def ask (f : FileTree → α) : Work α := do return f (← get).files

def change (f : FileTree → Except Fault FileTree) : Work Unit := do
  let files ← look f
  modify fun w => { w with files }

def bytes (p : Path) : Work (List UInt8) := look (·.bytes p)

def octets (p : Path) : Work (List Int) := do return (← bytes p).map fun b => (b.toNat : Int)

def text (p : Path) : Work String := look (·.text p)

def document (p : Path) : Work Json := do
  let s ← text p
  (Json.parse s : Except Fault Json)

def picture (p : Path) : Work Picture := look (·.picture p)

def writeBytes (p : Path) (bs : List UInt8) : Work Unit := change (·.write p (.data bs))

def writeText (p : Path) (s : String) : Work Unit := writeBytes p (Text.toUtf8 s)

/-- Stores a list of numbers as bytes. The file is there, and empty, before the numbers are looked
at. -/
def writeOctets (p : Path) (xs : List Json) : Work Unit := do
  writeBytes p []
  let bs ← (Json.octets xs : Except Fault (List UInt8))
  writeBytes p bs

/-- Stores a picture. The ending of the name says in which format, and only one is known; a picture
without pixels cannot be stored. -/
def writePicture (p : Path) (pic : Picture) : Work Unit := do
  if (Path.splitEnding p.name).2.map Char.toLower ≠ ".png" then throw .badValue
  if pic.width = 0 ∨ pic.height = 0 then throw .emptyPicture
  change (·.write p (.picture pic))

end Work

end ScummKit
