import ScummKit.Pack.Cipher
import ScummKit.Pack.Field
import ScummKit.Pack.Game
import ScummKit.Pack.Index
import ScummKit.Pack.Resource
import ScummKit.Tool.Report
import ScummKit.Xml.Printer
import ScummKit.Xml.Reader

/-!
# Jobs

A job of the packer reads and writes files, fills the tables of the index and keeps a log. One file at a
time is open, at a position. A job that fails keeps what it did before it failed.
-/

namespace ScummKit.Pack

structure State where
  files : FileTree
  log : List (Tool.Level × String)
  out : String
  game : String
  format : Format
  tables : Tables Int
  counters : Counters
  disk : Int
  resource : Resource
  deriving Inhabited

abbrev Job := ExceptT Fault (StateM State)

namespace Job

def log (level : Tool.Level) (text : String) : Job Unit := modify fun s => { s with log := s.log ++ [(level, text)] }

def say (line : String) : Job Unit := modify fun s => { s with out := s.out ++ line ++ "\n" }

def format : Job Format := do return (← get).format

def ofExcept (r : Except Fault α) : Job α :=
  match r with
  | .ok a => return a
  | .error f => throw f

/-! ### Files -/

def isFolder (path : String) : Job Bool := do
  return (← get).files.isFolder (Path.ofText path)

def isFile (path : String) : Job Bool := do
  return (← get).files.isFile (Path.ofText path)

def list (path : String) : Job (List String) := do
  ofExcept ((← get).files.list (Path.ofText path))

def bytes (path : String) : Job (List UInt8) := do
  ofExcept ((← get).files.bytes (Path.ofText path))

/-- Stores a file. A name cannot hold a zero. -/
def store (path : String) (bs : List UInt8) : Job Unit := do
  if path.toList.contains '\x00' then throw .wrongKind
  let files ← ofExcept ((← get).files.write (Path.ofText path) (.data bs))
  modify fun s => { s with files }

def ensureFolder (path : String) : Job Unit := do
  if path.toList.contains '\x00' then throw .wrongKind
  if ← isFolder path then return
  let files ← ofExcept ((← get).files.makeFolder (Path.ofText path))
  modify fun s => { s with files }

def xml (path : String) : Job Xml.Element := do
  ofExcept (Xml.parse (← bytes path))

def storeXml (path : String) (root : Xml.Element) : Job Unit := store path (Text.toUtf8 (root.indent 0).render)

/-! ### The open file -/

def openBytes (data : List UInt8) : Job Unit := modify fun s => { s with resource := .start data }

def openFile (path : String) (key : Option UInt8) : Job Unit := do
  openBytes (Cipher.bytes key (← bytes path))

def tell : Job Int := do return (← get).resource.pos

def seek (p : Int) : Job Unit := do
  let resource ← ofExcept ((← get).resource.seek p)
  modify fun s => { s with resource }

def skip (n : Int) : Job Unit := do seek ((← tell) + n)

def take (n : Nat) : Job (List UInt8) := do
  let (bs, resource) := (← get).resource.take n
  modify fun s => { s with resource }
  return bs

def takeAll (n : Int) : Job (List UInt8) := do
  let bs ← take n.toNat
  if bs.length < n.toNat then throw .endOfData
  return bs

def number (width : Nat) : Job Int := do return ofLE (← take width)

def record (fields : List Field) : Job (List Int) := do
  ofExcept (unpackFields fields (← take (widthOf fields)))

def emit (bs : List UInt8) : Job Unit := modify fun s => { s with resource := s.resource.write bs }

def attempt (job : Job α) : Job (Except Fault α) := tryCatch (do return .ok (← job)) fun f => return .error f

/-- Stores what a job writes in a file. The file is there from the start, and keeps what was written
before the job failed. -/
def storing (path : String) (key : Option UInt8) (job : Job Unit) : Job Unit := do
  store path []
  openBytes []
  let result ← attempt job
  store path (Cipher.bytes key (← get).resource.data)
  ofExcept result

/-! ### The index -/

def note (table : String) (key : Key) (v : Int) : Job Unit := do
  let tables ← ofExcept ((← get).tables.store table key v)
  modify fun s => { s with tables }

def find (table : String) (key : Key) : Job Int := do
  ofExcept ((← get).tables.fetch table key)

def find? (job : Job α) : Job (Option α) := do
  match ← attempt job with
  | .ok a => return some a
  | .error (.unlisted _) => return none
  | .error f => throw f

def roomAt (start : Int) : Job Int := do
  let s ← get
  find s.format.volumeName (.place s.disk start)

def roomStart (room : Int) : Job Int := do
  find (← format).roomName (.number room)

def nextUnknown (table : String) : Job Nat := do
  let (n, counters) ← ofExcept ((← get).counters.next table)
  modify fun s => { s with counters }
  return n

end Job

end ScummKit.Pack
