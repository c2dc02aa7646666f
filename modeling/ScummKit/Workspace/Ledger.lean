import ScummKit.Workspace.Basic

/-!
# Time stamps

A file needs work if it was changed since the ledger's time for it, or if the ledger does not know it.
The table may have been edited by hand, so what is found in it may be of any kind.
-/

namespace ScummKit.Work

def stamps : Work Json := do
  let w ← get
  return w.ledger.own.getD w.stamps

def setStamps (table : Json) : Work Unit := modify fun w =>
  match w.ledger.own with
  | some _ => { w with ledger := { w.ledger with own := some table } }
  | none => { w with stamps := table }

def openLedger (root : Path) : Work Unit := modify fun w => { w with ledger := ⟨root, none, false⟩ }

def stampName (p : Path) : Work String := do
  let rel ← (p.relativeTo (← get).ledger.root : Except Fault Path)
  return rel.text

def latest (files : FileTree) (folder : Path) : Except Fault Int := do
  (← files.list folder).foldlM (fun most name => do
    return max most (← files.get (folder.join name)).time) 0

/-- When a file was last changed. A folder is as new as its newest entry. -/
def timeOf (p : Path) : Work Json := do
  if ← ask (·.isFolder p) then
    let t ← look fun files => latest files p
    return if t = 0 then .int 0 else .real ⟨t < 0, t.natAbs, 0⟩
  else
    let t := (← look (·.get p)).time
    return .real ⟨t < 0, t.natAbs, 0⟩

def withField (key : String) (v : Json) : Json → Except Fault Json
  | .record fields => .ok (.record (Table.put key v fields))
  | _ => .error .wrongKind

def stamp (p : Path) : Work Unit := do
  let name ← stampName p
  let time ← timeOf p
  let table ← (withField name time (← stamps) : Except Fault Json)
  setStamps table
  modify fun w => { w with ledger := { w.ledger with changed := true } }

/-- Whether a name is in a table: a field of a record, an item of a list, or a part of a text. -/
def knows (name : String) : Json → Except Fault Bool
  | .record fields => .ok (Table.has name fields)
  | .list items => .ok (items.any (·.isText name))
  | .text s => .ok (Text.has s name)
  | _ => .error .wrongKind

def later (time : Json) : Json → Except Fault Bool
  | .notANumber => .ok false
  | .infinite negative => .ok negative
  | logged => do
    return (← logged.ratio).less (← time.ratio)

def outdated (p : Path) : Work Bool := do
  let name ← stampName p
  let table ← stamps
  if !(← (knows name table : Except Fault Bool)) then return true
  let logged ← (table.field name : Except Fault Json)
  let time ← timeOf p
  (later time logged : Except Fault Bool)

def touch (p : Path) : Work Unit := do
  if ← outdated p then stamp p

def stampFile : Work Path := do return (← get).ledger.root.join "timestamps.json"

def loadStamps : Work Unit := do
  let p ← stampFile
  if ← ask (·.has p) then
    let table ← document p
    modify fun w => { w with ledger := { w.ledger with own := some table } }

def saveStamps : Work Unit := do
  writeText (← stampFile) (Json.pretty 0 (← stamps))

end ScummKit.Work
