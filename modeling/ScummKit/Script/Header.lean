import ScummKit.Script.Assembler

/-!
# Headers of compiled scripts

In front of the code stands a header: the size of the whole and a tag, for a room's own script its
number, and for an object its data, the table of its events and its name. The fifth generation keeps an
object's data elsewhere.
-/

namespace ScummKit.Script.Header

open Grammar

def tagBytes (s : String) : Code := s.toList.map fun c => UInt8.ofNat c.toNat

def sizeBytes (n : Nat) : Code :=
  [UInt8.ofNat n, UInt8.ofNat (n / 256), UInt8.ofNat (n / 65536), UInt8.ofNat (n / 16777216)]

def ordered (events : List (Int × Nat)) : List (Int × Nat) := events.mergeSort fun a b => a.1 ≤ b.1

def eventTable (base : Nat) (events : List (Int × Nat)) : Except Fault Code := do
  let rows ← (ordered events).mapM fun (key, place) => do
    return (← Field.byte key) ++ (← Field.word ((place : Int) + base))
  return rows.flatten ++ [0]

abbrev ObjectData := List (String × Token)

def ObjectData.number (data : ObjectData) (key : String) : Except Fault Int :=
  match Table.find? key data with
  | some t => Build.fieldNumber (some t)
  | none => .error (.missingKey key)

def ObjectData.name (data : ObjectData) : Except Fault Code :=
  match Table.find? "name" data with
  | some (.code bs) => .ok bs
  | some (.word s) => .ok (Escape.bytes s)
  | some _ => .error .wrongKind
  | none => .error (.missingKey "name")

def lowBits (n : Int) (size : Nat) : Nat := (n % (size : Int)).toNat

def objectFields (data : ObjectData) : Except Fault Code := do
  let id ← Field.word (← data.number "id")
  let unknown ← if Table.has "unknown" data then Field.byte (← data.number "unknown") else pure [0]
  let x ← Field.byte (← data.number "x-pos")
  let y ← data.number "y-pos"
  let state ← data.number "parent-state"
  let y ← Field.byte (lowBits y 0x80 ||| (state.toNat <<< 7) : Nat)
  let width ← Field.byte (← data.number "width")
  let parent ← Field.byte (← data.number "parent")
  let walkX ← Field.word (← data.number "walk-x")
  let walkY ← Field.word (← data.number "walk-y")
  let height ← data.number "height"
  let direction ← data.number "actor-dir"
  let height ← Field.byte ((lowBits height 0x100 / 8 * 8) ||| lowBits direction 8 : Nat)
  return id ++ unknown ++ x ++ y ++ width ++ parent ++ walkX ++ walkY ++ height

def objectPart (data : ObjectData) (events : List (Int × Nat)) : Except Fault (Code × Nat) := do
  if data.isEmpty then
    throw (.script "Object/Verb scripts for SCUMM V3 or V4 requires the #object-data information.")
  let fields ← objectFields data
  let name ← data.name
  let nameOffset := 19 + events.length * 3 + 1
  let nameField ← Field.byte nameOffset
  let codeOffset := nameOffset + name.length + 1
  let table ← eventTable codeOffset events
  return (fields ++ nameField ++ table ++ name ++ [0], codeOffset)

def eventPart (events : List (Int × Nat)) : Except Fault (Code × Nat) := do
  let codeOffset := 8 + events.length * 3 + 1
  return (← eventTable codeOffset events, codeOffset)

def body (version : Version) (kind : ScriptKind) (number : Option Code) (data : ObjectData)
    (events : List (Int × Nat)) : Except Fault (Code × Nat) :=
  let start := 4 + (kind.tag version).length
  match kind with
  | .object => if version = .v5 then eventPart events else objectPart data events
  | .room =>
    match number with
    | some n => .ok (n, start + 1)
    | none => .error .wrongKind
  | _ => .ok ([], start)

def write (version : Version) (kind : ScriptKind) (number : Option Code) (data : ObjectData)
    (events : List (Int × Nat)) (size : Nat) : Except Fault Code := do
  let (inner, start) ← body version kind number data events
  let total := sizeBytes (size + start)
  let tag := tagBytes (kind.tag version)
  return (if version = .v5 then tag ++ total.reverse else total ++ tag) ++ inner

end ScummKit.Script.Header
