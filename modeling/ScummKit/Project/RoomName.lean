import ScummKit.Workspace.Basic

/-!
# Names of rooms

The packer numbers the folders of rooms and lists the names of rooms in a file. The names are put
behind the numbers, so that folders can be told apart.
-/

namespace ScummKit.RoomName

def lastAt? (pattern : List Char) : List Char → Option Nat
  | [] => if pattern.isEmpty then some 0 else none
  | c :: rest =>
    match lastAt? pattern rest with
    | some i => some (i + 1)
    | none => if pattern.isPrefixOf (c :: rest) then some 0 else none

/-- The texts between two marks, from the left and without overlap. A text ends at the last closing mark
of the line it starts on. -/
def between (start stop : List Char) : Nat → List Char → List (List Char)
  | 0, _ => []
  | _, [] => []
  | fuel + 1, c :: rest =>
    if start.isPrefixOf (c :: rest) then
      let after := (c :: rest).drop start.length
      match lastAt? stop (after.takeWhile (· ≠ '\n')) with
      | some i => after.take i :: between start stop fuel (after.drop (i + stop.length))
      | none => between start stop fuel rest
    else between start stop fuel rest

def contents (tag s : String) : List String :=
  (between ("<" ++ tag ++ ">").toList ("</" ++ tag ++ ">").toList (s.length + 1) s.toList).map String.ofList

/-- The names of rooms by number. The first name belongs to the first number, the second to the
second, and so on; of two names for a number the last counts. -/
def tableOf : List String → List String → List (Int × String) → Except Fault (List (Int × String))
  | [], _, table => .ok table
  | _ :: _, [], _ => .error .outOfRange
  | id :: ids, name :: names, table => do
    tableOf ids names (Table.put (← Numeral.read 10 id) (Text.swap name "-" "_") table)

def read (s : String) : Except Fault (List (Int × String)) := tableOf (contents "id" s) (contents "name" s) []

def folders (game : String) : List String :=
  match game with
  | "MI1CD" => ["MONKEY1/LECF"]
  | "MI2" => ["MONKEY2/LECF"]
  | "MI1EGA" | "MI1VGA" => ["DISK01/LE", "DISK02/LE", "DISK03/LE", "DISK04/LE"]
  | _ => []

def newName (table : List (Int × String)) (name : String) : Except Fault String := do
  let number ← Numeral.read 10 (String.ofList (Position.onward name.toList (-3)))
  match Table.find? number table with
  | some room => return name ++ "_" ++ room
  | none => throw (.missingKey (toString number))

open Work in
def renameIn (table : List (Int × String)) (folder : Path) : Work Unit := do
  if ← ask (·.isFolder folder) then
    (← look (·.list folder)).forM fun name => do
      let p := folder.join name
      if ← ask (·.isFolder p) then
        let new ← (newName table name : Except Fault String)
        change (·.move p (folder.join new))

open Work in
def add (root : Path) (game : String) : Work Unit := do
  let table ← (read (← text (root.join "roomnames.xml")) : Except Fault (List (Int × String)))
  (folders game).forM fun folder => renameIn table (root.join folder)

end ScummKit.RoomName
