import ScummKit.Script.Assembler

/-!
# Layout

Every jump gets its offset: the number of bytes from behind the jump to the line its label stands at, in
the last two bytes of the jumping line.
-/

namespace ScummKit.Script.Layout

def span (lines : List Code) (start stop : Nat) : Except Fault Nat :=
  if stop ≤ start then .ok 0
  else if stop ≤ lines.length then
    .ok ((lines.drop start).take (stop - start)).flatten.length
  else .error .outOfRange

def offset (lines : List Code) (line target : Nat) : Except Fault Int :=
  if target ≤ line then return -((← span lines target (line + 1)) : Int)
  else return ((← span lines (line + 1) target) : Int)

def reach : Int := 0x7fff

def fill (code : Code) (bytes : Code) : Code := code.take (code.length - 2) ++ bytes

def setOffset (target : Nat) (lines : List Code) (line : Nat) : Except Fault (List Code) := do
  let d ← offset lines line target
  if d < -reach ∨ reach < d then
    throw (.compiling ("Jump is too large: " ++ toString d ++ " (meaningful line: " ++ toString line ++ ")"))
  match lines[line]? with
  | some code => return lines.set line (fill code (← Field.word d))
  | none => throw .outOfRange

def listed (lines : List Nat) : String := "[" ++ String.intercalate ", " (lines.map toString) ++ "]"

def setLabel (labels : List (String × Nat)) (lines : List Code) (jump : String × List Nat) : Except Fault (List Code) :=
  match Table.find? jump.1 labels with
  | some target => jump.2.foldlM (setOffset target) lines
  | none =>
    .error (.compiling ("Label does not exist: " ++ jump.1 ++ "  (affected meaningful lines: " ++ listed jump.2 ++ ")"))

def resolve (jumps : List (String × List Nat)) (labels : List (String × Nat)) (lines : List Code) : Except Fault (List Code) :=
  jumps.foldlM (setLabel labels) lines

def events (table : List (Int × String)) (labels : List (String × Nat)) (lines : List Code) :
    Except Fault (List (Int × Nat)) := do
  if table.isEmpty then throw (.script "An object/verb script must have an event table.")
  table.mapM fun (key, label) =>
    match Table.find? label labels with
    | some line => return (key, ← span lines 0 line)
    | none => throw (.script ("Verb action \"" ++ toString key ++ "\" cannot be mapped; label \"" ++ label ++ "\" not found."))

end ScummKit.Script.Layout
