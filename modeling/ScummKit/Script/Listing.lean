import ScummKit.Path

/-!
# Script listings

Slips of the decompiler are repaired before a listing is stored. Before it is compiled again, escapes
for bytes are replaced by the bytes.
-/

namespace ScummKit.Script

/-! ### What a script is for -/

inductive Role where
  | global
  | room
  | enter
  | leave
  | object
  | unknown
  deriving Repr, DecidableEq, Inhabited

namespace Role

def label : Role → String
  | .global => "global"
  | .room => "local"
  | .enter => "enter"
  | .leave => "exit"
  | .object => "object"
  | .unknown => "unknown"

def ofLabel (s : String) : Role := ([global, room, enter, leave, object].find? (·.label = s)).getD .unknown

def ofName (name : String) : Role :=
  if Text.starts name "SC" ∨ Text.starts name "_SC" then .global
  else if Text.starts name "LS" then .room
  else if Text.starts name "EN" then .enter
  else if Text.starts name "EX" then .leave
  else if Text.starts name "OC" ∨ Text.starts name "VERB" then .object
  else .unknown

def notice? (role : Role) (file : Path) : Option String :=
  if role = .unknown then some s!"Error: file {file.text} of unrecognized script type" else none

def ending (role : Role) (version : String) : String :=
  match role, version with
  | .unknown, _ => ""
  | .room, "4" => ".LS"
  | .room, "5" => ".LSCR"
  | .object, "4" => ".OC"
  | .object, "5" => ".VERB"
  | _, "4" => ".SC"
  | _, "5" => ".SCRP"
  | _, _ => ""

/-- The tag that belongs in the header of a script compiled under another one, and where it
stands. -/
def tag? : Role → String → Option (Nat × List Int)
  | .enter, "4" => some (4, [0x45, 0x4e])
  | .leave, "4" => some (4, [0x45, 0x58])
  | .enter, "5" => some (0, [0x45, 0x4e, 0x43, 0x44])
  | .leave, "5" => some (0, [0x45, 0x58, 0x43, 0x44])
  | _, _ => none

def retag (role : Role) (version : String) (code : List Int) : List Int :=
  match role.tag? version with
  | some (start, tag) => code.take start ++ tag ++ code.drop (start + tag.length)
  | none => code

/-- A compiled script under its own tag, where the script is a string of bytes. A tag cannot be put
into one. -/
def retagBytes (role : Role) (version : String) (code : List UInt8) : Except Fault (List UInt8) :=
  if (role.tag? version).isSome then .error .wrongKind else .ok code

end Role

namespace Listing

/-! ### Repairs -/

/-- Slips of the decompiler and what was meant: wrong names, commas before an opening bracket
instead of after it, and joined strings without a sign between them. -/
def slips : List (String × String) :=
  [("unknown8(8224)", "newline()"), ("VAR_TIMER_TOTAL", "VAR_TMR_4"), ("setXY(,", ", setXY("), ("setImage(,", ", setImage("),
   (")newline(", ") + newline("), (")wait(", ") + wait("), (")keepText(", ") + keepText("),
   (")getInt(", ") + getInt("), (")getName(", ") + getName("), (")getVerb(", ") + getVerb("),
   (")getString(", ") + getString(")]

def repair (script : String) : String := Text.swapAll script slips

/-! ### Functions of objects -/

def verbs4 : List (String × String) :=
  [("1", "open"), ("2", "close"), ("3", "give"), ("4", "turn_on"), ("5", "turn_off"),
   ("6", "push"), ("7", "pull"), ("8", "use"), ("9", "look_at"), ("A", "walk_to"),
   ("B", "pick_up"), ("D", "talk_to"), ("50", "receive_item"), ("5A", "highlight_with_cursor"),
   ("FF", "default")]

def verbs5 : List (String × String) :=
  [("2", "open"), ("3", "close"), ("4", "give"), ("5", "push"), ("6", "pull"), ("7", "use"),
   ("8", "look_at"), ("9", "pick_up"), ("A", "talk_to"), ("B", "walk_to"), ("50", "receive_item"),
   ("5A", "highlight_with_cursor"), ("5B", "set_inventory_icon"), ("FF", "default")]

def verbs : String → List (String × String)
  | "4" => verbs4
  | "5" => verbs5
  | _ => []

/-- Names the functions that the first lines of a listing assign to verbs: a number, a dash and a label,
which is replaced wherever it occurs. -/
def nameFunctions (verbs : List (String × String)) : List String → String → Except Fault String
  | [], script => .ok script
  | line :: rest, script =>
    if Text.has line "Events:" then nameFunctions verbs rest script
    else
      match Text.split (Text.strip line) ' ' with
      | number :: "-" :: more =>
        match verbs.lookup number with
        | some verb =>
          match more with
          | label :: _ => nameFunctions verbs rest (Text.swap script label verb)
          | [] => .error .outOfRange
        | none => nameFunctions verbs rest script
      | _ => .ok script

def nameEvents (version script : String) : Except Fault String :=
  nameFunctions (verbs version) (Text.lines script) script

def fillEmpty (script : String) : String :=
  if script = "Events\nEND\n" then
    "Events\n    FF - default\n[default] stopObjectCode()\nEND\n"
  else script

def shownBytes : List (UInt8 × String) := [(0x88, "\\x88"), (0x82, "\\x82"), (0x0f, "\\x0F"), (0x07, "\\x07")]

def describe (description : List UInt8) (script : String) : Except Fault String := do
  let shown := shownBytes.foldl (fun bs e => Text.replace [e.1] (Text.toUtf8 e.2) bs) description
  return (← Text.ofUtf8 shown) ++ script

/-! ### Escapes for bytes -/

/-- The two characters after each escape for a byte, from the left and without overlap. A line feed
is no part of an escape. -/
def escapes : List Char → List (Char × Char)
  | '\\' :: 'x' :: a :: b :: rest =>
    if a = '\n' then escapes (a :: b :: rest)
    else if b = '\n' then escapes ('x' :: a :: b :: rest)
    else (a, b) :: escapes rest
  | _ :: rest => escapes rest
  | [] => []
termination_by cs => cs.length

def isGap (c : Char) : Bool := c = ' ' || (9 ≤ c.toNat && c.toNat ≤ 13)

def pairBytes (a b : Char) : Except Fault (List UInt8) :=
  if isGap a && isGap b then .ok []
  else match Numeral.digit? 16 a, Numeral.digit? 16 b with
    | some x, some y => .ok [UInt8.ofNat (x * 16 + y)]
    | _, _ => .error .badValue

/-- Replaces escapes by their bytes, one escape after the other wherever it occurs by then. -/
def applyEscapes : List (Char × Char) → List UInt8 → Except Fault (List UInt8)
  | [], bytes => .ok bytes
  | (a, b) :: rest, bytes => do
    let new ← pairBytes a b
    applyEscapes rest (Text.replace (Text.toUtf8 (String.ofList ['\\', 'x', a, b])) new bytes)

/-- A listing as the compiler takes it: in UTF-8, with bytes for escapes. One escape stands for a
blank. -/
def unescape (script : String) : Except Fault (List UInt8) :=
  let script := Text.swap script "\\xFA" " "
  applyEscapes (escapes script.toList) (Text.toUtf8 script)

end Listing

end ScummKit.Script
