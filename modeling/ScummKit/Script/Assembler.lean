import ScummKit.Grammar.Matcher
import ScummKit.Script.Escape
import ScummKit.Script.KnownVariable
import ScummKit.Script.Opcode
import ScummKit.Script.Operand

/-!
# The state of a compilation

Jumps stay symbolic while lines are read: the assembler notes which line jumps to which label and at
which line a label stands. All of this stays noted when the construct is given up afterwards.
-/

namespace ScummKit.Script

open Grammar

structure Branch where
  line : Nat
  label : String
  deriving Repr, Inhabited

structure IfBlock where
  start : Nat
  branches : List Branch
  count : Nat
  deriving Repr, Inhabited

structure Loop where
  start : Nat
  step : Option Token
  deriving Inhabited

structure Assembler where
  version : Version
  line : Nat
  jumps : List (String × List Nat)
  labels : List (String × Nat)
  ifBlock : Option IfBlock
  outer : List (Option IfBlock)
  loops : List Loop
  kind : Option ScriptKind
  definitions : List (String × Nat)
  words : List String
  known : List String
  events : List (Int × String)
  objectData : List (String × Token)
  number : Option Code
  deriving Inhabited

def Assembler.start (v : Version) (words known : List String) : Assembler where
  version := v
  line := 0
  jumps := []
  labels := []
  ifBlock := none
  outer := []
  loops := []
  kind := none
  definitions := []
  words := words
  known := known
  events := []
  objectData := []
  number := none

abbrev Build (α : Type) := Run Assembler α

namespace Build

def fail (f : Fault) : Build α := throw (.fault f)

def lift (x : Except Fault α) : Build α :=
  match x with
  | .ok a => return a
  | .error f => fail f

def state : Build Assembler := return (← get).user

def update (f : Assembler → Assembler) : Build Unit := modify fun m => { m with user := f m.user }

def noteJump (label : String) (line : Nat) : Build Unit :=
  update fun a =>
    let before := (Table.find? label a.jumps).getD []
    { a with jumps := Table.put label (before ++ [line]) a.jumps }

def setJump (label : String) (line : Nat) : Build Unit :=
  update fun a => { a with jumps := Table.put label [line] a.jumps }

def noteLabel (label : String) (line : Nat) : Build Unit :=
  update fun a => { a with labels := Table.put label line a.labels }

def nextLine : Build Unit := update fun a => { a with line := a.line + 1 }

/-- Settles what the script is for. It cannot be two things. -/
def setKind (kind : ScriptKind) : Build Unit := do
  let a ← state
  match a.kind with
  | some old =>
    if old ≠ kind then
      fail (.script ("Conflicting script type info: old type = " ++ old.tag a.version ++ ", new type = " ++ kind.tag a.version))
  | none => pure ()
  update fun a => { a with kind := some kind }

/-! ### Reading captures -/

/-- The capture behind a token. Plain text has none. -/
def capture? : Option Token → Build (Option Capture)
  | some (.group ts ns) => return some ⟨ts, ns⟩
  | some (.shared i) => return some ((← get).store.fetch i)
  | _ => return none

def plainText : Token → Option String
  | .word s => some s
  | .code bs => some (String.ofList (bs.map fun b => Char.ofNat b.toNat))
  | _ => none

/-- The text under a name. A name without one stands for the empty text. -/
def textUnder (c : Capture) (name : String) : String := ((c.find? name).bind plainText).getD ""

/-- The number a token denotes where a field is to be filled. A capture is larger than any field. -/
def fieldNumber : Option Token → Except Fault Int
  | none => Numeral.read 10 ""
  | some t =>
    match plainText t with
    | some s => Numeral.read 10 s
    | none => .error .outOfBounds

/-- The number a token denotes. A capture is no number. -/
def wholeNumber : Option Token → Except Fault Int
  | none => Numeral.read 10 ""
  | some t =>
    match plainText t with
    | some s => Numeral.read 10 s
    | none => .error .wrongKind

def codeOf : Token → Build Code
  | .word s => return Escape.bytes s
  | .code bs => return bs
  | _ => fail .wrongKind

def joined (ts : List Token) : Build Code := do
  return (← ts.mapM codeOf).flatten

def isVariable (c : Capture) : Bool := c.has "kind" || c.has "known"

def knownPlace (name : String) : Except Fault Int :=
  match Table.find? name KnownVariable.fifth with
  | some n => .ok n
  | none => .error (.missingKey name)

def variableOf : Nat → Capture → Build Variable
  | 0, _ => fail .unset
  | depth + 1, c => do
    match c.find? "known" with
    | some name =>
      return .at .global (← lift (knownPlace ((plainText name).getD "")))
    | none =>
      let scope := Scope.ofText? (textUnder c "kind")
      match ← capture? (c.find? "value") with
      | some place => do
        let offset := (← capture? (place.find? "offset")).getD .empty
        let behind ← if isVariable offset then
            pure (Operand.variable (← variableOf depth offset))
          else pure (Operand.constant (← lift (fieldNumber (offset.find? "value"))))
        match scope with
        | some s => return .indexed s (← lift (wholeNumber (place.find? "base"))) behind
        | none => fail .unset
      | none =>
        match scope with
        | some s => return .at s (← lift (wholeNumber (c.find? "value")))
        | none => fail .unknownKind

def offsetDepth : Nat := 100000

def variableAt (t : Option Token) : Build Variable := do
  match ← capture? t with
  | some c => variableOf offsetDepth c
  | none => fail .absent

def variableCode (t : Option Token) : Build Code := do
  lift ((← variableAt t).encode false)

def operand (t : Option Token) : Build Operand := do
  match ← capture? t with
  | some c =>
    if isVariable c then return .variable (← variableOf offsetDepth c)
    else return .constant (← lift (fieldNumber (c.find? "value")))
  | none => fail .absent

/-- The bytes of the operand behind a token, and an operation byte marked for it. -/
def marked (t : Option Token) (op bit : Nat) (width : Width) : Build (Code × Nat) := do
  let o ← operand t
  return (← lift (o.encode width), o.mark bit op)

/-- The operands of a list: each has a byte of its own in front, and a byte closes the list. -/
def operandList (t : Option Token) : Build Code := do
  let items := match ← capture? t with
    | some c => c.tokens
    | none => []
  let codes ← items.mapM fun item => do
    let (code, aux) ← marked (some item) 0x01 0x80 .word
    return UInt8.ofNat aux :: code
  return codes.flatten ++ [0xff]

/-- A text closed by a zero byte. A capture that was never made into code cannot be closed. -/
def closedText (t : Option Token) : Build Code :=
  match t with
  | none => return [0]
  | some (.code bs) => return bs ++ [0]
  | some (.word s) => return Escape.bytes s ++ [0]
  | some _ => fail .absent

def emit (code : Code) : Build Reply := return .tokens [.code code]

end Build

end ScummKit.Script
