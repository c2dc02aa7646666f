import ScummKit.Script.Instruction

/-!
# Words of the language

Numbers, variables, lists and texts, and how a call is written.
-/

namespace ScummKit.Script

open Grammar

inductive Rule where
  | variable
  | block
  | expression
  deriving Repr, DecidableEq, Inhabited

abbrev Syn := Pattern Rule Assembler

namespace Lexicon

def mark (s : String) : Syn := .drop (.literal s)

def delimited (p : Syn) : Syn := .seq [p, .many (.seq [mark ",", p])]

def isHex (c : Char) : Bool := c.isDigit || ('a' ≤ c && c ≤ 'f') || ('A' ≤ c && c ≤ 'F')

def isName (c : Char) : Bool := c.isAlphanum || c = '_'

def unsigned : Syn := .word Char.isDigit Char.isDigit

/-- A number. The sign alone passes here and is refused when its value is asked for. -/
def int : Syn := .word (fun c => c.isDigit || c = '-') Char.isDigit

def hexNumber : Syn := .seq [mark "0x", .atMost 8 isHex]

def label : Syn := .word isName isName

def definedAction : Action Assembler := fun _ c => do
  match c.tokens with
  | t :: _ =>
    let name := (Build.plainText t).getD ""
    match Table.find? name (← Build.state).definitions with
    | some i => return .shared i
    | none => Build.fail (.script ("Unknown variable name: " ++ name))
  | [] => Build.fail .outOfRange

def defined : Syn := .act definedAction (.apart (.oneOf Assembler.words))

def known : Syn := .apart (.named "known" (.oneOf Assembler.known))

def constant (name : String) : Syn := .named name (.first [int, defined])

def variableRef : Syn := .rule .variable false

def operand : Syn := .first [variableRef, constant "value"]

def indexPointer : Syn := .group (.seq [.named "base" unsigned, .literal "+", .named "offset" (.group operand)])

def inScope (scope : String) : Syn :=
  .seq [.named "kind" (.literal scope), mark "[", .named "value" (.apart (.apart (.first [indexPointer, unsigned]))), mark "]"]

def variableRule : Syn := .first [inScope "Local", inScope "Bit", inScope "Var", known, defined]

def operandList : Syn := .seq [mark "[", .opt (delimited (.group operand)), mark "]"]

/-! ### Texts -/

def textFunctionHead (c : Capture) : Build Code := do
  let op ← Build.lift (Opcode.find Opcode.textFunctions (Build.textUnder c "function"))
  return [UInt8.ofNat Opcode.textMark, UInt8.ofNat op]

def textPlain : Action Assembler := fun _ c => do
  Build.emit (← textFunctionHead c)

def textOfVariable : Action Assembler := fun _ c => do
  let head ← textFunctionHead c
  Build.emit (head ++ (← Build.variableCode (c.find? "arg1")))

def textOfWord : Action Assembler := fun _ c => do
  let head ← textFunctionHead c
  let value ← Build.lift ((Build.fieldNumber (c.find? "arg1")).bind Field.word)
  Build.emit (head ++ value)

/-- Half of the sound function: a number in two calls of two bytes each. -/
def soundHalf (head : Code) (n : Int) : Except Fault Code := do
  match ← Field.lowerHalf (n % 4294967296).toNat with
  | [a, b, c, d] => return head ++ [a, b] ++ head ++ [c, d]
  | _ => throw .badValue

def soundNumber (s : String) : Except Fault Int := if s.startsWith "0x" then Numeral.read 16 s else Numeral.read 10 s

def textSound : Action Assembler := fun _ c => do
  let head ← textFunctionHead c
  let first ← Build.lift ((soundNumber (Build.textUnder c "arg1")).bind (soundHalf head))
  let second ← Build.lift ((soundNumber (Build.textUnder c "arg2")).bind (soundHalf head))
  Build.emit (first ++ second)

def textCall (name : String) (args : List Syn) : Syn :=
  .seq ([.named "function" (.literal name), mark "("] ++ args ++ [mark ")"])

/-- The functions that can stand inside a text. `acting` says whether they are compiled. -/
def textFunctions (acting : Bool) : List Syn :=
  let compiled (f : Action Assembler) (p : Syn) : Syn := if acting then .act f p else p
  let plain (name : String) := compiled textPlain (textCall name [])
  let ofVariable (name : String) :=
    compiled textOfVariable (textCall name [.named "arg1" (.group variableRef)])
  let ofWord (name : String) := compiled textOfWord (textCall name [constant "arg1"])
  [plain "newline", plain "keepText", plain "wait",
   ofVariable "getInt", ofVariable "getVerb", ofVariable "getName", ofVariable "getString",
   ofWord "startAnim",
   compiled textSound (textCall "sound"
     [.named "arg1" (.first [hexNumber, int]), mark ",", .named "arg2" (.first [hexNumber, int])]),
   ofWord "setColor", ofWord "setFont"]

def unquoted (s : String) : List Char := (s.toList.drop 1).dropLast

def quotedAction (legacy : Bool) : Action Assembler := fun _ c => do
  match c.tokens with
  | t :: _ =>
    let inner := unquoted ((Build.plainText t).getD "")
    Build.emit (← Build.lift (if legacy then Escape.legacy inner else Escape.current inner))
  | [] => Build.fail .outOfRange

def joinAction : Action Assembler := fun _ c => do
  Build.emit (← Build.joined c.tokens)

def textWith (quotedPiece : Syn) (acting : Bool) : Syn :=
  let piece : Syn := .first [quotedPiece, .first (textFunctions acting)]
  .seq [piece, .opt (.some (.seq [mark "+", piece]))]

def text (legacy : Bool) : Syn := .act joinAction (textWith (.act (quotedAction legacy) .quoted) true)

def innerAction : Action Assembler := fun _ c => do
  match c.tokens with
  | .group (t :: _) _ :: _ => return .tokens [t]
  | _ => Build.fail .outOfRange

def textUnder (legacy : Bool) (name : String) : Syn := .named name (.act innerAction (.group (text legacy)))

/-! ### Calls -/

def argument (textArgument : String → Syn) (name : String) : Param → Syn
  | .byte => .named name (.group operand)
  | .word => .named name (.group operand)
  | .variable => .named name (.group variableRef)
  | .fixed => .named name (.group (constant "value"))
  | .list => .named name operandList
  | .text => textArgument name
  | .textOrNothing => .opt (textArgument name)

def arguments (textArgument : String → Syn) : Nat → List Param → List Syn
  | _, [] => []
  | 0, p :: ps => argument textArgument (argumentName 0) p :: arguments textArgument 1 ps
  | i + 1, p :: ps =>
    mark "," :: argument textArgument (argumentName (i + 1)) p :: arguments textArgument (i + 2) ps

def target : List Syn := [.named "target" (.group variableRef), mark "="]

def call (textArgument : String → Syn) (s : Signature) : Syn :=
  .seq ((if s.stores then target else []) ++ [.named "function" (.literal s.name), mark "("]
    ++ arguments textArgument 0 s.params ++ [mark ")"])

end Lexicon

end ScummKit.Script
