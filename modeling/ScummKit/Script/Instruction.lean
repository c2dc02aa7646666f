import ScummKit.Script.Assembler

/-!
# Instructions

Most instructions are an operation byte, the variable that takes the result if there is one, then the
arguments. Each argument that may be a variable owns a bit of the operation byte, from the top down.
Both grammar and code are read off the signature.
-/

namespace ScummKit.Script

open Grammar

inductive Param where
  | byte
  | word
  | variable
  | fixed
  | list
  | text
  | textOrNothing
  deriving Repr, DecidableEq, Inhabited

structure Signature where
  name : String
  family : Family
  stores : Bool
  params : List Param
  deriving Repr, DecidableEq, Inhabited

namespace Signature

def call (name : String) (params : List Param) : Signature := ⟨name, .plain, false, params⟩

def query (name : String) (params : List Param) : Signature := ⟨name, .plain, true, params⟩

def part (family : Family) (name : String) (params : List Param) : Signature := ⟨name, family, false, params⟩

end Signature

def argumentBit (i : Nat) : Nat := 0x80 >>> i

def argumentName (i : Nat) : String := "arg" ++ toString (i + 1)

namespace Build

def argument (c : Capture) (i : Nat) (param : Param) (op : Nat) : Build (Code × Nat) := do
  let t := c.find? (argumentName i)
  match param with
  | .byte => marked t op (argumentBit i) .byte
  | .word => marked t op (argumentBit i) .word
  | .variable => return (← variableCode t, op)
  | .fixed => do
    match ← capture? t with
    | some inner => return (← lift ((fieldNumber (inner.find? "value")).bind Field.byte), op)
    | none => fail .absent
  | .list => return (← operandList t, op)
  | .text => return (← closedText t, op)
  | .textOrNothing => return (← closedText t, op)

def arguments (c : Capture) : Nat → List Param → Nat → Build (Code × Nat)
  | _, [], op => return ([], op)
  | i, p :: ps, op => do
    let (code, op) ← argument c i p op
    let (more, op) ← arguments c (i + 1) ps op
    return (code ++ more, op)

def instruction (op : Nat) (stores : Bool) (params : List Param) (c : Capture) : Build Code := do
  let target ← if stores then variableCode (c.find? "target") else pure []
  let (code, op) ← arguments c 0 params op
  return UInt8.ofNat op :: target ++ code

def opcode (family : Family) (name : String) : Build Nat := do
  lift (Opcode.code (← state).version family name)

def opcodeOf (family : Family) (c : Capture) : Build Nat := opcode family (textUnder c "function")

end Build

def Signature.action (s : Signature) : Action Assembler := fun _ c => do
  Build.emit (← Build.instruction (← Build.opcodeOf s.family c) s.stores s.params c)

end ScummKit.Script
