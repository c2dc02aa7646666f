import ScummKit.Script.Field

/-!
# Variables and operands

A variable is written as a word: bit 15 marks a bit variable, bit 14 a script's own, and bit 13 says
that an offset follows. Inside an offset bit 13 marks a variable.
-/

namespace ScummKit.Script

inductive Scope where
  | script
  | bit
  | global
  deriving Repr, DecidableEq, Inhabited

def Scope.ofText? : String → Option Scope
  | "Local" => some .script
  | "Bit" => some .bit
  | "Var" => some .global
  | _ => none

def Scope.word : Scope → Int → Nat
  | .script, n => (n % 0x100).toNat ||| 0x4000
  | .bit, n => (n % 0x8000).toNat ||| 0x8000
  | .global, n => (n % 0x2000).toNat

mutual

inductive Variable where
  | at (scope : Scope) (place : Int)
  | indexed (scope : Scope) (base : Int) (offset : Operand)

inductive Operand where
  | variable (v : Variable)
  | constant (n : Int)

end

instance : Inhabited Variable := ⟨.at .global 0⟩

instance : Inhabited Operand := ⟨.constant 0⟩

def indirection : Nat := 0x2000

mutual

/-- The bytes of a variable. `inside` says whether it is the offset of another one; a bit variable
has no form there. -/
def Variable.encode (inside : Bool) : Variable → Except Fault Code
  | .at scope place =>
    match inside, scope with
    | true, .bit => .error .unset
    | true, _ => Field.word (scope.word place ||| indirection : Nat)
    | false, _ => Field.word (scope.word place)
  | .indexed scope base offset => do
    let behind ← offset.encodeOffset
    return (← Field.word (scope.word base ||| indirection : Nat)) ++ behind

def Operand.encodeOffset : Operand → Except Fault Code
  | .variable v => v.encode true
  | .constant n => Field.word n

end

inductive Width where
  | byte
  | word
  deriving Repr, DecidableEq, Inhabited

def Operand.encode (width : Width) : Operand → Except Fault Code
  | .variable v => v.encode false
  | .constant n =>
    match width with
    | .byte => Field.byte n
    | .word => Field.word n

def Operand.isVariable : Operand → Bool
  | .variable _ => true
  | .constant _ => false

def Operand.mark (bit : Nat) (o : Operand) (op : Nat) : Nat := if o.isVariable then op ||| bit else op

end ScummKit.Script
