import ScummKit.Fault

/-!
# Fields of compiled code

A field takes both the signed and the unsigned reading of its bytes, so a byte ranges from -128 to 255.
A mask is laid over the number before it is cut to size.
-/

namespace ScummKit.Script

abbrev Code := List UInt8

namespace Field

/-- Whether a number is within the bounds of a field. The lower bound can be waived. -/
def allows (low high : Int) (clamp : Bool) (n : Int) : Bool := !(clamp && n < low) && n ≤ high

def masked (n : Int) (mask : Option Int) (bits : Nat) : Nat :=
  let cut (x : Int) : Nat := (x % (Nat.pow 2 bits : Nat)).toNat
  match mask with
  | some m => cut n ||| cut m
  | none => cut n

def byteWith (mask : Option Int) (clamp : Bool) (n : Int) : Except Fault Code :=
  if allows (-128) 255 clamp n then .ok [UInt8.ofNat (masked n mask 8)] else .error .outOfBounds

def wordWith (mask : Option Int) (clamp : Bool) (n : Int) : Except Fault Code :=
  if allows (-32768) 65535 clamp n then
    let v := masked n mask 16
    .ok [UInt8.ofNat (v % 256), UInt8.ofNat (v / 256)]
  else .error .outOfBounds

def doubleLow : Int := -21474836488

/-- The four bytes of a number whose upper half is empty. A number with bits in the upper half has no
such form. -/
def lowerHalf (v : Nat) : Except Fault Code :=
  if v / 65536 = 0 then .ok [UInt8.ofNat (v % 256), UInt8.ofNat (v / 256), 0, 0]
  else .error .badValue

def doubleWith (mask : Option Int) (clamp : Bool) (n : Int) : Except Fault Code :=
  if allows doubleLow 4294967295 clamp n then lowerHalf (masked n mask 32) else .error .outOfBounds

def byte (n : Int) : Except Fault Code := byteWith none true n

def word (n : Int) : Except Fault Code := wordWith none true n

end Field

end ScummKit.Script
