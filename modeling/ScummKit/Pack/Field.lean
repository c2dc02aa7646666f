import ScummKit.Word

/-!
# Numbers in blocks

A number alone is cut to its bytes and so is always stored; a record of several numbers is stored only
if every number fits its field.
-/

namespace ScummKit.Pack

def le (width : Nat) (n : Int) : List UInt8 := (Word.toLE width n).map fun b => UInt8.ofNat b.toNat

def be (width : Nat) (n : Int) : List UInt8 := (le width n).reverse

def ofLE : List UInt8 → Nat
  | [] => 0
  | b :: rest => b.toNat + 256 * ofLE rest

def ofBE (bytes : List UInt8) : Nat := ofLE bytes.reverse

/-! ### Records -/

inductive Field where
  | byte
  | word
  | signed
  deriving Repr, DecidableEq, Inhabited

namespace Field

def width : Field → Nat
  | .byte => 1
  | .word => 2
  | .signed => 2

def least : Field → Int
  | .signed => -0x8000
  | _ => 0

def greatest : Field → Int
  | .byte => 0xff
  | .word => 0xffff
  | .signed => 0x7fff

def pack (f : Field) (n : Int) : Except Fault (List UInt8) :=
  if f.least ≤ n ∧ n ≤ f.greatest then .ok (le f.width n) else .error .badLayout

def unpack (f : Field) (bytes : List UInt8) : Int :=
  let n : Int := ofLE bytes
  if n ≤ f.greatest then n else n - (Nat.pow 2 (8 * f.width) : Nat)

end Field

def packFields : List (Field × Int) → Except Fault (List UInt8)
  | [] => .ok []
  | (f, n) :: rest => do return (← f.pack n) ++ (← packFields rest)

/-- The numbers in the bytes of a record, of which there must be exactly as many as its fields have. -/
def unpackFields : List Field → List UInt8 → Except Fault (List Int)
  | [], [] => .ok []
  | [], _ => .error .badLayout
  | f :: rest, bytes =>
    if bytes.length < f.width then .error .badLayout
    else do return f.unpack (bytes.take f.width) :: (← unpackFields rest (bytes.drop f.width))

def widthOf (fields : List Field) : Nat := fields.foldr (fun f n => f.width + n) 0

end ScummKit.Pack
