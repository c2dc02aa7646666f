import ScummKit.Json.Basic

/-!
# Fixed-width integers

What does not fit is cut off, so a negative number is stored as its two's complement. Signed 16-bit
fields have a sign bit above fifteen value bits. Widths above 128 bytes are refused.
-/

namespace ScummKit.Word

def toLE : Nat → Int → List Int
  | 0, _ => []
  | n + 1, v => v % 256 :: toLE n (v / 256)

@[simp] theorem length_toLE (n : Nat) (v : Int) : (toLE n v).length = n := by
  induction n generalizing v with
  | zero => rfl
  | succ n ih => rw [toLE, List.length_cons, ih]

def toBE (n : Nat) (v : Int) : List Int := (toLE n v).reverse

def ofLE : List Int → Int
  | [] => 0
  | b :: rest => b + 256 * ofLE rest

def ofBE (bytes : List Int) : Int := ofLE bytes.reverse

def maxWidth : Nat := 128

/-- A number stored in `width` bytes, least significant first. A width of zero or less stores
nothing and asks nothing of the value. -/
def encodeLE (value : Json) (width : Int) : Except Fault (List Int) := do
  if width ≤ 0 then return []
  let v ← value.integer
  if maxWidth < width then throw .tooLarge
  return toLE width.toNat v

def encodeBE (value : Json) (width : Int) : Except Fault (List Int) := do
  if width ≤ 0 then return []
  if maxWidth < width then throw .tooLarge
  let v ← value.integer
  return toBE width.toNat v

def decodeLE (bytes : List Int) (width : Int) : Except Fault Int := do
  if width ≤ 0 then return 0
  if bytes.length < width ∧ bytes.length ≤ maxWidth then throw .outOfRange
  if maxWidth < width then throw .tooLarge
  return ofLE (bytes.take width.toNat)

def decodeBE (bytes : List Int) (width : Int) : Except Fault Int := do
  if width ≤ 0 then return 0
  if bytes.length < width then throw .outOfRange
  if maxWidth < width then throw .tooLarge
  return ofBE (bytes.take width.toNat)

def signedDecode (v : Int) : Int := v / 0x8000 % 2 * -0x8000 + v % 0x8000

/-- The 16-bit field of a signed number: bit 31 is the sign, the low fifteen bits the value. -/
def signedEncode (v : Int) : Int := v / 0x80000000 % 2 * 0x8000 + v % 0x8000

end ScummKit.Word
