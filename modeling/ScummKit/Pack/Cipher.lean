import ScummKit.Json.Basic

/-!
# The cipher of game files

Game files are enciphered by a key that is combined with every byte by exclusive or. The same step
deciphers them again.
-/

namespace ScummKit.Pack.Cipher

def bytes : Option UInt8 → List UInt8 → List UInt8
  | none, bs => bs
  | some key, bs => bs.map (· ^^^ key)

/-- The exclusive or of two numbers, each an endless row of bits. -/
def xor : Int → Int → Int
  | .ofNat m, .ofNat n => (m ^^^ n : Nat)
  | .ofNat m, .negSucc n => .negSucc (m ^^^ n)
  | .negSucc m, .ofNat n => .negSucc (m ^^^ n)
  | .negSucc m, .negSucc n => (m ^^^ n : Nat)

theorem bytes_bytes (key : Option UInt8) (bs : List UInt8) : bytes key (bytes key bs) = bs := by
  cases key with
  | none => rfl
  | some k =>
    simp only [bytes, List.map_map]
    refine (List.map_congr_left fun b _ => ?_).trans (List.map_id bs)
    rw [Function.comp_apply, UInt8.xor_assoc, UInt8.xor_self, UInt8.xor_zero, id]

/-! ### Values of any kind -/

def character (n : Int) : Except Fault Char :=
  if n < -0x80000000 ∨ 0x80000000 ≤ n then .error .tooLarge
  else if n < 0 ∨ 0x110000 ≤ n then .error .badValue
  else .ok (Char.ofNat n.toNat)

def text (key : Int) (s : String) : Except Fault String := do
  return String.ofList (← s.toList.mapM fun c => character (xor c.toNat key))

def kindName : Json → String
  | .null => "<class 'NoneType'>"
  | .bool _ => "<class 'bool'>"
  | .int _ => "<class 'int'>"
  | .text _ => "<class 'str'>"
  | .list _ => "<class 'list'>"
  | .record _ => "<class 'bytes'>"
  | _ => "<class 'float'>"

/-- A value under a key. Only texts can be enciphered; without a key any value stays what it is. -/
def value (key v : Json) : Except Fault Json :=
  match key, v with
  | .null, v => .ok v
  | _, .text "" => .ok (.text "")
  | key, .text s => do return .text (← text (← key.integer) s)
  | _, v => .error (.packing ("Could not encrypt values of type: " ++ kindName v))

def byteOf (n : Int) : Except Fault Int := if n < 0 ∨ 255 < n then .error .tooLarge else .ok n

def octets (key : Json) (items : List Json) : Except Fault (List Int) := do
  let bs ← items.mapM fun x => do byteOf (← x.integer)
  match key with
  | .null => return bs
  | _ => bs.mapM fun b => do byteOf (xor b (← key.integer))

def code : Json → Except Fault Int
  | .text s =>
    match s.toList with
    | [c] => .ok c.toNat
    | _ => .error .wrongKind
  | _ => .error .wrongKind

def weigh : List Int → Int
  | [] => 0
  | d :: rest => d + 256 * weigh rest

/-- The number that the characters of a value spell under a key, least significant first unless
`big`. -/
def number (big : Bool) (key v : Json) : Except Fault Int := do
  let items ← (← value key v).items
  let codes ← items.mapM code
  return weigh (if big then codes.reverse else codes)

end ScummKit.Pack.Cipher
