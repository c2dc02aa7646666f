/-!
# Bits of numbers

Numbers are seen as endless rows of bits, least significant first, negative ones in two's complement.
-/

namespace ScummKit.Bits

def test (v : Int) (i : Nat) : Bool := v / (Nat.pow 2 i : Nat) % 2 = 1

def toNat (b : Bool) : Nat := if b then 1 else 0

def ofInt : Nat → Int → List Bool
  | 0, _ => []
  | n + 1, v => (v % 2 = 1) :: ofInt n (v / 2)

def value : List Bool → Nat
  | [] => 0
  | b :: rest => toNat b + 2 * value rest

def ofBytes (bytes : List Int) : List Bool := bytes.flatMap (ofInt 8)

def or : Int → Int → Int
  | .ofNat m, .ofNat n => (m ||| n : Nat)
  | .ofNat m, .negSucc n => .negSucc (n ^^^ (n &&& m))
  | .negSucc m, .ofNat n => .negSucc (m ^^^ (m &&& n))
  | .negSucc m, .negSucc n => .negSucc (m &&& n)

def shift (v : Int) (n : Nat) : Int := v * (Nat.pow 2 n : Nat)

end ScummKit.Bits
