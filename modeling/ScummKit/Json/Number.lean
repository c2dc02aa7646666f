import ScummKit.Json.Basic

/-!
# Numbers of documents

A number in a document may be written with a fraction. Where a whole number is needed it is rounded,
a half to the even neighbour.
-/

namespace ScummKit

structure Ratio where
  num : Int
  den : Nat
  deriving Repr, DecidableEq, Inhabited

namespace Ratio

def add (a b : Ratio) : Ratio := ⟨a.num * b.den + b.num * a.den, a.den * b.den⟩

def less (a b : Ratio) : Bool := a.num * b.den < b.num * a.den

def round (a : Ratio) : Int :=
  let q := a.num / (a.den : Int)
  let r := a.num % (a.den : Int)
  if 2 * r < a.den then q
  else if 2 * r > a.den then q + 1
  else if q % 2 = 0 then q else q + 1

end Ratio

def Decimal.ratio (x : Decimal) : Ratio :=
  let signed : Int := if x.negative then -(x.digits : Int) else x.digits
  if 0 ≤ x.exponent then ⟨signed * (Nat.pow 10 x.exponent.toNat : Nat), 1⟩
  else ⟨signed, Nat.pow 10 (-x.exponent).toNat⟩

def Json.ratio : Json → Except Fault Ratio
  | .int n => .ok ⟨n, 1⟩
  | .bool b => .ok ⟨if b then 1 else 0, 1⟩
  | .real x => .ok x.ratio
  | .notANumber => .error .badValue
  | .infinite _ => .error .tooLarge
  | _ => .error .wrongKind

end ScummKit
