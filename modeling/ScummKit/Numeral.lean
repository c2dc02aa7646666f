import ScummKit.Digit
import ScummKit.Fault

/-!
# Numerals

Blanks around a numeral are ignored, one sign may stand in front, a base of sixteen may announce itself
by `0x`, and a single underscore may stand between two digits.
-/

namespace ScummKit.Numeral

def isBlank (c : Char) : Bool :=
  let n := c.toNat
  (9 ≤ n && n ≤ 13) || (0x1c ≤ n && n ≤ 0x20) || n = 0x85 || n = 0xa0 || n = 0x1680
    || (0x2000 ≤ n && n ≤ 0x200a) || n = 0x2028 || n = 0x2029 || n = 0x202f || n = 0x205f
    || n = 0x3000

def trim (cs : List Char) : List Char := ((cs.dropWhile isBlank).reverse.dropWhile isBlank).reverse

def digit? (base : Nat) (c : Char) : Option Nat :=
  let value :=
    if '0' ≤ c ∧ c ≤ '9' then some (c.toNat - 48)
    else if 'a' ≤ c ∧ c ≤ 'z' then some (c.toNat - 87)
    else if 'A' ≤ c ∧ c ≤ 'Z' then some (c.toNat - 55)
    else none
  value.filter (· < base)

/-- The number denoted by digits after a given start. An underscore must stand between two digits. -/
def readDigits (base acc : Nat) : List Char → Option Nat
  | [] => some acc
  | '_' :: d :: rest => (digit? base d).bind fun v => readDigits base (acc * base + v) rest
  | d :: rest => (digit? base d).bind fun v => readDigits base (acc * base + v) rest

def readUnsigned (base : Nat) (cs : List Char) : Option Nat :=
  let digits (cs : List Char) : Option Nat :=
    match cs with
    | [] => none
    | '_' :: _ => none
    | _ => readDigits base 0 cs
  match base, cs with
  | 16, '0' :: x :: rest =>
    if x = 'x' ∨ x = 'X' then
      match rest with
      | '_' :: more => digits more
      | _ => digits rest
    else digits cs
  | _, _ => digits cs

def read? (base : Nat) (s : String) : Option Int :=
  match (trim s.toList).map Digit.plain with
  | '-' :: rest => (readUnsigned base rest).map fun n => -(n : Int)
  | '+' :: rest => (readUnsigned base rest).map fun n => (n : Int)
  | cs => (readUnsigned base cs).map fun n => (n : Int)

def read (base : Nat) (s : String) : Except Fault Int :=
  match read? base s with
  | some n => .ok n
  | none => .error .badValue

end ScummKit.Numeral
