import ScummKit.Position
import ScummKit.Table

/-!
# JSON documents

A document is read as it stands: its fields keep the order of the file, and whole numbers are unbounded.
The accessors say which fault each wrong guess gives.
-/

namespace ScummKit

/-- A number written with a fraction or an exponent: `digits * 10 ^ exponent` with a sign. -/
structure Decimal where
  negative : Bool
  digits : Nat
  exponent : Int
  deriving Repr, BEq, DecidableEq, Inhabited

/-- A JSON document. A record holds each key once, in the order of first appearance. -/
inductive Json where
  | null
  | bool (b : Bool)
  | int (n : Int)
  | real (x : Decimal)
  | notANumber
  | infinite (negative : Bool)
  | text (s : String)
  | list (items : List Json)
  | record (fields : List (String × Json))
  deriving Repr, BEq, Inhabited

namespace Json

def field (key : String) : Json → Except Fault Json
  | .record fields =>
    match Table.find? key fields with
    | some v => .ok v
    | none => .error (.missingKey key)
  | _ => .error .wrongKind

def field? (key : String) : Json → Option Json
  | .record fields => Table.find? key fields
  | _ => none

/-- What a document is made of, seen as a sequence: a record gives its keys and a text its
characters. -/
def items : Json → Except Fault (List Json)
  | .list xs => .ok xs
  | .record fields => .ok (fields.map fun f => .text f.1)
  | .text s => .ok (s.toList.map fun c => .text (String.singleton c))
  | _ => .error .wrongKind

def length : Json → Except Fault Nat
  | .list xs => .ok xs.length
  | .record fields => .ok fields.length
  | .text s => .ok s.length
  | _ => .error .wrongKind

/-- A whole number. A truth value counts as 0 or 1. -/
def integer : Json → Except Fault Int
  | .int n => .ok n
  | .bool b => .ok (if b then 1 else 0)
  | _ => .error .wrongKind

/-- The item at a position of a list or text. A record looks the position up among its keys, which
are texts, and so never finds it. -/
def item (i : Int) : Json → Except Fault Json
  | .list xs => Position.look xs i
  | .text s => Position.look (s.toList.map fun c => .text (String.singleton c)) i
  | .record _ => .error (.missingKey (toString i))
  | _ => .error .wrongKind

/-- Whether a document counts as true: everything but nothing, zero and the empty. -/
def truth : Json → Bool
  | .null => false
  | .bool b => b
  | .int n => n ≠ 0
  | .real x => x.digits ≠ 0
  | .notANumber => true
  | .infinite _ => true
  | .text s => s ≠ ""
  | .list xs => !xs.isEmpty
  | .record fields => !fields.isEmpty

def isText (t : String) : Json → Bool
  | .text s => s = t
  | _ => false

def ofInts (xs : List Int) : Json := .list (xs.map .int)

/-- The bytes to be written for a list of documents: each must be a number from 0 to 255, and the
first that is not decides the fault. -/
def octets : List Json → Except Fault (List UInt8)
  | [] => .ok []
  | x :: rest => do
    let n ← x.integer
    if n < 0 ∨ 255 < n then .error .badValue
    else return UInt8.ofNat n.toNat :: (← octets rest)

end Json

end ScummKit
