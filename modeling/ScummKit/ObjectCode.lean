import ScummKit.Text
import ScummKit.Word

/-!
# Headers of object code

The code of an object starts with a header that says where the object is and what it is called. A line
of a script can say the same.
-/

namespace ScummKit

structure ObjectCode where
  id : Nat
  unknown : Nat
  x : Nat
  y : Nat
  parentState : Nat
  width : Nat
  parent : Nat
  walkX : Nat
  walkY : Nat
  height : Nat
  actorDir : Nat
  name : List UInt8
  deriving Repr, DecidableEq, Inhabited

namespace ObjectCode

def untilZero : List UInt8 → Except Fault (List UInt8)
  | [] => .error .badLayout
  | b :: rest => if b = 0 then .ok [] else do return b :: (← untilZero rest)

def word (lo hi : UInt8) : Nat := lo.toNat + 256 * hi.toNat

/-- Reads the header of a block of object code. The size in front is not looked at. -/
def read (data : List UInt8) : Except Fault ObjectCode := do
  if data.length < 4 then throw .badLayout
  let tag := (data.drop 4).take 2
  if tag ≠ Text.toBytes "OC" then
    throw (.listing ("Unrecognised file type - expected block type OC, got " ++ Text.ofBytes tag))
  match data.drop 6 with
  | i :: i' :: unknown :: x :: y :: width :: parent :: wx :: wx' :: wy :: wy' :: height :: start :: _ =>
    let name ← untilZero (data.drop start.toNat)
    return { id := word i i', unknown := unknown.toNat, x := x.toNat, y := y.toNat % 0x80,
             parentState := y.toNat / 0x80 * 0x80, width := width.toNat, parent := parent.toNat,
             walkX := word wx wx', walkY := word wy wy', height := height.toNat / 8 * 8,
             actorDir := height.toNat % 8, name }
  | _ => throw .badLayout

def line (o : ObjectCode) : String :=
  s!"#object-data [id {o.id}, unknown {o.unknown}, x-pos {o.x}, y-pos {o.y}, parent-state "
    ++ s!"{o.parentState}, width {o.width}, parent {o.parent}, walk-x {o.walkX}, walk-y {o.walkY}, "
    ++ s!"height {o.height}, actor-dir {o.actorDir}, name \"" ++ Text.ofBytes o.name ++ "\"]"

end ObjectCode

end ScummKit
