import ScummKit.Fault

/-!
# Positions in sequences

A position counts from the start of a sequence, or, if it is negative, from its end. Looking at a
position outside is a fault; a stretch between two positions is cut to what is there.
-/

namespace ScummKit.Position

def look (xs : List α) (i : Int) : Except Fault α :=
  let j := if i < 0 then i + xs.length else i
  if j < 0 then .error .outOfRange
  else match xs[j.toNat]? with
    | some x => .ok x
    | none => .error .outOfRange

/-- The place of a bound in a sequence of a length: bounds outside move to the nearer end. -/
def bound (length : Nat) (i : Int) : Nat := min (if i < 0 then i + length else i).toNat length

def cut (xs : List α) (start stop : Int) : List α := (xs.take (bound xs.length stop)).drop (bound xs.length start)

def onward (xs : List α) (start : Int) : List α := xs.drop (bound xs.length start)

end ScummKit.Position
