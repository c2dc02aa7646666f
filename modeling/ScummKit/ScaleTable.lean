import ScummKit.Take

/-!
# Scale tables

Actors shrink with distance. A row of a scale table says how large they are at two heights of the
picture; between them the size is interpolated.
-/

namespace ScummKit

structure ScaleRow where
  y1 : Int
  scale1 : Int
  y2 : Int
  scale2 : Int
  deriving Repr, DecidableEq, Inhabited

namespace ScaleRow

def decodeAll : List Int → Except Fault (List ScaleRow)
  | [] => .ok []
  | a :: b :: c :: d :: e :: f :: g :: h :: rest => do
    let row : ScaleRow := ⟨Word.signedDecode (Word.ofLE [c, d]), Word.ofLE [a, b],
      Word.signedDecode (Word.ofLE [g, h]), Word.ofLE [e, f]⟩
    return row :: (← decodeAll rest)
  | _ => .error .outOfRange

def toJson (r : ScaleRow) : Json :=
  .record [("y1", .int r.y1), ("scale1", .int r.scale1), ("y2", .int r.y2), ("scale2", .int r.scale2)]

def rowBytes (entry : Json) : Except Fault (List Int) := do
  let scale1 ← (← entry.field "scale1").integer
  let y1 ← (← entry.field "y1").integer
  let scale2 ← (← entry.field "scale2").integer
  let y2 ← (← entry.field "y2").integer
  return Word.toLE 2 scale1 ++ Word.toLE 2 (Word.signedEncode y1) ++ Word.toLE 2 scale2 ++ Word.toLE 2 (Word.signedEncode y2)

def encode (table : Json) : Except Fault (List Int) := do
  return (← (← table.items).mapM rowBytes).flatten

end ScaleRow

end ScummKit
