import ScummKit.Word

/-!
# Run-length coded rows

A row is a list of runs: the low bit of a run's first byte says whether one colour is repeated or
colours follow, the other bits how many.
-/

namespace ScummKit.Bomp

def run (width : Int) : List Int → Except Fault (List Int × List Int)
  | [] => .error .outOfRange
  | byte :: rest =>
    let count := (min (byte / 2 + 1) width).toNat
    if byte % 2 = 1 then
      match rest with
      | colour :: rest => .ok (List.replicate count colour, rest)
      | [] => .error .outOfRange
    else if count ≤ rest.length then .ok (rest.take count, rest.drop count)
    else .error .outOfRange

/-- The colours of a row, added to those already there, until there are `width`. The fuel is one more
than the number of bytes. -/
def rowFrom (width : Int) : Nat → List Int → List Int → Except Fault (List Int)
  | 0, colours, _ => .ok colours
  | fuel + 1, colours, data =>
    if (colours.length : Int) < width then do
      let (more, rest) ← run width data
      rowFrom width fuel (colours ++ more) rest
    else .ok colours

def decodeRow (width : Int) (data : List Int) : Except Fault (List Int) := rowFrom width (data.length + 1) [] data

end ScummKit.Bomp
