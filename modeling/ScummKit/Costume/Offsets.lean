import ScummKit.Word

/-!
# Tables of offsets in costumes

Offsets up to two stand for nothing. Several entries of a table may share an offset, and a part ends
where the next larger offset begins.
-/

namespace ScummKit.Costume

def decodeOffsets (data : List Int) (count base : Int) : Except Fault (List Int) :=
  (List.range count.toNat).mapM fun (i : Nat) => do
    let p : Int := 2 * i
    return (← Word.decodeLE (Position.cut data p (p + 2)) 2) + base

def isOffset (offset : Int) : Bool := 2 < offset

def lowestOffset (table : List Int) : Int :=
  (table.filter isOffset).foldl (fun low o => if low = -1 ∨ o < low then o else low) (-1)

/-- Puts an offset where it belongs in ascending order. One that is there already is not added. -/
def insertOffset (offset : Int) : List Int → List Int
  | [] => [offset]
  | o :: rest =>
    if offset = o then o :: rest
    else if offset < o then offset :: o :: rest
    else o :: insertOffset offset rest

def orderedOffsets (table : List Int) : List Int :=
  (table.filter isOffset).foldl (fun sorted o => insertOffset o sorted) []

def nextOffset (offset last : Int) : List Int → Int
  | [] => 0
  | [o] => if o = offset then last else 0
  | o :: next :: rest => if o = offset then next else nextOffset offset last (next :: rest)

def isNull : Json → Bool
  | .int n => n = -1
  | .real x => x.negative && x.digits * Nat.pow 10 x.exponent.toNat = Nat.pow 10 (-x.exponent).toNat
  | _ => false

def entryBytes (lengths : List Nat) (start null : Int) (entry : Json) : Except Fault (List Int) := do
  if isNull entry then return Word.toLE 2 null
  let n ← entry.integer
  if (lengths.length : Int) < n then throw .outOfRange
  return Word.toLE 2 (start + ((lengths.take n.toNat).foldr (· + ·) 0 : Nat))

/-- A table of offsets to parts of these lengths. Entries that stand for nothing are zero, or point
behind the last part. -/
def encodeOffsets (lengths : List Nat) (start : Int) (map : List Json) (nullAtEnd : Bool) : Except Fault (List Int) := do
  let null : Int := if nullAtEnd then start + (lengths.foldr (· + ·) 0 : Nat) else 0
  return (← map.mapM (entryBytes lengths start null)).flatten

end ScummKit.Costume
