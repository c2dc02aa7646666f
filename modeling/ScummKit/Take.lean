import ScummKit.Word

/-!
# Taking data from the front

Tables in game files are read from front to back. A reader takes what it needs and leaves the rest; it
fails when the data end too early.
-/

namespace ScummKit

abbrev Take (α : Type) := StateT (List Int) (Except Fault) α

namespace Take

def item : Take Int := fun
  | [] => .error .outOfRange
  | b :: rest => .ok (b, rest)

def word : Take Int := fun
  | a :: b :: rest => .ok (Word.ofLE [a, b], rest)
  | _ => .error .outOfRange

def signed : Take Int := do
  return Word.signedDecode (← word)

def count (f : Nat → Take α) : Nat → Nat → Take (List α)
  | _, 0 => return []
  | i, n + 1 => do
    let x ← f i
    return x :: (← count f (i + 1) n)

end Take

end ScummKit
