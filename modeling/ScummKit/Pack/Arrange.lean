/-!
# Arranging by a list

Values are put in the order in which a list names them. What the list does not name counts as named at
the place of the number of values, so it comes after everything named earlier than that.
-/

namespace ScummKit.Pack

variable {α : Type} [BEq α]

def placeIn (order : List α) (other : Nat) (v : α) : Nat := if order.contains v then order.idxOf v else other

def arrange (order values : List α) : List α :=
  values.mergeSort fun a b =>
    placeIn order values.length a ≤ placeIn order values.length b

end ScummKit.Pack
