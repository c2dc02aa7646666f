import ScummKit.Image.Stripe

/-!
# Stripes of masks

A mask has one bit for each pixel, so a row of a stripe is a byte. Rows are run-length coded: a count
with its top bit set repeats the byte behind it, and any other count is followed by as many bytes.
-/

namespace ScummKit.Mask

/-! ### Reading -/

/-- The rows of some data. The byte to be repeated may be missing at the end and then is zero. -/
def parse (data : List Int) : Except Fault (List Int) :=
  match data with
  | [] => .ok []
  | n :: rest =>
    if Bits.test n 7 then
      let count := (n % 128).toNat
      match rest with
      | byte :: rest => return List.replicate count byte ++ (← parse rest)
      | [] => .ok (List.replicate count 0)
    else
      let count := n.toNat
      if count ≤ rest.length then return rest.take count ++ (← parse (rest.drop count))
      else .error .outOfRange
termination_by data.length
decreasing_by
  all_goals simp only [List.length_cons, List.length_drop]
  all_goals omega

/-- The stripe of some data. Rows that are missing are empty. -/
def decode (height : Int) (data : List Int) : Except Fault Stripe := do
  let s := (← parse data).foldl Stripe.writeByte (Stripe.new height .rows)
  return s.writeMany 0 s.pixels.size

/-! ### Writing -/

inductive Kind where
  | undecided
  | repeating
  | literal
  deriving Repr, DecidableEq, Inhabited

structure Pending where
  out : List Int
  buffer : List Int
  kind : Kind

def runBytes (buffer : List Int) : List Int := Bits.or buffer.length 0x80 :: buffer.take 1

def literalBytes (buffer : List Int) : List Int := (buffer.length : Int) :: buffer

def step (p : Pending) (row : Int) : Pending :=
  match p.kind with
  | .undecided =>
    let kind := if p.buffer.length = 1 then
        (if p.buffer.head? = some row then .repeating else .literal)
      else .undecided
    ⟨p.out, p.buffer ++ [row], kind⟩
  | .repeating =>
    if p.buffer.head? ≠ some row ∨ p.buffer.length = 0x7f then
      ⟨p.out ++ runBytes p.buffer, [row], .undecided⟩
    else ⟨p.out, p.buffer ++ [row], .repeating⟩
  | .literal =>
    if p.buffer.getLast? = some row then
      ⟨p.out ++ literalBytes p.buffer.dropLast, [row, row], .repeating⟩
    else if p.buffer.length = 0x7f then ⟨p.out ++ literalBytes p.buffer, [row], .undecided⟩
    else ⟨p.out, p.buffer ++ [row], .literal⟩

def rowData (rows : List Int) : List Int :=
  let p := rows.foldl step ⟨[], [], .undecided⟩
  match p.kind with
  | .repeating => p.out ++ runBytes p.buffer
  | _ => p.out ++ literalBytes p.buffer

def rowOf (pixels : List Int) : Int := pixels.foldl (fun row c => Bits.or (Bits.shift row 1) c) 0

def encode (s : Stripe) : Except Fault (List Int) := do
  let rows ← (List.range s.height.toNat).mapM fun (y : Nat) =>
    (List.range 8).mapM fun (x : Nat) => s.colourAt x y
  return rowData (rows.map rowOf)

end ScummKit.Mask
