import ScummKit.Image.Bitstream
import ScummKit.Image.Stripe

/-!
# Stripes of 256 colours

A stripe begins with a key, which gives the direction, the number of bits of a colour and one of two
methods, and its first colour. Then follow bits: 0 writes the last colour again, 10 and a colour change
it, and 11 begins a change by a step. In the first method the step is one up or down, in the same
direction as before or in the other. In the second method the step is one of eight, of which zero means
that a count of repetitions follows.
-/

namespace ScummKit.Vga

/-! ### Reading -/

inductive Mode where
  | write
  | command
  | colour
  | shift
  | count
  deriving Repr, DecidableEq, Inhabited

def Mode.rank : Mode → Nat
  | .write => 0
  | _ => 1

structure Key where
  direction : Direction
  colourBits : Nat
  stepped : Bool
  deriving Repr, DecidableEq, Inhabited

def Key.ofCode (n : Int) : Key where
  direction := Direction.ofCode (n / 10 % 2)
  colourBits := (n % 10).toNat
  stepped := 50 ≤ n

def paint (key : Key) (mode : Mode) (bits : List Bool) (colour step : Int) (s : Stripe) : Stripe :=
  match bits with
  | [] => s
  | b :: rest =>
    match mode with
    | .write =>
      if b then paint key .command rest colour step s
      else paint key .write rest colour step (s.write colour)
    | .command => paint key (if b then .shift else .colour) rest colour step s
    | .colour =>
      let colour : Int := Bits.value ((b :: rest).take key.colourBits)
      paint key .write ((b :: rest).drop key.colourBits) colour (-1) (s.write colour)
    | .shift =>
      if key.stepped then
        let command : Int := (Bits.value ((b :: rest).take 3) : Int) - 4
        if command = 0 then paint key .count (rest.drop 2) colour step s
        else
          paint key .write (rest.drop 2) (colour + command) command (s.write (colour + command))
      else
        let step := if b then -step else step
        paint key .write rest (colour + step) step (s.write (colour + step))
    | .count =>
      let count := Bits.value ((b :: rest).take 8)
      paint key .write (rest.drop 7) colour step (s.writeMany colour count)
termination_by (bits.length, mode.rank)
decreasing_by
  all_goals simp_wf
  all_goals simp only [Prod.lex_def, Mode.rank]
  all_goals grind

def decode (height : Int) (data : List Int) : Except Fault Stripe :=
  match data with
  | [] => .error .outOfRange
  | code :: rest =>
    let key := Key.ofCode code
    let s := Stripe.new height key.direction
    if code = 1 then .ok { s with pixels := rest.toArray }
    else match rest with
      | colour :: b :: more =>
        .ok (paint key .write (Bits.ofBytes (b :: more)) colour (-1) (s.write colour))
      | _ => .error .outOfRange

/-! ### Writing -/

/-- The bits of a run of the last colour. In the second method a run of middle length is counted. -/
def runBits (stepped : Bool) (count : Nat) : List Bool :=
  if stepped ∧ 13 < count ∧ count < 32 then
    [true, true] ++ Bits.ofInt 3 4 ++ Bits.ofInt 5 count ++ [false, false, false]
  else List.replicate count false

def changeBits (stepped : Bool) (before colour step : Int) : List Bool × Int :=
  let d := colour - before
  if stepped then
    if -4 ≤ d ∧ d < 4 then (true :: Bits.ofInt 3 (d + 4), step)
    else (false :: Bits.ofInt 8 colour, -1)
  else if d = 1 ∨ d = -1 then
    if d = step then ([true, false], step) else ([true, true], d)
  else (false :: Bits.ofInt 8 colour, -1)

def bitsFrom (stepped : Bool) : Int → Int → Nat → List Int → List Bool
  | _, _, count, [] => runBits stepped count
  | before, step, count, colour :: rest =>
    if colour = before then bitsFrom stepped before step (count + 1) rest
    else
      let (change, step) := changeBits stepped before colour step
      runBits stepped count ++ true :: change ++ bitsFrom stepped colour step 0 rest

def keyCode (stepped : Bool) (d : Direction) : Int := 18 + (if d = .rows then 10 else 0) + (if stepped then 40 else 0)

def stripeBits (stepped : Bool) (d : Direction) (colours : List Int) : List Bool :=
  let first := colours.headD 0
  Bits.ofInt 8 (keyCode stepped d) ++ Bits.ofInt 8 first ++ bitsFrom stepped first (-1) 0 colours.tail

def encodeAs (stepped : Bool) (d : Direction) (s : Stripe) : Except Fault (List Int) := do
  let colours ← s.colours d
  return (← Bitstream.fresh.writeBits (stripeBits stepped d colours)).data.toList

def shorter (a b : List Int) : List Int := if b.length < a.length then b else a

def encode (s : Stripe) : Except Fault (List Int) := do
  let a ← encodeAs true .rows s
  let b ← encodeAs false .columns s
  let c ← encodeAs false .rows s
  return shorter (shorter a b) c

end ScummKit.Vga
