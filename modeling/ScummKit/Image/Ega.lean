import ScummKit.Image.Stripe

/-!
# Stripes of sixteen colours

A stripe is a list of commands that fill it column by column: repeat a colour, alternate two colours,
or copy from the column to the left. A count that does not fit the command's first byte has a byte of
its own.
-/

namespace ScummKit.Ega

inductive Command where
  | copy (count : Int)
  | dither (count first second : Int)
  | repeat (count colour : Int)
  deriving Repr, DecidableEq, Inhabited

/-! ### Reading -/

/-- The commands of a stripe. A command cut short by the end of the data is a fault. -/
def parse (data : List Int) : Except Fault (List Command) :=
  match data with
  | [] => .ok []
  | byte :: rest =>
    let kind := byte / 64 % 4
    let count := byte % 64
    if kind = 2 then
      if count = 0 then
        match rest with
        | n :: rest => return .copy n :: (← parse rest)
        | [] => .error .outOfRange
      else return .copy count :: (← parse rest)
    else if kind = 3 then
      match rest with
      | [] => .error .outOfRange
      | colours :: rest =>
        if count = 0 then
          match rest with
          | n :: rest =>
            return .dither n (colours / 16 % 16) (colours % 16) :: (← parse rest)
          | [] => .error .outOfRange
        else return .dither count (colours / 16 % 16) (colours % 16) :: (← parse rest)
    else
      let count := byte / 16 % 16
      if count = 0 then
        match rest with
        | n :: rest => return .repeat n (byte % 16) :: (← parse rest)
        | [] => .error .outOfRange
      else return .repeat count (byte % 16) :: (← parse rest)

/-- Copies from the column to the left; the first column copies from behind. -/
def copyMany : Nat → Stripe → Except Fault Stripe
  | 0, s => .ok s
  | n + 1, s => do
    let c ← s.pixel (8 * (s.y : Int) + s.x - 1)
    copyMany n (s.write c)

def ditherMany (first second : Int) : Nat → Stripe → Stripe
  | 0, s => s
  | n + 1, s => ditherMany second first n (s.write first)

def Command.paint (s : Stripe) : Command → Except Fault Stripe
  | .copy count => copyMany count.toNat s
  | .dither count first second => .ok (ditherMany first second count.toNat s)
  | .repeat count colour => .ok (s.writeMany colour count.toNat)

def decode (height : Int) (data : List Int) : Except Fault Stripe := do
  let commands ← parse data
  commands.foldlM Command.paint (Stripe.new height .columns)

/-! ### Writing -/

structure Options where
  canRepeat : Bool
  canDither : Bool
  canCopy : Bool
  deriving Repr, DecidableEq, Inhabited

def Options.ofCode (n : Int) : Options := ⟨Bits.test n 0, Bits.test n 1, Bits.test n 2⟩

def Options.none (o : Options) : Bool := !o.canRepeat && !o.canDither && !o.canCopy

def sequence (buffer : List Int) (o : Options) : Except Fault (List Int) :=
  let count : Int := buffer.length
  if o.canCopy then
    .ok (if 0x3f < count then [0x80, count] else [Bits.or 0x80 count])
  else if o.canRepeat then do
    let colour ← Position.look buffer 0
    return if 7 < count then [colour, count] else [Bits.or (Bits.shift count 4) colour]
  else if o.canDither then do
    let first ← Position.look buffer 0
    let second ← Position.look buffer 1
    let colours := Bits.or (Bits.shift first 4) second
    return if 0x3f < count then [0xc0, colours, count] else [Bits.or 0xc0 count, colours]
  else .ok []

/-- What the writer holds back: colours not yet written, the commands that fit them, and whether the
last one had the colour of its left neighbour. -/
structure Pending where
  out : List Int
  buffer : List Int
  options : Options
  matched : Bool

def narrow (o : Options) (buffer : List Int) (colour : Int) (matched : Bool) : Options where
  canRepeat := o.canRepeat && !(0 < buffer.length && buffer.getLast? ≠ some colour)
  canDither := o.canDither && !(2 ≤ buffer.length && buffer[buffer.length - 2]? ≠ some colour)
  canCopy := o.canCopy && matched

/-- Takes one more colour. When no command is left, or as many colours are held back as a command can
count, they are written. -/
def step (p : Pending) (next : Int × Bool) : Except Fault Pending := do
  let (colour, matched) := next
  let options := narrow p.options p.buffer colour matched
  if options.none ∨ p.buffer.length = 0xff then
    match p.buffer, p.options with
    | [first, second], ⟨false, true, false⟩ =>
      let options : Options := ⟨second = colour, second ≠ colour, matched && p.matched⟩
      return ⟨p.out ++ [Bits.or 0x10 first], [second, colour], options, matched⟩
    | _, _ =>
      let written ← sequence p.buffer p.options
      return ⟨p.out ++ written, [colour], ⟨true, true, matched⟩, matched⟩
  else return ⟨p.out, p.buffer ++ [colour], options, matched⟩

def columnColours (s : Stripe) : Except Fault (List (Int × Bool)) :=
  (Stripe.places s.height.toNat .columns).mapM fun (x, y) => do
    let c ← s.colourAt x y
    if 0 < x then return (c, c = (← s.colourAt ((x : Int) - 1) y)) else return (c, false)

def encode (s : Stripe) : Except Fault (List Int) := do
  let p ← (← columnColours s).foldlM step ⟨[], [], ⟨true, true, true⟩, false⟩
  return p.out ++ (← sequence p.buffer p.options)

end ScummKit.Ega
