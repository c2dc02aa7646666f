import ScummKit.Bits
import ScummKit.Take

/-!
# Animations

The record of an animation begins with a mask of its limbs, the first in the top bit. For each follows
where its commands start, and a byte with their number and, in its top bit, whether they run only once;
or a mark that the limb is switched off.
-/

namespace ScummKit.Costume

structure Subanimation where
  limb : Nat
  disabled : Bool
  start : Int
  length : Int
  loop : Bool
  deriving Repr, DecidableEq, Inhabited

namespace Subanimation

def take (limb : Nat) : Take Subanimation := do
  let a ← Take.item
  let b ← Take.item
  if a = 0xff ∧ b = 0xff then return ⟨limb, true, 0, 0, false⟩
  let start := Word.ofLE [a, b]
  if start = 0xffff then throw .outOfRange
  let last ← Take.item
  return ⟨limb, false, start, last % 0x80, !Bits.test last 7⟩

def toJson (s : Subanimation) : Json :=
  .record [("Limb", .int s.limb), ("Disabled", .bool s.disabled),
    ("Command sequence start", .int s.start), ("Command sequence length", .int s.length),
    ("Loop", .bool s.loop)]

end Subanimation

def takeLimbs (mask : Int) : Nat → Nat → Take (List Subanimation)
  | _, 0 => return []
  | i, n + 1 => do
    if Bits.test mask n then
      let s ← Subanimation.take i
      return s :: (← takeLimbs mask (i + 1) n)
    else takeLimbs mask (i + 1) n

def takeAnimation : Take (List Subanimation) := do
  let mask ← Take.word
  takeLimbs mask 0 16

def decodeAnimation (data : List Int) : Except Fault (List Subanimation) := return (← takeAnimation.run data).1

/-! ### Documents -/

structure SubanimationEntry where
  limb : Json
  disabled : Json
  start : Json
  length : Json
  loop : Json
  deriving Repr, Inhabited

namespace SubanimationEntry

def ofJson (j : Json) : Except Fault SubanimationEntry := do
  let limb ← j.field "Limb"
  let disabled ← j.field "Disabled"
  let start ← j.field "Command sequence start"
  let length ← j.field "Command sequence length"
  return ⟨limb, disabled, start, length, ← j.field "Loop"⟩

def of (s : Subanimation) : SubanimationEntry :=
  ⟨.int s.limb, .bool s.disabled, .int s.start, .int s.length, .bool s.loop⟩

def toJson (e : SubanimationEntry) : Json :=
  .record [("Limb", e.limb), ("Disabled", e.disabled), ("Command sequence start", e.start),
    ("Command sequence length", e.length), ("Loop", e.loop)]

def bit (e : SubanimationEntry) : Except Fault Nat := do
  let n ← e.limb.integer
  if n < 0 then throw .badValue
  return 0x8000 >>> n.toNat

def bytes (e : SubanimationEntry) : Except Fault (List Json) := do
  if e.disabled.truth then return [.int 0xff, .int 0xff]
  let start := (Word.toLE 2 (← e.start.integer)).map Json.int
  if e.loop.truth then return start ++ [e.length]
  return start ++ [.int (Bits.or (← e.length.integer) 0x80)]

end SubanimationEntry

def animationOfJson (j : Json) : Except Fault (List SubanimationEntry) := do
  (← (← j.field "Subanimations").items).mapM SubanimationEntry.ofJson

def animationToJson (number : Json) (entries : List SubanimationEntry) : Json :=
  .record [("Animation number", number), ("Subanimations", .list (entries.map (·.toJson)))]

def encodeAnimation (entries : List SubanimationEntry) : Except Fault (List Json) := do
  let parts ← entries.mapM fun e => do
    let bit ← e.bit
    return (bit, ← e.bytes)
  let mask : Nat := parts.foldl (fun mask p => mask ||| p.1) 0
  return (Word.toLE 2 mask).map Json.int ++ (parts.map Prod.snd).flatten

end ScummKit.Costume
