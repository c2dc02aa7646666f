import ScummKit.Bits
import ScummKit.Position

/-!
# Bit streams

A row of bytes read and written bit by bit, least significant bit first. Reading past the end gives
zeros.
-/

namespace ScummKit

structure Bitstream where
  data : Array Int
  byteIndex : Nat
  bitIndex : Nat
  byte : Int
  deriving Repr, DecidableEq, Inhabited

namespace Bitstream

def open? (data : List Int) : Except Fault Bitstream :=
  match data with
  | [] => .error .outOfRange
  | b :: _ => .ok ⟨data.toArray, 0, 0, b⟩

def fresh : Bitstream := ⟨#[0], 0, 0, 0⟩

def within (s : Bitstream) : Bool := s.byteIndex < s.data.size

def readBit (s : Bitstream) : Nat × Bitstream :=
  if s.within then
    let bit := Bits.toNat (Bits.test s.byte s.bitIndex)
    if s.bitIndex + 1 = 8 then
      let next := s.data[s.byteIndex + 1]?
      (bit, { s with bitIndex := 0, byteIndex := s.byteIndex + 1, byte := next.getD s.byte })
    else (bit, { s with bitIndex := s.bitIndex + 1 })
  else (0, s)

def readInteger : Nat → Bitstream → Nat × Bitstream
  | 0, s => (0, s)
  | n + 1, s =>
    let (bit, s) := s.readBit
    let (rest, s) := readInteger n s
    (bit + 2 * rest, s)

def writeBit (s : Bitstream) (bit : Int) : Except Fault Bitstream :=
  let byte := Bits.or s.byte (Bits.shift bit s.bitIndex)
  if s.within then
    let data := s.data.setIfInBounds s.byteIndex byte
    if s.bitIndex + 1 = 8 then .ok ⟨data.push 0, s.byteIndex + 1, 0, 0⟩
    else .ok ⟨data, s.byteIndex, s.bitIndex + 1, byte⟩
  else .error .outOfRange

def writeBits (s : Bitstream) (bits : List Bool) : Except Fault Bitstream :=
  bits.foldlM (fun s b => s.writeBit (Bits.toNat b)) s

def writeInteger (s : Bitstream) (value : Int) (n : Nat) : Except Fault Bitstream := s.writeBits (Bits.ofInt n value)

end Bitstream

end ScummKit
