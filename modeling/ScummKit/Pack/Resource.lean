import ScummKit.Fault

/-!
# Files with a position

A file that is read or written from a position on. Reading stops early at the end of the file; writing
replaces what is there and makes the file longer if need be.
-/

namespace ScummKit.Pack

structure Resource where
  data : List UInt8
  pos : Nat
  deriving Repr, DecidableEq, Inhabited

namespace Resource

def start (data : List UInt8) : Resource := ⟨data, 0⟩

def rest (r : Resource) : List UInt8 := r.data.drop r.pos

def take (r : Resource) (n : Nat) : List UInt8 × Resource :=
  let bytes := r.rest.take n
  (bytes, { r with pos := r.pos + bytes.length })

def seek (r : Resource) (p : Int) : Except Fault Resource :=
  if p < 0 then .error .device else .ok { r with pos := p.toNat }

def write (r : Resource) (bytes : List UInt8) : Resource :=
  ⟨r.data.take r.pos ++ bytes ++ r.data.drop (r.pos + bytes.length), r.pos + bytes.length⟩

theorem write_at_end (data bytes : List UInt8) : write ⟨data, data.length⟩ bytes = ⟨data ++ bytes, (data ++ bytes).length⟩ := by
  simp [write]

end Resource

end ScummKit.Pack
