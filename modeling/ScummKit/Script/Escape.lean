import ScummKit.Numeral
import ScummKit.Script.Field

/-!
# Escapes in texts

Texts in scripts name bytes that cannot be typed. In the current notation a backslash does so: `\x`
and two hexadecimal digits stand for a byte, and any other character after a backslash for itself. In
the legacy notation a caret and decimal digits stand for a byte, and a caret before anything else for
itself.
-/

namespace ScummKit.Script.Escape

def charByte (c : Char) : UInt8 := UInt8.ofNat c.toNat

def bytes (s : String) : Code := s.toList.map charByte

def byteOf (n : Int) : Except Fault UInt8 := if 0 ≤ n ∧ n ≤ 255 then .ok (UInt8.ofNat n.toNat) else .error .badValue

def current : List Char → Except Fault Code
  | [] => .ok []
  | '\\' :: 'x' :: a :: b :: rest => do
    let value ← Numeral.read 16 (String.ofList [a, b])
    return (← byteOf value) :: (← current rest)
  | '\\' :: 'x' :: _ => .error .outOfRange
  | '\\' :: c :: rest => return charByte c :: (← current rest)
  | ['\\'] => .error .outOfRange
  | c :: rest => return charByte c :: (← current rest)

def caret (digits : List Char) : Except Fault Code :=
  match Numeral.readDigits 10 0 digits with
  | some n =>
    if digits.isEmpty then .ok [charByte '^']
    else if n ≤ 255 then .ok [UInt8.ofNat n]
    else .error (.compiling ("Invalid escape character code: ^" ++ String.ofList digits))
  | none => .error .badValue

/-- A text in the legacy notation. `pending` holds the digits read after a caret; they are written
once a character follows that is no digit. -/
def legacyFrom (pending : Option (List Char)) : List Char → Except Fault Code
  | [] => .ok []
  | c :: rest =>
    match pending with
    | some digits =>
      if c.isDigit then legacyFrom (some (digits ++ [c])) rest
      else do
        let before ← caret digits
        if c = '^' then return before ++ (← legacyFrom (some []) rest)
        else return before ++ charByte c :: (← legacyFrom none rest)
    | none =>
      if c = '^' then legacyFrom (some []) rest
      else return charByte c :: (← legacyFrom none rest)

def legacy (cs : List Char) : Except Fault Code := legacyFrom none cs

end ScummKit.Script.Escape
