import ScummKit.Json.Basic
import ScummKit.Text

/-!
# Numbers and names in files

A byte that would be unwelcome in XML is written as `\x` and two digits; a name of a file leaves
unwelcome bytes out.
-/

namespace ScummKit.Pack.Spelling

/-! ### Numbers -/

def decimal (n : Int) : String := toString n

def hex (n : Int) : String := (if n < 0 then "-0x" else "0x") ++ String.ofList (Nat.toDigits 16 n.natAbs)

def number (s : String) : Except Fault Int := if Text.starts s "0x" then Numeral.read 16 s else Numeral.read 10 s

/-- A text made longer by zeros in front, which go behind a sign. -/
def pad (width : Nat) (s : String) : String :=
  let zeros := String.ofList (List.replicate (width - s.length) '0')
  match s.toList with
  | '-' :: rest => "-" ++ zeros ++ String.ofList rest
  | '+' :: rest => "+" ++ zeros ++ String.ofList rest
  | _ => zeros ++ s

/-! ### Names -/

def inFileName (c : Char) : Bool := c.isAlphanum || "-_.() ".toList.contains c

def inXml (c : Char) : Bool := c.isAlphanum || "!?@#$%&*+\"';:,-_.() ".toList.contains c

def fileName (s : String) : String := String.ofList (s.toList.filter inFileName)

def escapeChar (c : Char) : List Char :=
  if inXml c then [c]
  else
    let digits := (Nat.toDigits 16 c.toNat).dropWhile (· = '0')
    '\\' :: 'x' :: (List.replicate (2 - digits.length) '0' ++ digits)

def escape (s : String) : String := String.ofList (s.toList.flatMap escapeChar)

def unescapePair (a b : Char) : Except Fault Char := do
  let n ← Numeral.read 16 (String.ofList [a, b])
  if n < 0 then .error .badValue else .ok (Char.ofNat n.toNat)

/-- The characters that an escaped text stands for. A backslash before any character but `x` is left
out. -/
def unescapeChars : List Char → Except Fault (List Char)
  | [] => .ok []
  | '\\' :: 'x' :: a :: b :: rest => do return (← unescapePair a b) :: (← unescapeChars rest)
  | '\\' :: 'x' :: _ => .error .outOfRange
  | ['\\'] => .error .outOfRange
  | '\\' :: c :: rest => do return c :: (← unescapeChars rest)
  | c :: rest => do return c :: (← unescapeChars rest)

def unescape (s : String) : Except Fault String := do
  return String.ofList (← unescapeChars s.toList)

/-! ### Values of any kind -/

def textOf : Json → Except Fault String
  | .text s => .ok s
  | _ => .error .wrongKind

def numberOf : Json → Except Fault Int
  | .text s => number s
  | .record _ => .error .wrongKind
  | _ => .error .absent

def decimalOf : Json → Except Fault String
  | .int n => .ok (decimal n)
  | .bool b => .ok (if b then "True" else "False")
  | .null => .ok "None"
  | .text s => .ok s
  | _ => .error .wrongKind

def hexOf (v : Json) : Except Fault String := do return hex (← v.integer)

end ScummKit.Pack.Spelling
