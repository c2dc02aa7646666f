import ScummKit.Json.Basic

/-!
# Writing JSON

A document is written in ASCII: other characters become `\u` escapes, those above the first plane
two of them. Indented documents put every item on a line of its own and close an empty list or
record at once.
-/

namespace ScummKit.Json

def unit16 (n : Nat) : String :=
  let digit (k : Nat) : Char := Nat.digitChar (n / Nat.pow 16 k % 16)
  String.ofList [digit 3, digit 2, digit 1, digit 0]

def escapeChar (c : Char) : String :=
  let n := c.toNat
  if c = '"' then "\\\""
  else if c = '\\' then "\\\\"
  else if c = '\n' then "\\n"
  else if c = '\r' then "\\r"
  else if c = '\t' then "\\t"
  else if n = 8 then "\\b"
  else if n = 12 then "\\f"
  else if 0x20 ≤ n ∧ n < 0x7f then String.singleton c
  else if n = 0x7f then String.singleton c
  else if n < 0x10000 then "\\u" ++ unit16 n
  else
    let m := n - 0x10000
    "\\u" ++ unit16 (0xd800 + m / 0x400) ++ "\\u" ++ unit16 (0xdc00 + m % 0x400)

def quote (s : String) : String := s.foldl (fun acc c => acc ++ escapeChar c) "\"" ++ "\""

def dropZeros (fuel n : Nat) : Nat × Nat :=
  match fuel with
  | 0 => (n, 0)
  | fuel + 1 =>
    if n ≠ 0 ∧ n % 10 = 0 then
      let (m, k) := dropZeros fuel (n / 10)
      (m, k + 1)
    else (n, 0)

/-- A decimal number: positional from `0.0001` up to sixteen digits before the point, with an
exponent of at least two digits outside. A whole number keeps one zero after the point. -/
def decimal (x : Decimal) : String :=
  let sign := if x.negative then "-" else ""
  if x.digits = 0 then sign ++ "0.0"
  else
    let (m, zeros) := dropZeros (toString x.digits).length x.digits
    let digits := (toString m).toList
    let count : Int := digits.length
    -- the value is 0.d₁d₂… · 10 ^ point
    let point : Int := count + x.exponent + zeros
    if -4 < point ∧ point ≤ 16 then
      if point ≤ 0 then
        sign ++ "0." ++ String.ofList (List.replicate (-point).toNat '0' ++ digits)
      else if point ≥ count then
        sign ++ String.ofList (digits ++ List.replicate (point - count).toNat '0') ++ ".0"
      else
        sign ++ String.ofList (digits.take point.toNat) ++ "." ++ String.ofList (digits.drop point.toNat)
    else
      let e := point - 1
      let mantissa := match digits with
        | [] => ""
        | [d] => String.singleton d
        | d :: rest => String.singleton d ++ "." ++ String.ofList rest
      let size := toString e.natAbs
      sign ++ mantissa ++ "e" ++ (if e < 0 then "-" else "+") ++ (if size.length < 2 then "0" ++ size else size)

def newline (indent depth : Nat) : String := "\n" ++ String.ofList (List.replicate (indent * depth) ' ')

def scalar : Json → String
  | .null => "null"
  | .bool true => "true"
  | .bool false => "false"
  | .int n => toString n
  | .real x => decimal x
  | .notANumber => "NaN"
  | .infinite true => "-Infinity"
  | .infinite false => "Infinity"
  | .text s => quote s
  | .list _ => ""
  | .record _ => ""

mutual

def layout (indent depth : Nat) : Json → String
  | .list [] => "[]"
  | .list (x :: rest) =>
    "[" ++ newline indent (depth + 1) ++ layout indent (depth + 1) x
      ++ layoutItems indent (depth + 1) rest ++ newline indent depth ++ "]"
  | .record [] => "\x7b\x7d"
  | .record ((k, v) :: rest) =>
    "\x7b" ++ newline indent (depth + 1) ++ quote k ++ ": " ++ layout indent (depth + 1) v
      ++ layoutFields indent (depth + 1) rest ++ newline indent depth ++ "\x7d"
  | j => scalar j

def layoutItems (indent depth : Nat) : List Json → String
  | [] => ""
  | x :: rest => "," ++ newline indent depth ++ layout indent depth x ++ layoutItems indent depth rest

def layoutFields (indent depth : Nat) : List (String × Json) → String
  | [] => ""
  | (k, v) :: rest =>
    "," ++ newline indent depth ++ quote k ++ ": " ++ layout indent depth v ++ layoutFields indent depth rest

end

def pretty (indent : Nat) (j : Json) : String := layout indent 0 j

mutual

def appendLine (acc : String) : Json → String
  | .list [] => acc ++ "[]"
  | .list (x :: rest) => appendItems (appendLine (acc ++ "[") x) rest ++ "]"
  | .record [] => acc ++ "\x7b\x7d"
  | .record ((k, v) :: rest) =>
    appendFields (appendLine (acc ++ "\x7b" ++ quote k ++ ": ") v) rest ++ "\x7d"
  | j => acc ++ scalar j

def appendItems (acc : String) : List Json → String
  | [] => acc
  | x :: rest => appendItems (appendLine (acc ++ ", ") x) rest

def appendFields (acc : String) : List (String × Json) → String
  | [] => acc
  | (k, v) :: rest => appendFields (appendLine (acc ++ ", " ++ quote k ++ ": ") v) rest

end

def line (j : Json) : String := appendLine "" j

end ScummKit.Json
