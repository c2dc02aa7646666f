import ScummKit.Json.Basic

/-!
# Reading JSON

Every step takes at least one character, so the length of the text bounds the depth of the recursion. Of
a key that occurs twice the last value counts, in the place of the first.
-/

namespace ScummKit.Json

def isBlank (c : Char) : Bool := c = ' ' || c = '\t' || c = '\n' || c = '\r'

def skipBlanks : List Char → List Char
  | [] => []
  | c :: rest => if isBlank c then skipBlanks rest else c :: rest

def hexDigit? (c : Char) : Option Nat :=
  if '0' ≤ c ∧ c ≤ '9' then some (c.toNat - 48)
  else if 'a' ≤ c ∧ c ≤ 'f' then some (c.toNat - 87)
  else if 'A' ≤ c ∧ c ≤ 'F' then some (c.toNat - 55)
  else none

def readUnit16 : List Char → Option (Nat × List Char)
  | a :: b :: c :: d :: rest => do
    let n := (← hexDigit? a) * 4096 + (← hexDigit? b) * 256 + (← hexDigit? c) * 16 + (← hexDigit? d)
    some (n, rest)
  | _ => none

def readText (fuel : Nat) (acc : List Char) (cs : List Char) : Option (String × List Char) :=
  match fuel, cs with
  | 0, _ => none
  | _, [] => none
  | fuel + 1, c :: rest =>
    if c = '"' then some (String.ofList acc.reverse, rest)
    else if c = '\\' then
      match rest with
      | [] => none
      | 'u' :: rest => do
        let (n, rest) ← readUnit16 rest
        if 0xd800 ≤ n ∧ n < 0xdc00 then
          match rest with
          | '\\' :: 'u' :: low =>
            match readUnit16 low with
            | some (m, after) =>
              if 0xdc00 ≤ m ∧ m < 0xe000 then
                readText fuel (Char.ofNat (0x10000 + (n - 0xd800) * 0x400 + (m - 0xdc00)) :: acc) after
              else readText fuel ('�' :: acc) rest
            | none => none
          | _ => readText fuel ('�' :: acc) rest
        else if 0xdc00 ≤ n ∧ n < 0xe000 then readText fuel ('�' :: acc) rest
        else readText fuel (Char.ofNat n :: acc) rest
      | e :: rest =>
        match e with
        | '"' => readText fuel ('"' :: acc) rest
        | '\\' => readText fuel ('\\' :: acc) rest
        | '/' => readText fuel ('/' :: acc) rest
        | 'b' => readText fuel ('\x08' :: acc) rest
        | 'f' => readText fuel ('\x0c' :: acc) rest
        | 'n' => readText fuel ('\n' :: acc) rest
        | 'r' => readText fuel ('\r' :: acc) rest
        | 't' => readText fuel ('\t' :: acc) rest
        | _ => none
    else if c.toNat < 0x20 then none
    else readText fuel (c :: acc) rest

def splitDigits (cs : List Char) : List Char × List Char := (cs.takeWhile Char.isDigit, cs.dropWhile Char.isDigit)

def ofDigits (ds : List Char) : Nat := ds.foldl (fun n d => n * 10 + (d.toNat - 48)) 0

def readExponent (cs : List Char) : Option (Int × List Char) :=
  match cs with
  | e :: rest =>
    if e = 'e' ∨ e = 'E' then
      let (negative, rest) := match rest with
        | '-' :: r => (true, r)
        | '+' :: r => (false, r)
        | r => (false, r)
      let (ds, rest) := splitDigits rest
      if ds.isEmpty then none
      else some (if negative then -(ofDigits ds : Int) else ofDigits ds, rest)
    else none
  | [] => none

def splitWhole (cs : List Char) : List Char × List Char :=
  match cs with
  | '0' :: rest => (['0'], rest)
  | _ => splitDigits cs

def splitFraction (cs : List Char) : List Char × List Char :=
  match cs with
  | '.' :: rest =>
    let (ds, after) := splitDigits rest
    if ds.isEmpty then ([], cs) else (ds, after)
  | _ => ([], cs)

/-- A number without its sign. A fraction or exponent that is not complete is left in the text. -/
def readNumber (negative : Bool) (cs : List Char) : Option (Json × List Char) :=
  let (whole, rest) := splitWhole cs
  if whole.isEmpty then none
  else
    let (fraction, rest) := splitFraction rest
    match readExponent rest with
    | some (e, rest) =>
      some (.real ⟨negative, ofDigits (whole ++ fraction), e - fraction.length⟩, rest)
    | none =>
      if fraction.isEmpty then
        some (.int (if negative then -(ofDigits whole : Int) else ofDigits whole), rest)
      else some (.real ⟨negative, ofDigits (whole ++ fraction), -(fraction.length : Int)⟩, rest)

def afterWord : List Char → List Char → Option (List Char)
  | [], cs => some cs
  | w :: ws, c :: cs => if w = c then afterWord ws cs else none
  | _ :: _, [] => none

def readWord (cs : List Char) : Option (Json × List Char) :=
  let word (w : String) (j : Json) : Option (Json × List Char) :=
    (afterWord w.toList cs).map fun rest => (j, rest)
  word "null" .null <|> word "true" (.bool true) <|> word "false" (.bool false)
    <|> word "NaN" .notANumber <|> word "Infinity" (.infinite false)
    <|> word "-Infinity" (.infinite true)

mutual

def readValue (fuel : Nat) (cs : List Char) : Option (Json × List Char) :=
  match fuel, cs with
  | 0, _ => none
  | _, [] => none
  | fuel + 1, c :: rest =>
    if c = '"' then (readText (rest.length + 1) [] rest).map fun (s, r) => (.text s, r)
    else if c = '[' then
      match skipBlanks rest with
      | ']' :: r => some (.list [], r)
      | r => readItems fuel [] r
    else if c = '\x7b' then
      match skipBlanks rest with
      | '\x7d' :: r => some (.record [], r)
      | r => readFields fuel [] r
    else
      match readWord (c :: rest) with
      | some found => some found
      | none => if c = '-' then readNumber true rest else readNumber false (c :: rest)

def readItems (fuel : Nat) (acc : List Json) (cs : List Char) : Option (Json × List Char) :=
  match fuel with
  | 0 => none
  | fuel + 1 =>
    match readValue fuel cs with
    | none => none
    | some (x, rest) =>
      match skipBlanks rest with
      | ']' :: r => some (.list (x :: acc).reverse, r)
      | ',' :: r => readItems fuel (x :: acc) (skipBlanks r)
      | _ => none

def readFields (fuel : Nat) (acc : List (String × Json)) (cs : List Char) : Option (Json × List Char) :=
  match fuel with
  | 0 => none
  | fuel + 1 =>
    match cs with
    | '"' :: rest =>
      match readText (rest.length + 1) [] rest with
      | none => none
      | some (key, rest) =>
        match skipBlanks rest with
        | ':' :: rest =>
          match readValue fuel (skipBlanks rest) with
          | none => none
          | some (v, rest) =>
            match skipBlanks rest with
            | '\x7d' :: r => some (.record (Table.put key v acc), r)
            | ',' :: r => readFields fuel (Table.put key v acc) (skipBlanks r)
            | _ => none
        | _ => none
    | _ => none

end

def parse (s : String) : Except Fault Json :=
  let cs := s.toList
  match readValue (2 * cs.length + 2) (skipBlanks cs) with
  | some (j, rest) => if (skipBlanks rest).isEmpty then .ok j else .error .badJson
  | none => .error .badJson

end ScummKit.Json
