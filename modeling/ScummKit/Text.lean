import ScummKit.Numeral

/-!
# Text

Searching and replacing in sequences. Everything is said of lists, so that texts and byte strings share
it.
-/

namespace ScummKit.Text

/-! ### Searching and replacing -/

section Sequences

variable {α : Type} [BEq α]

def occurs (pattern : List α) : List α → Bool
  | [] => pattern.isEmpty
  | x :: rest => pattern.isPrefixOf (x :: rest) || occurs pattern rest

/-- Replaces a pattern that is not empty, skipping the first items. -/
def replaceAfter (pattern new : List α) : Nat → List α → List α
  | _, [] => []
  | skip + 1, _ :: rest => replaceAfter pattern new skip rest
  | 0, x :: rest =>
    if pattern.isPrefixOf (x :: rest) then new ++ replaceAfter pattern new (pattern.length - 1) rest
    else x :: replaceAfter pattern new 0 rest

/-- Replaces every occurrence of a pattern, from the left and without overlap. The empty pattern
occurs before every item and at the end. -/
def replace (pattern new xs : List α) : List α :=
  if pattern.isEmpty then new ++ xs.flatMap (fun x => x :: new)
  else replaceAfter pattern new 0 xs

def splitBy (separator : α) : List α → List (List α)
  | [] => [[]]
  | x :: rest =>
    if x == separator then [] :: splitBy separator rest
    else match splitBy separator rest with
      | [] => [[x]]
      | piece :: more => (x :: piece) :: more

end Sequences

def has (s pattern : String) : Bool := occurs pattern.toList s.toList

def starts (s pattern : String) : Bool := pattern.toList.isPrefixOf s.toList

def ends (s pattern : String) : Bool := pattern.toList.isSuffixOf s.toList

def swap (s pattern new : String) : String := String.ofList (replace pattern.toList new.toList s.toList)

def swapAll (s : String) (table : List (String × String)) : String := table.foldl (fun s e => swap s e.1 e.2) s

def split (s : String) (separator : Char) : List String := (splitBy separator s.toList).map String.ofList

/-! ### Lines -/

def endsLine (c : Char) : Bool :=
  let n := c.toNat
  (10 ≤ n && n ≤ 13) || (0x1c ≤ n && n ≤ 0x1e) || n = 0x85 || n = 0x2028 || n = 0x2029

/-- The lines of a text, given the line begun so far in reverse. A carriage return and a line feed
after it end one line. -/
def linesFrom : List Char → List Char → List (List Char)
  | [], [] => []
  | begun, [] => [begun.reverse]
  | begun, '\r' :: '\n' :: rest => begun.reverse :: linesFrom [] rest
  | begun, c :: rest =>
    if endsLine c then begun.reverse :: linesFrom [] rest else linesFrom (c :: begun) rest

def lines (s : String) : List String := (linesFrom [] s.toList).map String.ofList

/-- A text with one kind of line end: a carriage return, alone or before a line feed, is a line
feed. -/
def unixLines : List Char → List Char
  | [] => []
  | '\r' :: '\n' :: rest => '\n' :: unixLines rest
  | '\r' :: rest => '\n' :: unixLines rest
  | c :: rest => c :: unixLines rest

def strip (s : String) : String := String.ofList (Numeral.trim s.toList)

/-! ### Bytes -/

def ofUtf8 (bytes : List UInt8) : Except Fault String :=
  match String.fromUTF8? ⟨bytes.toArray⟩ with
  | some s => .ok s
  | none => .error .notText

def toUtf8 (s : String) : List UInt8 := s.toUTF8.toList

def ofBytes (bytes : List UInt8) : String := String.ofList (bytes.map fun b => Char.ofNat b.toNat)

def toBytes (s : String) : List UInt8 := s.toList.map fun c => UInt8.ofNat c.toNat

end ScummKit.Text
