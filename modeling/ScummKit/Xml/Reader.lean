import ScummKit.Text
import ScummKit.Xml.Basic

/-!
# Reading XML

A text is first cut into tags and stretches of characters, and the tags are then matched with a stack of
open elements. Comments and processing instructions leave no trace.
-/

namespace ScummKit.Xml

inductive Token where
  | start (tag : String) (attributes : List (String × String))
  | finish (tag : String)
  | chars (s : List Char)
  | doctype
  deriving Repr, DecidableEq, Inhabited

/-! ### Characters and names -/

def isChar (c : Char) : Bool :=
  let n := c.toNat
  n = 9 || n = 10 || n = 13 || (0x20 ≤ n && n ≠ 0xfffe && n ≠ 0xffff)

def isSpace (c : Char) : Bool := c = ' ' || c = '\t' || c = '\n' || c = '\r'

def startsName (c : Char) : Bool := c.isAlpha || c = '_' || 0x80 ≤ c.toNat

def inName (c : Char) : Bool := startsName c || c.isDigit || c = '-' || c = '.' || c.toNat = 0xb7

def name : List Char → Option (String × List Char)
  | [] => none
  | c :: rest =>
    if startsName c then some (String.ofList (c :: rest.takeWhile inName), rest.dropWhile inName)
    else none

def skipSpaces (cs : List Char) : List Char := cs.dropWhile isSpace

def before (mark : List Char) : List Char → Option (List Char × List Char)
  | [] => none
  | c :: rest =>
    if mark.isPrefixOf (c :: rest) then some ([], (c :: rest).drop mark.length)
    else (before mark rest).map fun r => (c :: r.1, r.2)

def charOf? (n : Nat) : Option Char :=
  if h : n.isValidChar then
    let c := Char.ofNatAux n h
    if isChar c then some c else none
  else none

def digits? (base : Nat) (cs : List Char) : Option Nat :=
  if cs.isEmpty then none
  else cs.foldl (fun n c => do return (← n) * base + (← Numeral.digit? base c)) (some 0)

def reference? (body : List Char) : Option Char :=
  match body with
  | '#' :: 'x' :: ds => (digits? 16 ds).bind charOf?
  | '#' :: ds => (digits? 10 ds).bind charOf?
  | _ =>
    [("lt", '<'), ("gt", '>'), ("amp", '&'), ("quot", '"'), ("apos", '\'')].lookup (String.ofList body)

/-! ### Tags -/

def value (quote : Char) : Nat → List Char → Option (List Char × List Char)
  | 0, _ => none
  | _, [] => none
  | fuel + 1, c :: rest =>
    if c = quote then some ([], rest)
    else if c = '<' ∨ !isChar c then none
    else if c = '&' then do
      let (body, rest) ← before [';'] rest
      let r ← reference? body
      let (more, rest) ← value quote fuel rest
      return (r :: more, rest)
    else do
      let (more, rest) ← value quote fuel rest
      return ((if isSpace c then ' ' else c) :: more, rest)

def attributes : Nat → List (String × String) → List Char → Option (List (String × String) × List Char)
  | 0, _, _ => none
  | fuel + 1, found, cs =>
    let after := skipSpaces cs
    match after with
    | '>' :: _ => some (found, after)
    | '/' :: _ => some (found, after)
    | _ =>
      if after.length = cs.length then none
      else do
        let (key, rest) ← name after
        match skipSpaces rest with
        | '=' :: rest =>
          match skipSpaces rest with
          | q :: rest =>
            if q = '"' ∨ q = '\'' then
              let (v, rest) ← value q (rest.length + 1) rest
              if (found.lookup key).isSome then none
              else attributes fuel (found ++ [(key, String.ofList v)]) rest
            else none
          | [] => none
        | _ => none

def startTag (cs : List Char) : Option (List Token × List Char) := do
  let (tag, rest) ← name cs
  let (found, rest) ← attributes (rest.length + 1) [] rest
  match rest with
  | '>' :: rest => some ([.start tag found], rest)
  | '/' :: '>' :: rest => some ([.start tag found, .finish tag], rest)
  | _ => none

def endTag (cs : List Char) : Option (List Token × List Char) := do
  let (tag, rest) ← name cs
  match skipSpaces rest with
  | '>' :: rest => some ([.finish tag], rest)
  | _ => none

def skipComment (cs : List Char) : Option (List Char) := do
  let (inside, rest) ← before ['-', '-'] cs
  match rest with
  | '>' :: rest => if inside.all isChar then some rest else none
  | _ => none

def skipInstruction (cs : List Char) : Option (List Char) := do
  let (target, rest) ← name cs
  if target.map Char.toLower = "xml" then none
  else match rest with
    | '?' :: '>' :: rest => some rest
    | c :: _ =>
      if isSpace c then
        let (inside, rest) ← before ['?', '>'] rest
        if inside.all isChar then some rest else none
      else none
    | [] => none

def skipDoctype : Nat → List Char → Option (List Char)
  | _, [] => none
  | 0, '>' :: rest => some rest
  | depth, c :: rest =>
    skipDoctype (if c = '[' then depth + 1 else if c = ']' then depth - 1 else depth) rest

/-! ### Tokens -/

def tokens : Nat → List Char → Option (List Token)
  | 0, _ => none
  | _, [] => some []
  | fuel + 1, '<' :: rest =>
    match rest with
    | '/' :: rest => do
      let (ts, rest) ← endTag rest
      return ts ++ (← tokens fuel rest)
    | '?' :: rest => do tokens fuel (← skipInstruction rest)
    | '!' :: '-' :: '-' :: rest => do tokens fuel (← skipComment rest)
    | '!' :: '[' :: 'C' :: 'D' :: 'A' :: 'T' :: 'A' :: '[' :: rest => do
      let (inside, rest) ← before [']', ']', '>'] rest
      if inside.all isChar then return .chars inside :: (← tokens fuel rest) else none
    | '!' :: 'D' :: 'O' :: 'C' :: 'T' :: 'Y' :: 'P' :: 'E' :: rest => do
      return .doctype :: (← tokens fuel (← skipDoctype 0 rest))
    | _ => do
      let (ts, rest) ← startTag rest
      return ts ++ (← tokens fuel rest)
  | fuel + 1, '&' :: rest => do
    let (body, rest) ← before [';'] rest
    return .chars [← reference? body] :: (← tokens fuel rest)
  | _, ']' :: ']' :: '>' :: _ => none
  | fuel + 1, c :: rest => do
    if isChar c then return .chars [c] :: (← tokens fuel rest) else none

/-! ### Elements -/

structure Opened where
  tag : String
  attributes : List (String × String)
  text : Option String
  children : List Element

/-- The elements open at some place, the innermost first, and the document's element if it is
complete. -/
structure Stack where
  opened : List Opened
  root : Option Element

def extend (s : Option String) (cs : List Char) : Option String :=
  if cs.isEmpty then s else some (s.getD "" ++ String.ofList cs)

/-- Puts characters where they belong: into the innermost element, before or after its children. -/
def Opened.addChars (o : Opened) (cs : List Char) : Opened :=
  match o.children with
  | [] => { o with text := extend o.text cs }
  | e :: rest => { o with children := { e with tail := extend e.tail cs } :: rest }

def Stack.take (s : Stack) (t : Token) : Option Stack :=
  match t, s.opened with
  | .doctype, [] => if s.root.isSome then none else some s
  | .doctype, _ => none
  | .chars cs, [] => if cs.all isSpace then some s else none
  | .chars cs, o :: rest => some { s with opened := o.addChars cs :: rest }
  | .start tag attributes, [] =>
    if s.root.isSome then none else some { s with opened := [⟨tag, attributes, none, []⟩] }
  | .start tag attributes, os => some { s with opened := ⟨tag, attributes, none, []⟩ :: os }
  | .finish _, [] => none
  | .finish tag, o :: rest =>
    if o.tag ≠ tag then none
    else
      let e : Element := ⟨o.tag, o.attributes, o.text, o.children.reverse, none⟩
      match rest with
      | [] => some ⟨[], some e⟩
      | p :: above => some { s with opened := { p with children := e :: p.children } :: above }

def Element.ofTokens (ts : List Token) : Option Element := do
  let s ← ts.foldlM Stack.take ⟨[], none⟩
  if s.opened.isEmpty then s.root else none

/-! ### Documents -/

def declaration (cs : List Char) : Option (Option String × List Char) :=
  match cs with
  | '<' :: '?' :: 'x' :: 'm' :: 'l' :: c :: rest =>
    if isSpace c then do
      let (inside, rest) ← before ['?', '>'] (c :: rest)
      let (found, _) ← attributes (inside.length + 2) [] (inside ++ ['>'])
      if (found.lookup "version").isNone then none
      else return ((found.lookup "encoding").map (·.map Char.toLower), rest)
    else some (none, cs)
  | _ => some (none, cs)

def decode (bytes : List UInt8) : Option (List Char) := do
  let latin := (Text.ofBytes bytes).toList
  let (encoding, _) ← declaration latin
  match encoding with
  | some "iso-8859-1" => some latin
  | some "us-ascii" => if bytes.all (· < 0x80) then some latin else none
  | none | some "utf-8" =>
    let s ← (Text.ofUtf8 bytes).toOption
    match s.toList with
    | c :: rest => if c.toNat = 0xfeff then some rest else some (c :: rest)
    | [] => some []
  | some _ => none

def parse (bytes : List UInt8) : Except Fault Element :=
  let result := do
    let cs ← decode bytes
    let (_, rest) ← declaration (Text.unixLines cs)
    Element.ofTokens (← tokens (rest.length + 1) rest)
  match result with
  | some e => .ok e
  | none => .error .badXml

end ScummKit.Xml
