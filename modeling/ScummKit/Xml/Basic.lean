import ScummKit.Numeral

/-!
# XML documents

Headers and indexes of unpacked games are kept in XML files. An element has a tag, attributes, the
text before its first child, its children, and the text between its end and the next tag.
-/

namespace ScummKit.Xml

structure Element where
  tag : String
  attributes : List (String × String)
  text : Option String
  children : List Element
  tail : Option String
  deriving Repr, Inhabited

namespace Element

def leaf (tag text : String) : Element := ⟨tag, [], some text, [], none⟩

def node (tag : String) (children : List Element) : Element := ⟨tag, [], none, children, none⟩

def find? (e : Element) (tag : String) : Option Element := e.children.find? (·.tag = tag)

def find (e : Element) (tag : String) : Except Fault Element :=
  match e.find? tag with
  | some c => .ok c
  | none => .error .absent

def follow (e : Element) : List String → Except Fault Element
  | [] => .ok e
  | tag :: rest => do (← e.find tag).follow rest

mutual

def all (tag : String) : Element → List Element
  | ⟨t, attributes, text, children, tail⟩ =>
    (if t = tag then [⟨t, attributes, text, children, tail⟩] else []) ++ allIn tag children

def allIn (tag : String) : List Element → List Element
  | [] => []
  | e :: rest => all tag e ++ allIn tag rest

end

/-! ### Layout -/

def isBlank (s : Option String) : Bool :=
  match s with
  | none => true
  | some s => s.toList.all Numeral.isBlank

def orElse (s : Option String) (new : String) : Option String := if isBlank s then some new else s

def lineBreak (depth : Int) : String := "\n" ++ String.ofList (List.replicate (2 * depth.toNat) ' ')

/-- The last of some elements with its tail replaced if it is blank. -/
def closeLast (new : String) : List Element → List Element
  | [] => []
  | [e] => [{ e with tail := orElse e.tail new }]
  | e :: rest => e :: closeLast new rest

mutual

def indent (depth : Int) : Element → Element
  | ⟨tag, attributes, text, [], tail⟩ =>
    ⟨tag, attributes, text, [], if depth = 0 then tail else orElse tail (lineBreak depth)⟩
  | ⟨tag, attributes, text, c :: rest, tail⟩ =>
    ⟨tag, attributes, orElse text (lineBreak depth ++ "  "), closeLast (lineBreak depth) (indentAll (depth + 1) (c :: rest)),
      orElse tail (lineBreak depth)⟩

def indentAll (depth : Int) : List Element → List Element
  | [] => []
  | e :: rest => indent depth e :: indentAll depth rest

end

end Element

end ScummKit.Xml
