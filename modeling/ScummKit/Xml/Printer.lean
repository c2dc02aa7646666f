import ScummKit.Xml.Basic

/-!
# Writing XML

A document is written in ASCII, with references for other characters. An element without text and
children closes itself.
-/

namespace ScummKit.Xml

def ascii (c : Char) : String := if c.toNat < 0x80 then String.singleton c else s!"&#{c.toNat};"

def textChar (c : Char) : String :=
  if c = '&' then "&amp;" else if c = '<' then "&lt;" else if c = '>' then "&gt;" else ascii c

def valueChar (c : Char) : String := if c = '"' then "&quot;" else if c = '\n' then "&#10;" else textChar c

def escaped (f : Char → String) (s : String) : String := String.join (s.toList.map f)

def attributeText (attributes : List (String × String)) : String :=
  String.join (attributes.map fun a => s!" {a.1}=\"" ++ escaped valueChar a.2 ++ "\"")

def optionalText : Option String → String
  | none => ""
  | some s => escaped textChar s

mutual

def Element.render : Element → String
  | ⟨tag, attributes, text, children, tail⟩ =>
    let start := "<" ++ tag ++ attributeText attributes
    let inside := optionalText text
    (if inside = "" ∧ children.isEmpty then start ++ " />"
     else start ++ ">" ++ inside ++ renderAll children ++ "</" ++ tag ++ ">") ++ optionalText tail

def Element.renderAll : List Element → String
  | [] => ""
  | e :: rest => e.render ++ Element.renderAll rest

end

end ScummKit.Xml
