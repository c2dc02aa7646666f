import ScummKit.Position
import ScummKit.Text

/-!
# Paths

Reading a path drops empty names and the name `.`; the name `..` is kept, since what it leads to depends
on the folders.
-/

namespace ScummKit

structure Path where
  /-- The slashes in front: none, one, or exactly two. -/
  root : String
  parts : List String
  deriving Repr, DecidableEq, Inhabited

namespace Path

def slashes (cs : List Char) : Nat := (cs.takeWhile (· = '/')).length

def names (s : String) : List String := (Text.split s '/').filter fun name => name ≠ "" && name ≠ "."

def ofText (s : String) : Path :=
  ⟨match slashes s.toList with
    | 0 => ""
    | 2 => "//"
    | _ => "/", names s⟩

/-- A path as text. The path without names is a dot, unless it is the root. -/
def text (p : Path) : String := if p.root = "" ∧ p.parts = [] then "." else p.root ++ "/".intercalate p.parts

def name (p : Path) : String := p.parts.getLastD ""

def parent (p : Path) : Path := { p with parts := p.parts.dropLast }

def parents (p : Path) : List Path :=
  (List.range p.parts.length).map fun i => { p with parts := p.parts.take (p.parts.length - 1 - i) }

def ancestor (p : Path) (level : Int) : Except Fault Path := Position.look p.parents level

def join (p : Path) (s : String) : Path :=
  let q := ofText s
  if q.root = "" then { p with parts := p.parts ++ q.parts } else q

def sibling (p : Path) (name : String) : Path := p.parent.join name

def rename (p : Path) (f : String → String) : Path := p.sibling (f p.name)

def relativeTo (p folder : Path) : Except Fault Path :=
  if p.root = folder.root ∧ folder.parts.isPrefixOf p.parts then
    .ok ⟨"", p.parts.drop folder.parts.length⟩
  else .error .badValue

def resolveFrom : List String → List String → List String
  | above, [] => above.reverse
  | above, ".." :: rest => resolveFrom above.tail rest
  | above, name :: rest => resolveFrom (name :: above) rest

def resolve (p : Path) : Path := ⟨"/", resolveFrom [] p.parts⟩

/-! ### Paths that stay text

Command-line tools put names together as text, so that messages show a path as it was given. -/

def append (folder name : String) : String :=
  if Text.starts name "/" then name
  else if folder = "" ∨ Text.ends folder "/" then folder ++ name
  else folder ++ "/" ++ name

def splitName (s : String) : String × String :=
  let back := s.toList.reverse
  let name := (back.takeWhile (· ≠ '/')).reverse
  (String.ofList (s.toList.take (s.length - name.length)), String.ofList name)

def lastName (s : String) : String := (splitName s).2

/-- A path without the ending of its last name, and the ending with its dot. Dots at the start of the
name belong to no ending. -/
def splitEnding (s : String) : String × String :=
  let body := (lastName s).toList.dropWhile (· = '.')
  let ending := (body.reverse.takeWhile (· ≠ '.')).length
  if ending = body.length then (s, "")
  else
    let kept := s.length - ending - 1
    (String.ofList (s.toList.take kept), String.ofList (s.toList.drop kept))

end Path

end ScummKit
