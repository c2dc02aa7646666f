import ScummKit.Fault
import ScummKit.Table

/-!
# Captures

What a pattern has read: a list of tokens, some of them also filed under a name. A stored capture
stands, as a shared token, for whatever the store holds at the time it is looked at.
-/

namespace ScummKit.Grammar

/-- One piece of a capture: source text, finished code, a capture of its own, or a stored one. -/
inductive Token where
  | word (s : String)
  | code (bytes : List UInt8)
  | group (tokens : List Token) (names : List (String × Token))
  | shared (index : Nat)
  deriving Inhabited

structure Capture where
  tokens : List Token
  names : List (String × Token)
  deriving Inhabited

namespace Capture

def empty : Capture := ⟨[], []⟩

def single (t : Token) : Capture := ⟨[t], []⟩

def toToken (c : Capture) : Token := .group c.tokens c.names

def find? (c : Capture) (name : String) : Option Token := Table.find? name c.names

def has (c : Capture) (name : String) : Bool := (c.find? name).isSome

def file (c : Capture) (name : String) (t : Token) : Capture := { c with names := Table.put name t c.names }

def append (a b : Capture) : Capture :=
  ⟨a.tokens ++ b.tokens, b.names.foldl (fun names (k, t) => Table.put k t names) a.names⟩

instance : Append Capture := ⟨append⟩

end Capture

abbrev Store := Array Capture

namespace Store

def fetch (s : Store) (i : Nat) : Capture := s[i]?.getD .empty

end Store

end ScummKit.Grammar
