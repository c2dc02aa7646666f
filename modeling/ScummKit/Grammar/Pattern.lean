import ScummKit.Grammar.Capture

/-!
# Patterns

Patterns are ordered: `first` takes the first alternative that matches, `longest` measures all of them
and then reads the longest, and nothing else is ever tried again. An action runs as soon as its pattern
has matched, and the state it changed stays changed when the pattern around it fails. Patterns skip
blanks in front of them.
-/

namespace ScummKit.Grammar

/-- Why a reading ended early: the text does not match here, or the work as a whole has failed. -/
inductive Stop where
  | mismatch
  | fault (f : Fault)
  deriving Inhabited

/-- The state of a reading: the furthest position any pattern has reached, the stored captures and
the state of the actions. -/
structure Machine (σ : Type) where
  furthest : Nat
  store : Store
  user : σ

abbrev Run (σ α : Type) := ExceptT Stop (StateM (Machine σ)) α

/-- Where an action runs: the whole text, and the position from which its pattern was tried, before
any blanks. -/
structure Site where
  text : Array Char
  start : Nat

inductive Reply where
  | keep
  | tokens (ts : List Token)
  | capture (c : Capture)
  | shared (index : Nat)

abbrev Action (σ : Type) := Site → Capture → Run σ Reply

/-- Patterns over rules named by `ρ`, with actions on a state `σ`. -/
inductive Pattern (ρ σ : Type) where
  | literal (s : String)
  /-- A character of one kind, then all that follow of another. -/
  | word (first rest : Char → Bool)
  | exactly (count : Nat) (kind : Char → Bool)
  /-- One to `count` characters of a kind, with none of that kind after them. -/
  | atMost (count : Nat) (kind : Char → Bool)
  | oneOf (words : σ → List String)
  | quoted
  | comment
  | textStart
  | textEnd
  | blank
  | seq (items : List (Pattern ρ σ))
  | first (items : List (Pattern ρ σ))
  | longest (items : List (Pattern ρ σ))
  | opt (p : Pattern ρ σ)
  | many (p : Pattern ρ σ)
  | some (p : Pattern ρ σ)
  | group (p : Pattern ρ σ)
  | drop (p : Pattern ρ σ)
  | apart (p : Pattern ρ σ)
  | named (name : String) (p : Pattern ρ σ)
  | act (f : Action σ) (p : Pattern ρ σ)
  /-- A rule of the grammar; `skips` says whether its pattern skips blanks. -/
  | rule (r : ρ) (skips : Bool)

namespace Pattern

variable {ρ σ : Type}

def skips : Pattern ρ σ → Bool
  | .first _ => false
  | .longest _ => false
  | .opt p => p.skips
  | .many p => p.skips
  | .some p => p.skips
  | .group p => p.skips
  | .drop p => p.skips
  | .named _ p => p.skips
  | .act _ p => p.skips
  | .rule _ b => b
  | _ => true

/-- Whether a name on the pattern stands for its whole capture. Otherwise it stands for the first
token. -/
def isList : Pattern ρ σ → Bool
  | .seq _ => true
  | .group _ => true
  | .many _ => true
  | .some _ => true
  | .opt p => p.isList
  | .apart p => p.isList
  | .named _ p => p.isList
  | .act _ p => p.isList
  | _ => false

end Pattern

/-! ### Characters -/

def isBlank (c : Char) : Bool := c = ' ' || c = '\n' || c = '\t' || c = '\r'

def skipBlanks (text : Array Char) (pos : Nat) : Nat :=
  if h : pos < text.size then
    if isBlank text[pos] then skipBlanks text (pos + 1) else pos
  else pos
termination_by text.size - pos

def standsAt (text : Array Char) : List Char → Nat → Bool
  | [], _ => true
  | c :: cs, pos => text[pos]? == some c && standsAt text cs (pos + 1)

def runEnd (text : Array Char) (kind : Char → Bool) (pos : Nat) : Nat :=
  if h : pos < text.size then
    if kind text[pos] then runEnd text kind (pos + 1) else pos
  else pos
termination_by text.size - pos

def slice (text : Array Char) (start stop : Nat) : String := String.ofList (text.extract start stop).toList

def longestWord (text : Array Char) (pos : Nat) : List String → Option String
  | [] => none
  | w :: rest =>
    let best := longestWord text pos rest
    if standsAt text w.toList pos && w ≠ "" then
      match best with
      | some b => if w.length < b.length then best else some w
      | none => some w
    else best

/-- The end of a quoted text. A doubled quote is part of the text, and so is any character after a
backslash; the last doubled quote ends the text if no closing quote follows on the line. -/
def quoteEnd (text : Array Char) (quote : Char) (pos : Nat) (doubled : Option Nat) : Option Nat :=
  if h : pos < text.size then
    let c := text[pos]
    if c = quote then
      if text[pos + 1]? == some quote then quoteEnd text quote (pos + 2) (some (pos + 1))
      else some (pos + 1)
    else if c = '\\' then
      match text[pos + 1]? with
      | some d => if d = '\n' then doubled else quoteEnd text quote (pos + 2) doubled
      | none => doubled
    else if c = '\n' ∨ c = '\r' then doubled
    else quoteEnd text quote (pos + 1) doubled
  else doubled
termination_by text.size - pos

def commentEnd (text : Array Char) (pos : Nat) : Option Nat :=
  if h : pos < text.size then
    if text[pos] = '*' ∧ text[pos + 1]? = some '/' then some (pos + 2) else commentEnd text (pos + 1)
  else none
termination_by text.size - pos

def expandTabs (s : String) : Array Char :=
  (s.foldl (fun (acc, column) c =>
    if c = '\t' then
      let fill := 8 - column % 8
      (acc ++ Array.replicate fill ' ', column + fill)
    else if c = '\n' ∨ c = '\r' then (acc.push c, 0)
    else (acc.push c, column + 1)) ((#[] : Array Char), 0)).1

end ScummKit.Grammar
