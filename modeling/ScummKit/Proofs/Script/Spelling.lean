import ScummKit.Proofs.Script.Outline

/-!
# How outlines are written

`Spells` says which outline the text between two places is a spelling of. What is fixed text is looked
for as such: keywords, braces, labels, and the byte a listing shows in front of a line. Instructions
and tests are whatever the reader takes for one.
-/

namespace ScummKit.Script

open Grammar Lexicon Special Statement

/-! ### Fixed text -/

section Places

variable (text : Array Char)

/-- The end of a fixed text behind the blanks at a place. -/
def markEnd? (s : String) (pos : Nat) : Option Nat :=
  let start := skipBlanks text pos
  if standsAt text s.toList start then some (start + s.length) else none

/-- The name behind the blanks at a place, and its end. -/
def nameAt? (pos : Nat) : Option (Name × Nat) :=
  let start := skipBlanks text pos
  let stop := runEnd text isName (start + 1)
  if h : (slice text start stop).toList.head?.any isName = true then
    some (⟨slice text start stop, h⟩, stop)
  else none

/-- The label in brackets at a place, and its end. -/
def bracketed? (pos : Nat) : Option (Name × Nat) := do
  let start ← markEnd? text "[" pos
  let (name, stop) ← nameAt? text start
  return (name, ← markEnd? text "]" stop)

/-- The end of what a listing shows for a byte: two digits, a name or two stars. -/
def byteEnd? (pos : Nat) : Option Nat :=
  let start := skipBlanks text pos
  if start + 2 ≤ runEnd text isHex start then some (start + 2)
  else ((nameAt? text start).map Prod.snd).or (markEnd? text "**" start)

/-- The end of a listed byte in parentheses. -/
def listedEnd? (pos : Nat) : Option Nat := do
  markEnd? text ")" (← byteEnd? text (← markEnd? text "(" pos))

/-- The label in front of a line. -/
def headLabel (pos : Nat) : Option Name := (bracketed? text pos).map Prod.fst

/-- Where the label in front of a line ends. -/
def labelEnd (pos : Nat) : Nat := ((bracketed? text pos).map Prod.snd).getD (skipBlanks text pos)

/-- Where what stands in front of a line ends: a label and a listed byte. -/
def headEnd (pos : Nat) : Nat :=
  let stop := labelEnd text pos
  (listedEnd? text stop).getD (skipBlanks text stop)

/-- The end of a comment behind the blanks at a place. -/
def remarkEnd? (pos : Nat) : Option Nat :=
  let start := skipBlanks text pos
  if standsAt text ['/', '*'] start then commentEnd text (start + 2) else none

/-- Where what stands behind a line ends: a comment. -/
def tailEnd (pos : Nat) : Nat := (remarkEnd? text pos).getD (skipBlanks text pos)

/-- Where something that need not be there ends. -/
def optionalEnd (s : String) (pos : Nat) : Nat := (markEnd? text s pos).getD (skipBlanks text pos)

/-- The label in front of a line as an outline. -/
def atHead (pos : Nat) : Outline := ((headLabel text pos).map Outline.label).getD .skip

end Places

/-! ### Instructions, tests and jumps -/

section Lines

variable (v : Version) (legacy : Bool) (text : Array Char)

/-- The instructions that stand on a line of their own. -/
def instructions : List Syn :=
  [count, inlineOperation, expressionMode v legacy, .first (all v legacy), .first (functions v legacy)]

/-- What stands on a line with one construct. -/
inductive SpellsLine : Nat → Nat → Outline → Prop
  | plain {p : Syn} {pos stop : Nat} {code : Code} : p ∈ instructions v legacy →
      Yields v legacy text p pos stop code → SpellsLine pos stop (.plain code)
  | goto {pos a stop : Nat} {name : Name} : markEnd? text "goto" pos = some a →
      nameAt? text a = some (name, stop) → SpellsLine pos stop (.goto name)
  | unless {pos a b c d e stop : Nat} {code : Code} {name : Name} :
      markEnd? text "unless" pos = some a → markEnd? text "(" a = some b →
      Yields v legacy text (test v legacy) b c code → markEnd? text ")" c = some d →
      markEnd? text "goto" d = some e → nameAt? text e = some (name, stop) →
      SpellsLine pos stop (.unless code name)

/-- A keyword, a test in parentheses and an opening brace. -/
inductive SpellsHead (keyword : String) : Nat → Nat → Code → Prop
  | mk {pos a b c d stop : Nat} {code : Code} : markEnd? text keyword pos = some a →
      markEnd? text "(" a = some b → Yields v legacy text (test v legacy) b c code →
      markEnd? text ")" c = some d → markEnd? text "\x7b" d = some stop →
      SpellsHead keyword pos stop code

/-- An instruction that may be left out. -/
inductive SpellsOptional (p : Syn) : Nat → Nat → Option Code → Prop
  | absent {pos stop : Nat} : skipBlanks text stop = skipBlanks text pos → SpellsOptional p pos stop none
  | present {pos start stop : Nat} {code : Code} : skipBlanks text start = skipBlanks text pos →
      Yields v legacy text p start stop code → SpellsOptional p pos stop (some code)

/-- The head of a for loop. -/
inductive SpellsFor : Nat → Nat → Option Code → Code → Option Code → Prop
  | mk {pos a b c d e f g h stop : Nat} {first step : Option Code} {code : Code} :
      markEnd? text "for" pos = some a → markEnd? text "(" a = some b →
      SpellsOptional v legacy text inlineOperation b c first → markEnd? text ";" c = some d →
      Yields v legacy text (test v legacy) d e code → markEnd? text ";" e = some f →
      SpellsOptional v legacy text (.first [inlineOperation, count]) f g step →
      markEnd? text ")" g = some h →
      markEnd? text "\x7b" h = some stop → SpellsFor pos stop first code step

/-- How a branch without a test opens. -/
inductive SpellsElse : Nat → Nat → Prop
  | brace {pos stop : Nat} : markEnd? text "\x7b" pos = some stop → SpellsElse pos stop
  | bare {pos : Nat} : SpellsElse pos (skipBlanks text pos)

/-! ### Blocks -/

mutual

/-- The text between two places is a spelling of an outline. -/
inductive Spells : Nat → Nat → Outline → Prop
  | nothing {pos stop : Nat} : skipBlanks text stop = skipBlanks text pos → Spells pos stop .skip
  | seq {a b c : Nat} {o o' : Outline} : Spells a b o → Spells b c o' → Spells a c (.seq o o')
  | remark {pos stop : Nat} : remarkEnd? text (headEnd text pos) = some stop → Spells pos (tailEnd text stop) (atHead text pos)
  | line {pos stop : Nat} {o : Outline} : SpellsLine v legacy text (skipBlanks text (headEnd text pos)) stop o →
      Spells pos (tailEnd text (optionalEnd text ";" stop)) (.seq (atHead text pos) o)
  | start {pos stop : Nat} {code : Code} : (markEnd? text "startScript" (headEnd text pos)).isSome →
      Yields v legacy text (startLine legacy) pos stop code →
      Spells pos stop (.seq (atHead text pos) (.plain code))
  | cond {pos a k stop : Nat} {code : Code} {body : Outline} {others : Branches} :
      SpellsHead v legacy text "if" (headEnd text pos) a code → Spells (tailEnd text a) k body →
      SpellsBranches k stop others →
      Spells pos stop (.seq (atHead text pos) (.cond code body others))
  | forLoop {pos a k b : Nat} {first step : Option Code} {code : Code} {body : Outline} :
      SpellsFor v legacy text (headEnd text pos) a first code step →
      Spells (tailEnd text a) k body → markEnd? text "\x7d" (headEnd text k) = some b →
      Spells pos (tailEnd text b) (.seq (atHead text pos) (.forLoop first code step (.seq body (atHead text k))))
  | whileLoop {pos a k b : Nat} {code : Code} {body : Outline} :
      SpellsHead v legacy text "while" (headEnd text pos) a code → Spells (tailEnd text a) k body →
      markEnd? text "\x7d" (headEnd text k) = some b →
      Spells pos (tailEnd text b) (.seq (atHead text pos) (.whileLoop code (.seq body (atHead text k))))
  | doLoop {pos a b k c d e f g : Nat} {code : Code} {body : Outline} :
      markEnd? text "do" (headEnd text pos) = some a → markEnd? text "\x7b" a = some b →
      Spells (tailEnd text b) k body → markEnd? text "\x7d" (headEnd text k) = some c →
      markEnd? text "while" c = some d → markEnd? text "(" d = some e →
      Yields v legacy text (test v legacy) e f code → markEnd? text ")" f = some g →
      Spells pos (tailEnd text g) (.seq (atHead text pos) (.doLoop (.seq body (atHead text k)) code))

/-- The text between two places is a spelling of the further branches of an if block, from the brace
that ends the branch before. -/
inductive SpellsBranches : Nat → Nat → Branches → Prop
  | done {k a : Nat} : markEnd? text "\x7d" (headEnd text k) = some a →
      SpellsBranches k (tailEnd text a) (.done (headLabel text k))
  | otherwise {k a b c next stop : Nat} {body : Outline} {rest : Branches} :
      markEnd? text "\x7d" (headEnd text k) = some a → markEnd? text "else" a = some b →
      SpellsElse text b c → Spells (tailEnd text c) next body → SpellsBranches next stop rest →
      SpellsBranches k stop (.otherwise (headLabel text k) body rest)
  | otherwiseIf {k a b c next stop : Nat} {code : Code} {body : Outline} {rest : Branches} :
      markEnd? text "\x7d" (headEnd text k) = some a → markEnd? text "else" a = some b →
      SpellsHead v legacy text "if" b c code → Spells (tailEnd text c) next body →
      SpellsBranches next stop rest →
      SpellsBranches k stop (.otherwiseIf (headLabel text k) code body rest)

end

/-- What may follow the blocks of a script: one more end of it. -/
inductive SpellsLast (trailing : Bool) : Nat → Nat → Outline → Prop
  | nothing {pos : Nat} : SpellsLast trailing pos pos .skip
  | stop {pos stop : Nat} {code : Code} : trailing = true → Yields v legacy text stopObjectCode (headEnd text pos) stop code →
      SpellsLast trailing pos (tailEnd text stop) (.seq (atHead text pos) (.plain code))

/-- The text is a spelling of a whole script: directives, blocks, perhaps one more end of the script,
and perhaps a closing word. -/
inductive SpellsScript (trailing : Bool) : Outline → Prop
  | mk {fuel start mid stop : Nat} {m m' : Machine Assembler} {found : Found} {body last : Outline} :
      (read (rules v legacy) text fuel (.many (directive v legacy)) true true (skipBlanks text 0)).run.run m
        = (.ok (start, found), m') →
      Spells v legacy text start mid body → SpellsLast v legacy text trailing mid stop last →
      text.size ≤ skipBlanks text (optionalEnd text "END" stop) →
      SpellsScript trailing (.seq body last)

end Lines

end ScummKit.Script
