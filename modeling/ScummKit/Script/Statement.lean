import ScummKit.Script.Special

/-!
# Statements, blocks and directives

The grammar of whole scripts: directives in front, then lines and blocks. A test falls through when
it holds and jumps when it does not, so an if block is compiled to a jump over each branch, and a loop
to a jump back to its test.
-/

namespace ScummKit.Script

open Grammar Lexicon

def blockLabel (kind : String) (line branch : Nat) : String := "$" ++ kind ++ toString line ++ "b" ++ toString branch

namespace Statement

open Build Special

def hole : Code := [0, 0]

def openJump : Code := byteCode Opcode.jump ++ hole

def firstToken (c : Capture) : Build Token :=
  match c.tokens with
  | t :: _ => return t
  | [] => fail .outOfRange

def openTest (c : Capture) : Build Code := do
  return (← codeOf (← firstToken c)) ++ hole

/-! ### Assignments -/

def inlineAction : Action Assembler := fun _ c => do
  let op ← lift (Opcode.find Opcode.inline (Build.textUnder c "operation"))
  let (value, op) ← marked (c.find? "value") op 0x80 .word
  let target ← variableCode (c.find? "target")
  emit (byteCode op ++ target ++ value)

def countAction : Action Assembler := fun _ c => do
  let op ← lift (Opcode.find Opcode.inline (Build.textUnder c "operation"))
  emit (byteCode op ++ (← variableCode (c.find? "target")))

def choice (name : String) (words : List String) : Syn := .named name (.oneOf fun _ => words)

def inlineOperation : Syn :=
  .act inlineAction (.seq [.named "target" (.group variableRef),
    choice "operation" ["+=", "-=", "/=", "*=", "&=", "|=", "="], field "value"])

def count : Syn := .act countAction (.seq [.named "target" (.group variableRef), choice "operation" ["++", "--"]])

/-! ### Expressions -/

inductive Side where
  | call (code : Code)
  | nested (code : Code)
  | constant (n : Int)
  | variable (v : Variable)

def Side.push : Side → Except Fault Code
  | .call code => .ok (byteCode Opcode.expressionCall ++ code)
  | .nested code => .ok code
  | .constant n => return byteCode Opcode.expressionValue ++ (← Field.word n)
  | .variable v => return byteCode (Opcode.expressionValue ||| 0x80) ++ (← v.encode false)

def sideOf (c : Capture) : Build Side := do
  if c.has "expop" then return .call (← codeOf (← firstToken c))
  else if isVariable c then return .variable (← variableOf offsetDepth c)
  else if c.has "value" then return .constant (← lift (fieldNumber (c.find? "value")))
  else return .nested (← codeOf (← firstToken c))

def expressionAction : Action Assembler := fun _ c => do
  let op ← lift (Opcode.find Opcode.expression (Build.textUnder c "operation"))
  let left ← sideOf ((← capture? (c.find? "arg1")).getD .empty)
  let left ← lift left.push
  let right ← sideOf ((← capture? (c.find? "arg2")).getD .empty)
  let right ← lift right.push
  emit (left ++ right ++ byteCode op)

def expressionCall (v : Version) (legacy : Bool) : Syn :=
  .seq [mark "<", .named "expop" (.first [.first (all v legacy), .first (functions v legacy)]), .opt (mark ";"), mark ">"]

def expressionRef : Syn := .rule .expression true

def expressionRule (v : Version) (legacy : Bool) : Syn :=
  let side (name : String) : Syn :=
    .named name (.group (.first [operand, expressionRef, expressionCall v legacy]))
  .act expressionAction (.apart (.seq [mark "(", side "arg1",
    choice "operation" ["+", "-", "/", "*", "="], side "arg2", mark ")"]))

/-- Assigns the value of an expression. A lone variable finds no argument to be read from. -/
def assignAction : Action Assembler := fun _ c => do
  let target ← variableCode (c.find? "target")
  let source := (← capture? (c.find? "subexp")).getD .empty
  let code ← if source.has "expop" then
      pure (byteCode Opcode.expressionCall ++ (← codeOf (← firstToken source)))
    else if isVariable source then variableCode (c.find? "arg1")
    else codeOf (← firstToken source)
  emit (byteCode Opcode.expressionStart ++ target ++ code ++ byteCode Opcode.expressionEnd)

def expressionMode (v : Version) (legacy : Bool) : Syn :=
  .act assignAction (.seq [mark "Exprmode", .named "target" (.group variableRef), mark "=",
    .named "subexp" (.group (.first [expressionRef, expressionCall v legacy, operand]))])

/-! ### Tests -/

def comparisonAction : Action Assembler := fun _ c => do
  let op ← lift (Opcode.find Opcode.comparisons (Build.textUnder c "comparator"))
  let left ← variableCode (c.find? "arg1")
  let (right, op) ← marked (c.find? "arg2") op 0x80 .word
  emit (byteCode op ++ left ++ right)

def lineAround (text : Array Char) (pos : Nat) : String :=
  let cs := text.toList
  let before := ((cs.take pos).reverse.takeWhile (· ≠ '\n')).reverse
  let rest := cs.drop pos
  -- a line break at the very start of the text does not end a line
  if rest.head? = some '\n' ∧ pos = 0 then String.ofList (before ++ rest)
  else String.ofList (before ++ rest.takeWhile (· ≠ '\n'))

def zeroAction : Action Assembler := fun site c => do
  let op := if c.has "!" then Opcode.equalZero else Opcode.notEqualZero
  if isVariable c then emit (byteCode op ++ (← lift ((← variableOf offsetDepth c).encode false)))
  else fail (.script ("The parameter in a \"equalZero\" or \"notEqualZero\" test must be a variable: "
    ++ lineAround site.text site.start))

def classAction : Action Assembler := fun _ c => do
  let op ← opcodeOf .plain c
  let (object, op) ← marked (c.find? "testobject") op 0x80 .word
  emit (byteCode op ++ object ++ (← Build.operandList (c.find? "classes")))

/-- The test whether an actor stands in a box has no code. -/
def boxTestAction : Action Assembler := fun _ c => do
  let op ← opcodeOf .plain c
  let _ ← markedAll c [("actor", 0x80, .byte), ("box", 0x40, .byte)] op
  fail .wrongKind

def stateAction : Action Assembler := fun _ c => do
  let name := if Build.textUnder c "comparator" = "==" then "ifState" else "ifNotState"
  let op ← opcode .plain name
  let (code, op) ← markedAll c [("testobject", 0x80, .word), ("state", 0x40, .byte)] op
  emit (byteCode op ++ code)

def stateTest : Version → List Syn
  | .v5 => []
  | v =>
    let comparator : Syn := .named "comparator" (.first [.literal "==", .literal "!="])
    let head := [.named "function" (.literal "getState"), mark "(", field "testobject"]
    [.act stateAction (.seq (head ++ (if v = .v3old then [comparator, field "state", mark ")"]
        else [mark ")", comparator, field "state"])))]

def test (v : Version) (legacy : Bool) : Syn :=
  let closing : Syn := if legacy then .opt (mark ")") else mark ")"
  .longest ([ .act comparisonAction (.seq [.named "arg1" (.group variableRef),
      choice "comparator" ["==", "<", "<=", ">", ">=", "!="], field "arg2"]),
    .act zeroAction (.seq [.opt (.named "!" (.literal "!")), variableRef]),
    .act classAction (.seq [.named "function" (.literal "classOfIs"), mark "(", field "testobject",
      mark ",", .named "classes" Lexicon.operandList, closing]),
    .act boxTestAction (written "isActorInBox" [field "actor", mark ",", field "box"])]
    ++ stateTest v)

/-! ### Labels and jumps -/

def lineNumber (text : Array Char) (pos : Nat) : Nat := (text.toList.take pos).count '\n' + 1

/-- Notes a label. Meeting it again at the same line is an attempt repeated; elsewhere it is a second
declaration. -/
def labelAction : Action Assembler := fun site c => do
  let label := Build.textUnder c "label"
  let a ← state
  match Table.find? label a.labels with
  | some line =>
    if line = a.line then return .tokens []
    else if site.start + label.length + 2 ≠ (← get).furthest then
      fail (.script "Syntax error")
    else fail (.script ("Duplicate label declaration on line " ++ toString (lineNumber site.text site.start) ++ ": " ++ label))
  | none =>
    noteLabel label a.line
    return .tokens []

def jumpLabel : Syn := .act labelAction (.seq [mark "[", .named "label" label, mark "]"])

def gotoAction : Action Assembler := fun _ c => do
  noteJump (Build.textUnder c "target") (← state).line
  emit openJump

def goto : Syn := .act gotoAction (.seq [mark "goto", .named "target" label])

def unlessAction : Action Assembler := fun _ c => do
  noteJump (Build.textUnder c "target") (← state).line
  emit (← openTest c)

def unlessJump (v : Version) (legacy : Bool) : Syn :=
  .act unlessAction (.seq [mark "unless", mark "(", .named "test" (test v legacy), mark ")", mark "goto", .named "target" label])

/-! ### If blocks -/

def IfBlock.branch (b : IfBlock) (line : Nat) : IfBlock :=
  { b with branches := b.branches ++ [⟨line, blockLabel "i" b.start b.count⟩], count := b.count + 1 }

def IfBlock.new (line : Nat) : IfBlock := IfBlock.branch ⟨line, [], 0⟩ line

def ifStartAction : Action Assembler := fun _ c => do
  update fun a =>
    { a with outer := a.ifBlock :: a.outer, ifBlock := some (IfBlock.new a.line), line := a.line + 1 }
  emit (← openTest c)

def elseAction : Action Assembler := fun _ _ => do
  let a ← state
  match a.ifBlock with
  | none => fail .absent
  | some b =>
    update fun a => { a with ifBlock := some (IfBlock.branch b a.line), line := a.line + 1 }
    emit openJump

def takeElse (branches : List Branch) : Option (Branch × List Branch) :=
  match branches.reverse with
  | last :: b :: rest => some (b, (last :: rest).reverse)
  | _ => none

/-- Starts the next branch: the test of the branch before it jumps here, and a further test opens a
branch of its own. -/
def elseLineAction : Action Assembler := fun _ c => do
  let a ← state
  match a.ifBlock with
  | none => fail .absent
  | some b =>
    match takeElse b.branches with
    | none => fail .outOfRange
    | some (branch, rest) =>
      update fun a => { a with ifBlock := some { b with branches := rest } }
      setJump branch.label branch.line
      noteLabel branch.label a.line
      if c.has "elseif" then
        update fun a =>
          { a with ifBlock := a.ifBlock.map (IfBlock.branch · a.line), line := a.line + 1 }
        match c.tokens with
        | first :: second :: more =>
          return .capture { c with tokens := first :: .code ((← codeOf second) ++ hole) :: more }
        | _ => fail .outOfRange
      else return .keep

def ifEndAction : Action Assembler := fun _ _ => do
  let a ← state
  match a.ifBlock with
  | none => fail .wrongKind
  | some b =>
    for branch in b.branches do
      setJump branch.label branch.line
      noteLabel branch.label a.line
    match a.outer with
    | [] => fail .outOfRange
    | block :: rest =>
      update fun a => { a with ifBlock := block, outer := rest }
      return .tokens []

/-! ### Loops -/

def pushLoop (step : Option Token) : Build Unit := update fun a => { a with loops := ⟨a.line, step⟩ :: a.loops }

def popLoop : Build Loop := do
  match (← state).loops with
  | [] => fail .outOfRange
  | loop :: rest =>
    update fun a => { a with loops := rest }
    return loop

def whileStartAction : Action Assembler := fun _ c => do
  pushLoop none
  nextLine
  emit (← openTest c)

def whileEndAction : Action Assembler := fun _ _ => do
  let loop ← popLoop
  let line := (← state).line
  let back := blockLabel "w" loop.start 0
  noteLabel back loop.start
  noteJump back line
  let out := blockLabel "w" loop.start 1
  noteLabel out line
  noteJump out loop.start
  nextLine
  emit openJump

def doStartAction : Action Assembler := fun _ _ => do
  pushLoop none
  return .tokens []

def doEndAction : Action Assembler := fun _ c => do
  let loop ← popLoop
  let back := blockLabel "d" loop.start 0
  noteLabel back loop.start
  noteJump back (← state).line
  nextLine
  emit (← openTest c)

def forStartAction : Action Assembler := fun _ c => do
  let first ← match c.find? "init" with
    | none => pure []
    | some t => do
      let inner := (← capture? (some t)).getD .empty
      let code ← firstToken inner
      nextLine
      pure [code]
  let test := (← capture? (c.find? "test")).getD .empty
  let code ← openTest test
  pushLoop (c.find? "increm")
  nextLine
  return .tokens (first ++ [.code code])

/-- Closes a for loop: its last instruction, if any, and the jump to the test. The failed test jumps
behind that. -/
def forEndAction : Action Assembler := fun _ _ => do
  let loop ← popLoop
  let step := loop.step.toList
  if loop.step.isSome then nextLine
  let line := (← state).line
  let back := blockLabel "f" loop.start 0
  noteLabel back loop.start
  noteJump back line
  nextLine
  let out := blockLabel "f" loop.start 1
  noteLabel out (← state).line
  noteJump out loop.start
  return .tokens (step ++ [.code openJump])

/-! ### Lines -/

def constructAction : Action Assembler := fun _ _ => do
  nextLine
  return .keep

def construct (v : Version) (legacy : Bool) : Syn :=
  .act constructAction (.first [count, inlineOperation, expressionMode v legacy, goto,
    unlessJump v legacy, .first (all v legacy), .first (functions v legacy)])

def listedByte : Syn := .seq [mark "(", .named "dop" (.first [.exactly 2 isHex, label, .literal "**"]), mark ")"]

def lineHead : Syn := .seq [.opt jumpLabel, .drop (.opt listedByte)]

def lineTail : Syn := .drop (.opt .comment)

def plainLine (v : Version) (legacy : Bool) : Syn :=
  .seq [lineHead, .first [.seq [construct v legacy, .opt (mark ";")], .drop .comment], lineTail]

def startLineAction : Action Assembler := fun _ c => do
  if c.has "descummop" then
    match c.tokens with
    | t :: rest =>
      let n ← lift (Numeral.read 16 ("0x" ++ (plainText t).getD ""))
      let flags := (n % 0x80).toNat &&& 0x60
      match rest with
      | code :: _ =>
        match ← codeOf code with
        | b :: more => emit (byteCode (b.toNat ||| flags) ++ more)
        | [] => fail .outOfRange
      | [] => fail .outOfRange
    | [] => fail .outOfRange
  else return .keep

def startLine (legacy : Bool) : Syn :=
  .act startLineAction (.seq [.opt jumpLabel, .named "descummop" (.opt listedByte), startScript,
    if legacy then .opt (mark ";") else mark ";", lineTail])

def stopLine : Syn := .seq [lineHead, stopObjectCode, lineTail]

def blockLine (p : Syn) : Syn := .seq [lineHead, p, lineTail]

def ifHead (v : Version) (legacy : Bool) : Syn := .seq [mark "if", mark "(", test v legacy, mark ")", mark "\x7b"]

def blockRef : Syn := .rule .block true

def ifBlock (v : Version) (legacy : Bool) : Syn :=
  let start := .act ifStartAction (blockLine (ifHead v legacy))
  let otherwise : Syn := .act elseLineAction (.seq [lineHead, .act elseAction (.seq [mark "\x7d", mark "else"]),
    .longest [.named "elseif" (.opt (ifHead v legacy)), mark "\x7b"], lineTail])
  .seq [start, .opt (.some blockRef), .opt (.some (.seq [otherwise, .many blockRef])), blockLine (.act ifEndAction (mark "\x7d"))]

def whileBlock (v : Version) (legacy : Bool) : Syn :=
  .seq [blockLine (.act whileStartAction (.seq [mark "while", mark "(", test v legacy, mark ")", mark "\x7b"])),
    .some blockRef, blockLine (.act whileEndAction (mark "\x7d"))]

def doBlock (v : Version) (legacy : Bool) : Syn :=
  .seq [blockLine (.act doStartAction (.seq [mark "do", mark "\x7b"])), .some blockRef, blockLine (.act doEndAction
      (.seq [mark "\x7d", mark "while", mark "(", test v legacy, mark ")"]))]

def forBlock (v : Version) (legacy : Bool) : Syn :=
  .seq [blockLine (.act forStartAction (.seq [mark "for", mark "(", .named "init" (.opt inlineOperation), mark ";",
      .named "test" (.group (test v legacy)), mark ";",
      .named "increm" (.opt (.first [inlineOperation, count])), mark ")", mark "\x7b"])),
    .some blockRef, blockLine (.act forEndAction (mark "\x7d"))]

def blockRule (v : Version) (legacy : Bool) : Syn :=
  .apart (.first [plainLine v legacy, startLine legacy, ifBlock v legacy, doBlock v legacy,
    whileBlock v legacy, forBlock v legacy])

/-! ### Directives -/

def numberAction : Action Assembler := fun _ c => do
  setKind .room
  let n ← lift (Numeral.read 10 (Build.textUnder c "scriptnum"))
  if n < 200 then fail (.script "Local script number must be greater than 200.")
  let code ← lift (Field.byte n)
  update fun a => { a with number := some code }
  return .tokens []

def kindAction : Action Assembler := fun _ c => do
  match ScriptKind.ofText? (Build.textUnder c "stype") with
  | some kind =>
    setKind kind
    return .tokens []
  | none => fail (.missingKey (Build.textUnder c "stype"))

def eventsAction : Action Assembler := fun _ c => do
  setKind .object
  for t in ((← capture? (c.find? "entries")).getD .empty).tokens do
    let entry := (← capture? (some t)).getD .empty
    let key ← lift (Numeral.read 16 (Build.textUnder entry "key"))
    update fun a => { a with events := Table.put key (Build.textUnder entry "value") a.events }
  return .tokens []

/-- Gives a name a meaning. From here on it can be written in place of a value. -/
def defineAction : Action Assembler := fun _ c => do
  match c.tokens with
  | name :: meaning :: _ =>
    let name := (plainText name).getD ""
    let index ← match meaning with
      | .shared i => pure i
      | .group ts ns => do
        let i := (← get).store.size
        modify fun m => { m with store := m.store.push ⟨ts, ns⟩ }
        pure i
      | _ => fail .outOfRange
    update fun a =>
      let table := Table.put name index a.definitions
      { a with definitions := table, words := table.map Prod.fst }
    return .tokens []
  | _ => fail .outOfRange

def shown (t : Token) : String := (plainText t).getD ""

/-- Notes the data of an object. Only the one field without a known use may be missing. -/
def objectAction : Action Assembler := fun _ c => do
  setKind .object
  for t in ((← capture? (c.find? "objdata")).getD .empty).tokens do
    let entry := (← capture? (some t)).getD .empty
    let key := Build.textUnder entry "key"
    let value := (entry.find? "val").getD (.code [])
    match Table.find? key (← state).objectData with
    | some old => fail (.script ("Duplicate object data definition for " ++ key ++ "; " ++ shown old ++ " vs. " ++ shown value))
    | none => update fun a => { a with objectData := Table.put key value a.objectData }
  let data := (← state).objectData
  if data.length < 11 ∨ (data.length = 11 ∧ Table.has "unknown" data) then
    fail (.script "Insufficient arguments in #object-data directive. All items except \"unknown\" are mandatory.")
  return .tokens []

def noObjectAction : Action Assembler := fun _ _ =>
  fail (.script "Object data is not necessary in V5 scripts.")

def objectFields (legacy : Bool) : List Syn :=
  let entry (key : String) (value : Syn) : Syn := .seq [.named "key" (.literal key), value]
  let number (key : String) : Syn := entry key (constant "val")
  [number "id", number "unknown", number "x-pos", number "y-pos",
   entry "parent-state" (.named "val" (.first [.literal "0", .literal "1"])),
   number "width", number "parent", number "walk-x", number "walk-y", number "height",
   number "actor-dir", entry "name" (textUnder legacy "val")]

def directive (v : Version) (legacy : Bool) : Syn :=
  .first [ .act numberAction (.seq [.literal "Script#", .named "scriptnum" unsigned]),
    .act defineAction (.seq [mark "#define", label, .opt (mark "="), .group operand]),
    .act eventsAction (.seq [mark "Events:", .named "entries" (.some (.group
      (.seq [.named "key" (.atMost 2 isHex), mark "-", .named "value" label])))]),
    .act kindAction (.seq [mark "#script-type", choice "stype" ["entry", "exit", "global", "local", "object", "verb"]]),
    .act (if v = .v5 then noObjectAction else objectAction) (.seq [mark "#object-data",
      .opt (mark "["), .named "objdata" (delimited (.group (.first (objectFields legacy)))),
      .opt (mark "]")])]

def rules (v : Version) (legacy : Bool) : Rule → Syn
  | .variable => variableRule
  | .block => blockRule v legacy
  | .expression => expressionRule v legacy

def script (v : Version) (legacy trailing : Bool) : Syn :=
  .seq ([.textStart, .many (directive v legacy), .many blockRef]
    ++ (if trailing then [.opt stopLine] else []) ++ [.opt (mark "END"), .textEnd])

end Statement

end ScummKit.Script
