import ScummKit.Script.Catalog
import ScummKit.Script.Lexicon

/-!
# Instructions with forms of their own

Instructions that do not follow the common scheme: a second operation byte in the middle, arguments
that change the operation byte, or a list of operations in brackets.
-/

namespace ScummKit.Script

open Grammar Lexicon

namespace Build

def byteCode (n : Nat) : Code := [UInt8.ofNat n]

def markedAll (c : Capture) : List (String × Nat × Width) → Nat → Build (Code × Nat)
  | [], op => return ([], op)
  | (name, bit, width) :: rest, op => do
    let (code, op) ← marked (c.find? name) op bit width
    let (more, op) ← markedAll c rest op
    return (code ++ more, op)

def within (name : String) : Action Assembler := fun _ c => do
  let op ← opcode .plain name
  emit (byteCode op ++ (← joined c.tokens))

def listed (c : Capture) (name : String) : Build (Option (List Code)) := do
  match c.find? name with
  | none => return none
  | some t =>
    match ← capture? (some t) with
    | some inner => return some (← inner.tokens.mapM codeOf)
    | none => return some [← codeOf t]

end Build

namespace Special

open Build

def signed (legacy : Bool) (s : Signature) : Syn := .act s.action (call (textUnder legacy) s)

def written (name : String) (inside : List Syn) : Syn :=
  .seq ([.named "function" (.literal name), mark "("] ++ inside ++ [mark ")"])

def oneWord (words : List String) : Syn := .named "function" (.first (words.map .literal))

def field (name : String) : Syn := .named name (.group operand)

def commas : List Syn → List Syn
  | [] => []
  | [p] => [p]
  | p :: rest => p :: mark "," :: commas rest

def bracketed (name : String) (parts : List Syn) (closing : List Syn) : List Syn :=
  [mark "[", .named name (.opt (delimited (.first parts)))] ++ closing ++ [mark "]"]

/-! ### Instructions with parts -/

def partsAction : Action Assembler := fun _ c => do
  let op ← opcodeOf .plain c
  let (code, op) ← marked (c.find? "arg1") op 0x80 .byte
  let parts := ((← listed c "arg2").getD []).flatten
  emit (byteCode op ++ code ++ parts ++ [0xff])

def printClosing (parts : Option (List Code)) : Build Code := do
  match parts with
  | none => return [0xff]
  | some codes =>
    match codes.getLast? with
    | none => fail .outOfRange
    | some [] => fail .outOfRange
    | some (b :: _) => return if b = 0x0f then [] else [0xff]

def printAction : Action Assembler := fun _ c => do
  let op ← opcodeOf .plain c
  let (code, op) ← marked (c.find? "arg1") op 0x80 .byte
  let parts ← listed c "arg2"
  emit (byteCode op ++ code ++ (parts.getD []).flatten ++ (← printClosing parts))

def printEgoAction : Action Assembler := fun _ c => do
  let op ← opcodeOf .plain c
  let parts ← listed c "arg1"
  emit (byteCode op ++ (parts.getD []).flatten ++ (← printClosing parts))

def actor (v : Version) (legacy : Bool) : Syn :=
  .act partsAction (written "ActorOps"
    ([field "arg1", mark ","] ++ bracketed "arg2" ((Catalog.actorParts v).map (signed legacy)) []))

def verb (legacy : Bool) : Syn :=
  .act partsAction (written "VerbOps" ([field "arg1", mark ","]
      ++ bracketed "arg2" (Catalog.verbParts.map (signed legacy)) [.opt (mark ";")]))

def print (v : Version) (legacy : Bool) : Syn :=
  .act printAction (written "print"
    ([field "arg1", mark ","] ++ bracketed "arg2" ((Catalog.printParts v).map (signed legacy)) []))

def printEgo (v : Version) (legacy : Bool) : Syn :=
  .act printEgoAction (written "printEgo" (bracketed "arg1" ((Catalog.printParts v).map (signed legacy)) []))

def cursor (v : Version) (legacy : Bool) : Syn :=
  .act (within "cursorCommand") (.first ((Catalog.cursorParts v).map (signed legacy)))

def resource (legacy : Bool) : Syn := .act (within "Resource") (.first (Catalog.resourceParts.map (signed legacy)))

def strings (legacy : Bool) : Syn :=
  .act (within "stringOps") (.first ((Catalog.stringParts .textOrNothing).map (signed legacy)))

/-! ### Walk boxes -/

/-- In the third generation the flags of a box have no form. -/
def boxFlagsThird : Action Assembler := fun _ c => do
  let op ← opcodeOf .plain c
  let _ ← marked (c.find? "arg1") op 0x80 .byte
  fail .outOfBounds

def boxes (v : Version) (legacy : Bool) : Syn :=
  let parts := if Catalog.isThird v then
      [.act boxFlagsThird (call (textUnder legacy) (Signature.call "setBoxFlags" [.byte, .fixed]))]
    else Catalog.boxParts.map (signed legacy)
  .act (within "matrixOp") (.first parts)

/-! ### Waiting -/

def standalone : Token := .word "standalone"

def aloneAction (s : Signature) : Action Assembler := fun _ c => do
  let code ← instruction (← opcodeOf s.family c) s.stores s.params c
  return .tokens [standalone, .code code]

def unsupported (name : String) : Action Assembler := fun _ _ =>
  fail (.script (name ++ " not supported in Scumm V3Old (Indy3)"))

def waitPart (v : Version) (legacy : Bool) (s : Signature) : Syn :=
  let form := call (textUnder legacy) s
  match v, s.name with
  | .v3old, "WaitForCamera" => .act (unsupported s.name) form
  | .v3old, _ => .act (aloneAction s) form
  | .v3, "WaitForSentence" => .act (aloneAction s) form
  | _, _ => .act s.action form

/-- Puts the waiting instruction around its part, unless the part stands alone. -/
def waitAction : Action Assembler := fun site c => do
  match c.tokens with
  | .word "standalone" :: rest =>
    match rest with
    | t :: _ => emit (← codeOf t)
    | [] => fail .outOfRange
  | _ => within "wait" site c

def wait (v : Version) (legacy : Bool) : Syn := .act waitAction (.first (Catalog.waitParts.map (waitPart v legacy)))

/-! ### Saving -/

def variableRangeAction : Action Assembler := fun _ c => do
  let op ← opcodeOf .saveLoad c
  let first ← variableCode (c.find? "arg1")
  let last ← variableCode (c.find? "arg2")
  emit (byteCode op ++ first ++ last)

def stringRangeAction : Action Assembler := fun _ c => do
  let op ← opcodeOf .saveLoad c
  let (code, op) ← markedAll c [("arg1", 0x80, .byte), ("arg2", 0x40, .byte)] op
  emit (byteCode op ++ code)

def openAction : Action Assembler := fun _ c => do
  let op ← opcodeOf .saveLoad c
  emit (byteCode op ++ (← closedText (c.find? "arg1")))

def finishAction : Action Assembler := fun _ c => do
  emit (byteCode (← opcodeOf .saveLoad c))

def saveLoadAction : Action Assembler := fun _ c => do
  let op ← opcodeOf .plain c
  let direction ← opcode .saveLoad (Build.textUnder c "operation")
  let parts := ((← listed c "subops").getD []).flatten
  let last ← match ← listed c "lastop" with
    | some codes => pure codes.flatten
    | none => pure [0]
  emit (byteCode op ++ byteCode direction ++ parts ++ last)

/-- The instruction that saves and loads variables. In the fourth generation it is not closed. -/
def saveLoadVars (v : Version) (legacy : Bool) : Syn :=
  let range (name : String) (one : String → Syn) (f : Action Assembler) : Syn :=
    .act f (written name (commas [one "arg1", one "arg2"]))
  let finish (name : String) : Syn :=
    .named "function" (.act finishAction (.named "function" (.literal name)))
  .act saveLoadAction (.seq ( [.named "function" (.literal "saveLoadVars"), mark "(",
     .named "operation" (.first [.literal "Save", .literal "Load"]),
     .named "subops" (.many (.seq [mark ",", .first
       [range "VarRange" (fun n => .named n (.group variableRef)) variableRangeAction,
        range "StringRange" field stringRangeAction,
        .act openAction (.seq [.literal "Open", mark "(", .named "arg1" (.group (text legacy)), mark ")"])]])),
     .named "lastop" (.opt (.first [.seq [mark ",", finish "Append"], .seq [mark ",", finish "Close"]]))]
    ++ (if v = .v4 then [] else [mark ")"])))

/-! ### Single instructions -/

def delayAction : Action Assembler := fun _ c => do
  let op ← opcodeOf .plain c
  let inner := (← capture? (c.find? "arg1")).getD .empty
  let n ← lift (wholeNumber inner.tokens.head?)
  let v := (n % 0x1000000).toNat
  emit (byteCode op ++ byteCode v ++ byteCode (v / 0x100) ++ byteCode (v / 0x10000))

def sentenceAction : Action Assembler := fun _ c => do
  let op ← opcodeOf .plain c
  match c.find? "arg1" with
  | some (.word "STOP") => emit (byteCode op ++ [0xfe])
  | _ =>
    let (code, op) ← markedAll c [("arg1", 0x80, .byte), ("arg2", 0x40, .word), ("arg3", 0x20, .word)] op
    emit (byteCode op ++ code)

def boxAction : Action Assembler := fun _ c => do
  let op ← opcodeOf .plain c
  let (near, op) ← markedAll c [("left", 0x80, .word), ("top", 0x40, .word)] op
  let (far, aux) ← markedAll c [("right", 0x80, .word), ("bottom", 0x40, .word), ("colour", 0x20, .byte)] 0x05
  emit (byteCode op ++ near ++ byteCode aux ++ far)

def drawFifthAction : Action Assembler := fun _ c => do
  let name := Build.textUnder c "function"
  let op ← opcode .plain name
  let (code, op) ← marked (c.find? "arg1") op 0x80 .word
  let part ← match ← listed c "arg2" with
    | some codes => pure codes.flatten
    | none => pure (byteCode (← opcode .plain (name ++ "()")))
  emit (byteCode op ++ code ++ part)

def roomWithEgoAction : Action Assembler := fun _ c => do
  let op ← opcodeOf .plain c
  let (code, op) ← markedAll c [("object", 0x80, .word), ("room", 0x40, .byte)] op
  let x ← lift ((fieldNumber (c.find? "x")).bind Field.word)
  let y ← lift ((fieldNumber (c.find? "y")).bind Field.word)
  emit (byteCode op ++ code ++ x ++ y)

def roomEffectAction : Action Assembler := fun _ c => do
  let op ← opcode .plain "oldRoomEffect"
  let part ← opcodeOf .plain c
  let (code, op) ← marked (c.find? "effect") op 0x80 .word
  emit (byteCode op ++ byteCode part ++ code)

def overrideAction : Action Assembler := fun _ c => do
  let op ← opcode .plain "override"
  emit (byteCode op ++ byteCode (← opcodeOf .plain c))

/-- A room that stands for others, each written with its top bit set. -/
def pseudoRoomAction : Action Assembler := fun _ c => do
  let op ← opcodeOf .plain c
  let room ← lift ((fieldNumber (c.find? "val")).bind Field.byte)
  let items := ((← capture? (c.find? "reslist")).getD .empty).tokens
  let codes ← items.mapM fun t => do
    let n ← match t with
      | .word "IG" => pure 0
      | t => lift (fieldNumber (some t))
    lift (Field.byteWith (some 0x80) true n)
  emit (byteCode op ++ room ++ codes.flatten ++ [0])

def needsWords (values : List Int) : Bool := values.any fun n => n < -128 || 255 < n

def valueBytes (values : List Int) : Except Fault Code := do
  let codes ← values.mapM fun n => if needsWords values then Field.word n else Field.byte n
  return codes.flatten

def varRangeAction : Action Assembler := fun _ c => do
  let op ← opcodeOf .plain c
  let start ← variableCode (c.find? "startvar")
  let announced ← match c.find? "numitems" with
    | some t => pure (some (← lift (wholeNumber (some t))))
    | none => pure none
  let items := ((← capture? (c.find? "listvals")).getD .empty).tokens
  let values ← items.mapM fun t => lift (wholeNumber (some t))
  let op := if needsWords values then op ||| 0x80 else op
  let count : Int ← match announced with
    | none => pure values.length
    | some n =>
      if n = values.length then pure n
      else fail (.script "setVarRange: the given number of values does not match the actual number of values.")
  let code ← lift (valueBytes values)
  emit (byteCode op ++ start ++ (← lift (Field.byte count)) ++ code)

def verbRangeAction : Action Assembler := fun _ c => do
  let op ← opcode .plain "saveRestoreVerbs"
  let part ← opcodeOf .plain c
  let (code, part) ← markedAll c [("start", 0x80, .byte), ("end", 0x40, .byte), ("mode", 0x20, .byte)] part
  emit (byteCode op ++ byteCode part ++ code)

/-- Starts a script. Two flags of the operation byte say whether it survives a freeze and whether it
may run twice. It counts as a line of its own. -/
def startScriptAction : Action Assembler := fun _ c => do
  let op ← opcodeOf .plain c
  let (code, op) ← marked (c.find? "arg1") op 0x80 .byte
  let list ← operandList (c.find? "arg2")
  let op := if c.has "recursive" then op ||| 0x40 else op
  let op := if c.has "freezeres" then op ||| 0x20 else op
  nextLine
  emit (byteCode op ++ code ++ list)

def stopAction : Action Assembler := fun _ c => do
  let name := Build.textUnder c "function"
  let name := match (← state).kind with
    | some .object => name ++ "-alt"
    | some .entry => name ++ "-alt"
    | some .exit => name ++ "-alt"
    | _ => name
  emit (byteCode (← opcode .plain name))

def systemAction : Action Assembler := fun _ c => do
  let op ← opcodeOf .plain c
  let part := match Build.textUnder c "subop" with
    | "1" => 1
    | "RESTART" => 1
    | "2" => 2
    | "PAUSE" => 2
    | _ => 3
  emit (byteCode op ++ byteCode part)

/-! ### Rooms -/

/-- In the third generation the operands stand in front of the part's byte, and are there even when
the part takes none. -/
def roomThirdAction : Action Assembler := fun _ c => do
  let op ← opcode .plain "roomOps"
  let name := Build.textUnder c "function"
  let (code, op) ← if name = "ShakeOn" ∨ name = "ShakeOff" then pure ([0, 0, 0, 0], op)
    else markedAll c [("arg1", 0x80, .word), ("arg2", 0x40, .word)] op
  emit (byteCode op ++ code ++ byteCode (← opcode .plain name))

/-- In the fourth generation the operands mark the byte of the instruction, not of the part. -/
def roomFourthAction : Action Assembler := fun _ c => do
  let op ← opcode .plain "roomOps"
  let name := Build.textUnder c "function"
  let (code, op) ← if name = "ShakeOn" ∨ name = "ShakeOff" then pure ([], op)
    else markedAll c [("arg1", 0x80, .word), ("arg2", 0x40, .word)] op
  emit (byteCode op ++ byteCode (← opcode .plain name) ++ code)

/-- Operands in several runs: the first marked on the operation byte, each other on a byte of its
own in front of it. -/
def runsAction (first : List (String × Nat × Width)) (rest : List (Nat × List (String × Nat × Width))) :
    Action Assembler := fun _ c => do
  let op ← opcodeOf .plain c
  let (code, op) ← markedAll c first op
  let runs ← rest.mapM fun (aux, fields) => do
    let (code, aux) ← markedAll c fields aux
    return byteCode aux ++ code
  emit (byteCode op ++ code ++ runs.flatten)

def stringFileAction : Action Assembler := fun _ c => do
  let op ← opcodeOf .plain c
  let (code, op) ← marked (c.find? "slot") op 0x80 .byte
  emit (byteCode op ++ code ++ (← closedText (c.find? "stringy")))

def fields (words : Syn) (names : List String) : Syn :=
  .seq ([words, mark "("] ++ commas (names.map field) ++ [mark ")"])

def roomEarly (legacy : Bool) : List Syn :=
  let form (name : String) (params : List Param) : Syn :=
    call (textUnder legacy) (Signature.call name params)
  [form "RoomScroll" [.word, .word], form "RoomColor" [.word, .word],
   form "SetScreen" [.word, .word], form "ShakeOn" [], form "ShakeOff" [],
   form "SetPalColor" [.word, .word]]

def roomLate (legacy : Bool) : List Syn :=
  let signed := signed legacy
  let either (a b : String) (params : List Param) : Syn :=
    .act (Signature.call b params).action (.seq ( [.named "function" (.longest [.literal a, .literal b]), mark "("]
      ++ arguments (textUnder legacy) 0 params ++ [mark ")"]))
  [signed (Signature.call "RoomScroll" [.word, .word]), signed (Signature.call "SetScreen" [.word, .word]),
   signed (Signature.call "ShakeOn" []), signed (Signature.call "ShakeOff" []),
   signed (Signature.call "RoomIntensity" [.byte, .byte, .byte]),
   either "saveLoad?" "saveLoad" [.byte, .byte],
   either "screenEffect?" "screenEffect" [.word],
   signed (Signature.call "colorCycleDelay" [.byte, .byte]),
   .act (runsAction [("red", 0x80, .word), ("green", 0x40, .word), ("blue", 0x20, .word)] [(0x04, [("index", 0x80, .byte)])])
     (fields (.named "function" (.literal "SetPalColor")) ["red", "green", "blue", "index"]),
   .act (runsAction [("scale1", 0x80, .byte), ("y1", 0x40, .byte)]
       [(0x01, [("scale2", 0x80, .byte), ("y2", 0x40, .byte)]), (0x01, [("slot", 0x80, .byte)])])
     (.seq ([oneWord ["SetRoomScale", "Unused"], mark "("]
       ++ commas (["scale1", "y1", "scale2", "y2", "slot"].map field) ++ [mark ",", mark ")"])),
   .act (runsAction [("redscale", 0x80, .word), ("greenscale", 0x40, .word), ("bluescale", 0x20, .word)]
       [(0x0b, [("start", 0x80, .byte), ("end", 0x40, .byte)])])
     (fields (oneWord ["setRGBRoomIntensity", "setRoomShadow"]) ["redscale", "greenscale", "bluescale", "start", "end"]),
   .act stringFileAction (.seq [oneWord ["saveString", "loadString"], mark "(", field "slot",
     mark ",", textUnder legacy "stringy", mark ")"]),
   .act (runsAction [("slot", 0x80, .byte)]
       [(0x01, [("start", 0x80, .byte), ("end", 0x40, .byte)]), (0x01, [("time", 0x80, .byte)])])
     (fields (.named "function" (.literal "palManipulate")) ["slot", "start", "end", "time"])]

/-- The instruction on rooms. In the legacy notation it may be closed twice. -/
def room (v : Version) (legacy : Bool) : Syn :=
  let parts := if Catalog.isFifth v then roomLate legacy else roomEarly legacy
  let f := match v with
    | .v5 => within "roomOps"
    | .v4 => roomFourthAction
    | _ => roomThirdAction
  .act f (.seq [.first parts, if legacy then .opt (mark ")") else .blank])

/-! ### All of them -/

def drawObject (v : Version) (legacy : Bool) : Syn :=
  if Catalog.isFifth v then
    .act drawFifthAction (.seq [.named "function" (.literal "drawObject"), mark "(", field "arg1",
      .opt (.seq [.drop (.opt (.literal ",")), .named "arg2" (.first [signed legacy (Signature.call "setXY" [.word, .word]),
         signed legacy (Signature.call "setImage" [.word])])]),
      mark ")", if legacy then .opt (mark ")") else .blank])
  else signed legacy (Signature.call "drawObject" [.word, .word, .word])

def startScript : Syn :=
  .act startScriptAction (written "startScript" [field "arg1", mark ",", .named "arg2" operandList,
     .named "freezeres" (.opt (.seq [mark ",", .literal "F"])),
     .named "recursive" (.opt (.seq [mark ",", .literal "R"]))])

def stopObjectCode : Syn := .act stopAction (written "stopObjectCode" [])

def all (v : Version) (legacy : Bool) : List Syn :=
  [printEgo v legacy, .act delayAction (written "delay" [.named "arg1" (.group unsigned)]),
   .act sentenceAction (written "doSentence" [.first [.named "arg1" (.literal "STOP"),
       .seq (commas [field "arg1", field "arg2", field "arg3"])]]),
   .act boxAction (written "drawBox" [field "left", mark ",", field "top", .opt (mark ";"),
     mark ",", field "right", mark ",", field "bottom", mark ",", field "colour"]),
   drawObject v legacy,
   .act roomWithEgoAction (written "loadRoomWithEgo"
     [field "object", mark ",", field "room", mark ",", constant "x", mark ",", constant "y"]),
   signed legacy (Signature.call "pickupObject" (if Catalog.isFifth v then [.word, .byte] else [.word])),
   .act pseudoRoomAction (written "PseudoRoom" [constant "val", mark ",",
     .named "reslist" (delimited (.first [constant "value", .literal "IG"]))])]
  ++ (if Catalog.isFifth v then [] else
    [.act roomEffectAction (fields (oneWord ["oldRoomEffect-set", "oldRoomEffect-fadein"]) ["effect"])])
  ++ [.act overrideAction (.seq [oneWord ["beginOverride", "endOverride"],
        if legacy then .opt (.seq [mark "(", mark ")"]) else .seq [mark "(", mark ")"]]),
      .act varRangeAction (written "setVarRange" [.named "startvar" (.group variableRef), .opt (mark ";"), mark ",",
         .opt (.seq [constant "numitems", mark ","]), mark "[",
         .named "listvals" (delimited (.first [constant "value", constant "value"])), mark "]"]),
      .act verbRangeAction (fields (oneWord ["saveVerbs", "restoreVerbs", "deleteVerbs"]) ["start", "end", "mode"]),
      .act systemAction (written "systemOps" [.named "subop" (.first
        (["1", "RESTART", "2", "PAUSE", "3", "QUIT"].map .literal))]),
      room v legacy, stopObjectCode]

def common (v : Version) (legacy : Bool) (s : Signature) : Syn :=
  if v = .v3old ∧ s.name = "getActorScale" then
    .act (unsupported s.name) (call (textUnder legacy) s)
  else signed legacy s

def functions (v : Version) (legacy : Bool) : List Syn :=
  let calls (ss : List Signature) : List Syn := ss.map (common v legacy)
  let place : Param := if v = .v3old then .byte else .word
  calls Catalog.beforeActor ++ [actor v legacy] ++ calls Catalog.beforeCursor
  ++ [cursor v legacy] ++ calls (Catalog.beforeBoxes "debug" place (Catalog.isFifth v))
  ++ [boxes v legacy] ++ calls [Signature.call "panCameraTo" [.word]] ++ [print v legacy]
  ++ calls Catalog.beforeResources ++ [resource legacy]
  ++ (if Catalog.isFifth v then [] else
    [signed legacy (Signature.query "saveLoadGame" [.byte]), saveLoadVars v legacy])
  ++ calls Catalog.beforeStrings ++ [strings legacy, verb legacy, wait v legacy]
  ++ calls Catalog.afterWait

end Special

end ScummKit.Script
