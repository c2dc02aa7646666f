import ScummKit.Script.Special

/-!
# The uniform grammar

An older grammar of the instructions alone, with one form for all engines. Without an engine there are
no names of variables, and texts are read without being compiled.
-/

namespace ScummKit.Script.Uniform

open Grammar Lexicon Build

def opcodeOf (c : Capture) : Build Nat := lift (Opcode.commonCode .plain (Build.textUnder c "function"))

def action (s : Signature) : Action Assembler := fun _ c => do
  emit (← instruction (← opcodeOf c) s.stores s.params c)

def variableAction : Action Assembler := fun _ c => do
  let op ← opcodeOf c
  emit (byteCode (op ||| 0x80) ++ (← variableCode (c.find? "arg1")))

def partsAction : Action Assembler := fun _ c => do
  let op ← opcodeOf c
  let (code, op) ← marked (c.find? "arg1") op 0x80 .byte
  let parts := ((← listed c "arg2").getD []).flatten
  emit (byteCode op ++ code ++ parts ++ [0xff])

def withinAction (name : String) : Action Assembler := fun _ c => do
  let op ← lift (Opcode.commonCode .plain name)
  emit (byteCode op ++ (← joined c.tokens))

inductive Texts where
  | compiled (legacy : Bool)
  | plain

def textUnder (texts : Texts) (name : String) : Syn :=
  match texts with
  | .compiled legacy => .named name (text legacy)
  | .plain => .named name (textWith .quoted false)

def one (texts : Texts) (s : Signature) : Syn :=
  .act (if s.params = [.variable] then variableAction else action s) (call (textUnder texts) s)

def bare (s : String) : String := String.ofList (s.toList.filter Char.isAlphanum)

/-- Instructions that are parts of a larger one: how they are called together, and whether the larger
one is written around them. -/
structure Group where
  name : String
  bracketed : Bool
  parts : List Signature

def Group.anyPart (texts : Texts) (g : Group) : Syn :=
  let parts : Syn := .first (g.parts.map (one texts))
  if g.bracketed then parts else .act (withinAction g.name) parts

def Group.whole (texts : Texts) (g : Group) : Syn :=
  if g.bracketed then
    .act partsAction (Special.written g.name ([Special.field "arg1", mark ","]
        ++ Special.bracketed "arg2" (g.parts.map (one texts)) []))
  else g.anyPart texts

inductive Entry where
  | single (s : Signature)
  | group (g : Group)

def entries : List Entry :=
  let singles (ss : List Signature) : List Entry := ss.map .single
  singles Catalog.beforeActor ++ [.group ⟨"ActorOps", true, Catalog.actorParts .v5⟩]
  ++ singles Catalog.beforeCursor ++ [.group ⟨"cursorCommand", false, Catalog.cursorParts .v5⟩]
  ++ singles (Catalog.beforeBoxes "debug?" .word true)
  ++ [.group ⟨"matrixOp", false, Catalog.boxParts⟩]
  ++ singles [Signature.call "panCameraTo" [.word]]
  ++ [.group ⟨"print", true, Catalog.printParts .v5⟩] ++ singles Catalog.beforeResources
  ++ [.group ⟨"Resource", false, Catalog.resourceParts⟩] ++ singles Catalog.beforeStrings
  ++ [.group ⟨"stringOps", false, Catalog.stringParts .text⟩,
      .group ⟨"VerbOps", true, Catalog.verbParts⟩, .group ⟨"wait", false, Catalog.waitParts⟩]
  ++ singles Catalog.afterWait

def Entry.pattern (texts : Texts) : Entry → Syn
  | .single s => one texts s
  | .group g => g.whole texts

/-- The patterns of an entry with their names: an instruction has its own, a group one for each part,
one for any part, and one for the instruction around them. -/
def Entry.named (texts : Texts) : Entry → List (String × Syn)
  | .single s => [(bare s.name, one texts s)]
  | .group g =>
    g.parts.map (fun s => (g.name ++ "_" ++ bare s.name, one texts s))
      ++ [(g.name ++ "_SO", g.anyPart texts), (g.name, g.whole texts)]

def anyEntry (texts : Texts) : Syn := .first (entries.map (Entry.pattern texts))

def pattern? (texts : Texts) (name : String) : Option Syn := Table.find? name (entries.flatMap (Entry.named texts))

/-- The only rule that refers to itself here is that of variables. -/
def rules : Rule → Syn
  | .variable => variableRule
  | _ => .first []

/-- Reads a text by a pattern, for an engine or for none. Text behind what was read is ignored. -/
def compile (version : Option Version) (p : Syn) (s : String) : Except Fault (List Code) :=
  let known := match version with
    | some v => KnownVariable.names v
    | none => []
  let reading := readText rules p s (Assembler.start (version.getD .v5) [] known)
  match reading with
  | (.ok c, m) =>
    match (c.tokens.mapM codeOf).run.run m with
    | (.ok codes, _) => .ok codes
    | (.error (.fault f), _) => .error f
    | (.error .mismatch, _) => .error .noParse
  | (.error (.fault f), _) => .error f
  | (.error .mismatch, _) => .error .noParse

end ScummKit.Script.Uniform
