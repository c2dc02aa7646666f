import ScummKit.Script.Header
import ScummKit.Script.Layout
import ScummKit.Script.Statement

/-!
# Compiling scripts

Names that a script gave a meaning stay words of the language for the scripts compiled after it, where
they have none until they are given one again.
-/

namespace ScummKit.Script

open Grammar

structure Options where
  version : Version
  legacy : Bool
  trailing : Bool

structure Compiled where
  version : Version
  kind : ScriptKind
  lines : List Code
  number : Option Code
  objectData : Header.ObjectData
  events : List (Int × Nat)

namespace Compiled

def code (c : Compiled) : Code := c.lines.flatten

def header (c : Compiled) : Except Fault Code :=
  Header.write c.version c.kind c.number c.objectData c.events c.code.length

def tag (c : Compiled) : String := c.kind.tag c.version

end Compiled

def unsupported (name : String) : Fault := .compiling ("Unsupported SCUMM version: " ++ name)

def stopFault : Stop → Fault
  | .mismatch => .noParse
  | .fault f => f

def finish (a : Assembler) (lines : List Code) : Except Fault Compiled := do
  let lines ← Layout.resolve a.jumps a.labels lines
  let events ← if a.kind = some .object then Layout.events a.events a.labels lines else pure []
  return ⟨a.version, a.kind.getD .global, lines, a.number, a.objectData, events⟩

/-- Compiles a script. `words` are the names that earlier scripts made part of the language; the
second result are those for the next script. -/
def compile (o : Options) (words : List String) (script : String) : Except Fault Compiled × List String :=
  let (result, m) := readText (Statement.rules o.version o.legacy) (Statement.script o.version o.legacy o.trailing) script
    (Assembler.start o.version words (KnownVariable.names o.version))
  let compiled := match result with
    | .error stop => .error (stopFault stop)
    | .ok c =>
      match (c.tokens.mapM Build.codeOf).run.run m with
      | (.ok lines, _) => finish m.user lines
      | (.error stop, _) => .error (stopFault stop)
  (compiled, m.user.words)

end ScummKit.Script
