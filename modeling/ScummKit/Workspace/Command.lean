import ScummKit.Tool.Compile
import ScummKit.Tool.Describe
import ScummKit.Tool.Pack
import ScummKit.Workspace.Basic

/-!
# Commands

Some work is done by other programs, which are started by a line of text. Every line is recorded. The
tools of this library may answer, or fixed answers are given.
-/

namespace ScummKit

/-- The words of a command line, given the word begun so far in reverse, if any. Blanks in quotes
divide no words. -/
def commandWords : Bool → Option (List Char) → List Char → List String
  | _, none, [] => []
  | _, some begun, [] => [String.ofList begun.reverse]
  | quoted, begun, '"' :: rest => commandWords (!quoted) (some (begun.getD [])) rest
  | true, begun, c :: rest => commandWords true (some (c :: begun.getD [])) rest
  | false, begun, c :: rest =>
    if c = ' ' then
      match begun with
      | some w => String.ofList w.reverse :: commandWords false none rest
      | none => commandWords false none rest
    else commandWords false (some (c :: begun.getD [])) rest

namespace Work

def record (line : String) : Work Unit := modify fun w => { w with commands := w.commands ++ [line] }

def runTool (tool : Tool.Run) (arguments : String) : Work Tool.Report := do
  let w ← get
  let (report, files) := tool (commandWords false none arguments.toList) w.files
  set { w with files }
  return report

def runReported (tool : Tool.Run) (arguments : String) : Work Unit := do
  let report ← runTool tool arguments
  modify fun w => { w with reports := w.reports ++ [report] }

def decompile (version : String) (p : Path) : Work String := do
  let w ← get
  record s!"{w.programs.decompiler} -{version} \"{p.text}\""
  return w.programs.listing

def describe (p : Path) : Work (List UInt8) := do
  let w ← get
  let arguments := s!"\"{p.text}\""
  record (w.programs.describer ++ " " ++ arguments)
  if w.programs.own then
    return Text.toBytes (← runTool Tool.Describe.run arguments).out
  else return w.programs.description

def compile (version : String) (p : Path) : Work Unit := do
  let w ← get
  let arguments := s!"-v {version} -l \"{p.text}\""
  record (w.programs.compiler ++ " " ++ arguments)
  if w.programs.own then runReported Tool.Compile.run arguments
  else match w.programs.compiled with
    | some code => writeBytes p code
    | none => return

def runPacker (arguments : String) : Work Unit := do
  let w ← get
  record (w.programs.packer ++ " " ++ arguments)
  if w.programs.own then runReported Tool.Pack.run arguments

end Work

end ScummKit
