import ScummKit.Project.CommandLine
import ScummKit.Snapshot

/-!
# The program

`scummkit COMMAND ARGUMENTS…` runs one command on the files in a snapshot, which is read from standard
input and written to standard output behind a line for the outcome. The files lie below `/game`.
-/

namespace ScummKit.Main

def tool? : String → Option Tool.Run
  | "pack" => some Tool.Pack.run
  | "compile" => some Tool.Compile.run
  | "describe" => some Tool.Describe.run
  | _ => none

def part? : String → Option CommandLine.Part
  | "boxes" => some .boxes
  | "scales" => some .scales
  | "palettes" => some .palettes
  | "images" => some .images
  | "costumes" => some .costumes
  | "scripts" => some .scripts
  | "rows" => some .rows
  | "game" => some .game
  | _ => none

def base : List String := ["game"]

/-- A workspace in which the tools of this library do the work. No decompiler is at hand, so that
listings are empty. -/
def workspace (files : FileTree) : Workspace where
  files := files
  said := ""
  commands := []
  reports := []
  programs :=
    { decompiler := "decompile", describer := "describe", compiler := "compile", packer := "pack"
      own := true, listing := "", description := [], compiled := none }
  ledger := ⟨⟨"/", base⟩, none, false⟩
  stamps := .record []
  crawl := default
  queue := []
  maskDigit := 0x31

structure Outcome where
  well : Bool
  said : String
  files : FileTree

def runCommand (command : String) (args : List String) (files : FileTree) : Outcome :=
  match tool? command, part? command with
  | some tool, _ =>
    let (report, files) := tool args files
    ⟨report.ending = .returned 0 || report.ending = .left 0, report.out, files⟩
  | none, some part =>
    match CommandLine.run part args (workspace files) with
    | (.ok _, w) => ⟨true, w.said, w.files⟩
    | (.error (.stopped notice), w) => ⟨false, w.said ++ notice ++ "\n", w.files⟩
    | (.error _, w) => ⟨false, w.said, w.files⟩
  | none, none => ⟨false, "unknown command: " ++ command ++ "\n", files⟩

def runOn (args : List String) (text : String) : Except Fault Outcome := do
  let files ← Snapshot.read base (← Json.parse text)
  match args with
  | [] => return ⟨false, "no command\n", files⟩
  | command :: rest => return runCommand command rest files

end ScummKit.Main

def main (args : List String) : IO UInt32 := do
  let text ← (← IO.getStdin).readToEnd
  match ScummKit.Main.runOn args text with
  | .error _ =>
    IO.eprintln "standard input holds no snapshot"
    return 2
  | .ok outcome =>
    IO.eprint outcome.said
    IO.println (if outcome.well then "done" else "failed")
    IO.println (ScummKit.Snapshot.write outcome.files).line
    return if outcome.well then 0 else 1
