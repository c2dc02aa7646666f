import ScummKit.Script.Compiler
import ScummKit.Tool.Options
import ScummKit.Tool.Report

/-!
# The script compiler's command line

Compiles the scripts in some files, one after the other. A script that fails does not keep the next from
being compiled; the run returns the code of the last failure.
-/

namespace ScummKit.Tool.Compile

def engines : List String := ["3old", "3", "4", "5"]

def flags : List Flag :=
  [⟨some 'v', "script-version", .value (some engines)⟩, ⟨some 'o', "output", .value none⟩, ⟨some 'l', "legacy-descumm", .flag⟩]

def help : String :=
  "Usage: compile [options] file...\n\nCompiles SCUMM scripts as output by descumm.\n\nOptions:\n"
    ++ "  --version             show the version\n"
    ++ "  -h, --help            show this help\n"
    ++ "  -v, --script-version  the SCUMM version: 3old, 3, 4 or 5 (default: 5)\n"
    ++ "  -o, --output          the name of the compiled script\n"
    ++ "  -l, --legacy-descumm  relaxed reading of older listings\n"

structure State where
  files : FileTree
  out : String
  code : Int
  words : List String

def State.say (s : State) (line : String) : State := { s with out := s.out ++ line ++ "\n" }

def State.fail (s : State) (code : Int) (line : String) : State := { s.say line with code }

def State.reject (s : State) : Fault → State
  | .noParse => s.fail 2 "Error parsing input file"
  | .outOfBounds => s.fail 2 "Error parsing input file"
  | .compiling m => s.fail 2 ("Error parsing input file: " ++ m)
  | .script m => s.fail 2 ("Error parsing input file: " ++ m)
  | _ => s.fail 3 "ERROR - Unhandled Exception"

def State.save (s : State) (name : String) (code : List UInt8) : State :=
  let s := s.say ("Writing to " ++ name)
  match s.files.write (Path.ofText name) (.data code) with
  | .ok files => { s with files }
  | .error f =>
    (s.say ("Could not save to the file " ++ name ++ ", make sure the disk is not write-protected.")).reject f

def compileFile (o : Script.Options) (output : Option String) (s : State) (name : String) : State :=
  match s.files.bytes (Path.ofText name) with
  | .error _ => s.fail 1 ("Invalid filename: " ++ name)
  | .ok data =>
    let s := s.say ("Parsing \"" ++ name ++ "\"...")
    let (result, words) := Script.compile o s.words (Text.ofBytes data)
    let s := { s with words }
    match result with
    | .error f => s.reject f
    | .ok c =>
      match c.header with
      | .error f => s.reject f
      | .ok header =>
        s.save (output.getD ((Path.splitEnding name).1 ++ "." ++ c.tag)) (header ++ c.code)

def scriptsIn (files : FileTree) (folder : String) : List String :=
  match files.list (Path.ofText folder) with
  | .ok names =>
    (names.filter fun n => ((Path.splitEnding n).2.map Char.toLower) = ".txt").map (Path.append folder)
  | .error _ => []

def targets (files : FileTree) : List String → List String
  | [name] => if files.isFolder (Path.ofText name) then scriptsIn files name else [name]
  | names => names

def run : Run := fun args files =>
  match readLine flags args with
  | .error .help => (.plain (.left 0) help, files)
  | .error .version => (.plain (.left 0) "Scummbler v2\n", files)
  | .error .wrong => (.plain (.left 2) "", files)
  | .ok line =>
    let output := line.value? "output"
    let version := (Script.Version.ofText? ((line.value? "script-version").getD "5")).getD .v5
    if line.rest.isEmpty then
      (.plain (.returned 1) ("Please give a directory or at least one file name as the argument to "
        ++ "Scummbler.\n" ++ help), files)
    else
      let names := targets files line.rest
      if output.isSome ∧ names.length > 1 then
        (.plain (.returned 1) ("You cannot specify an output file name when you have multiple input "
          ++ "files.\n" ++ help), files)
      else
        let s := names.foldl (compileFile ⟨version, line.given "legacy-descumm", false⟩ output) ⟨files, "", 0, []⟩
        (.plain (.returned s.code) s.out, s.files)

end ScummKit.Tool.Compile
