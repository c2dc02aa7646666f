import ScummKit.Pack.Archive
import ScummKit.Tool.Options

/-!
# The packer's command line

Takes the files of a game apart or puts them together. The game or the generation of its engine must be
given; a folder that is to be written to is made if it is missing.
-/

namespace ScummKit.Tool.Pack

open ScummKit.Pack

def flags : List Flag :=
  [⟨some 'v', "scumm-version", .value (some (Format.all.map Format.text))⟩,
   ⟨some 'g', "game", .value (some (Game.all.map Game.name))⟩,
   ⟨some 'i', "input", .value none⟩, ⟨some 'o', "output", .value none⟩,
   ⟨some 'u', "unpack", .flag⟩, ⟨some 'p', "pack", .flag⟩]

def help : String :=
  "Usage: pack [options]\n\nPacks and unpacks resources used by LucasArts adventure games.\n\n" ++ "Options:\n"
    ++ "  --version            show the version\n"
    ++ "  -h, --help           show this help\n"
    ++ "  -v, --scumm-version  the SCUMM version: 3, 3fm, 4, 5 or 6\n"
    ++ "  -g, --game           the game\n"
    ++ "  -i, --input          the folder to read from\n"
    ++ "  -o, --output         the folder to write to\n"
    ++ "  -u, --unpack         unpack resources\n"
    ++ "  -p, --pack           pack resources\n"

structure Plan where
  game : Game
  unpack : Bool
  input : String
  output : String

def chooseGame (version game : Option String) : Except String Game :=
  let name := game.orElse fun _ => version.bind Format.ofText? |>.map Game.typical
  match name.bind Game.ofName? with
  | none => .error "You must specify either a game or a SCUMM version number."
  | some g =>
    let given := version.getD g.format.text
    if given = g.format.text then .ok g
    else .error ("A conflicting SCUMM version and game ID was specified. version: " ++ given ++ ", game: " ++ g.name ++ ".")

def shownPath (p : Option String) : String := p.getD "None"

def check (line : Line) (files : FileTree) : Except String (Except Fault (Plan × FileTree)) := do
  let game ← chooseGame (line.value? "scumm-version") (line.value? "game")
  let unpack := line.given "unpack"
  if !unpack && !line.given "pack" then
    .error "Please specify whether to pack or unpack SCUMM resources."
  match line.value? "input" with
  | none => .error ("Input path does not exist, or is not a directory: " ++ shownPath none)
  | some input =>
    if !files.isFolder (Path.ofText input) then
      .error ("Input path does not exist, or is not a directory: " ++ input)
    match line.value? "output" with
    | none => return .error .wrongKind
    | some output =>
      if files.isFolder (Path.ofText output) then return .ok (⟨game, unpack, input, output⟩, files)
      else match files.makeFolder (Path.ofText output) with
        | .ok files => return .ok (⟨game, unpack, input, output⟩, files)
        | .error _ =>
          .error ("Output path could not be created, or is not a directory: " ++ output)

def failed (f : Fault) (log : List (Level × String)) (out : String) : Report :=
  ⟨.returned 1, some f, some (log ++ [(.error, "Unhandled exception occured")]), out⟩

def carryOut (o : Plan) (files : FileTree) : Report × FileTree :=
  let g := o.game
  let names := g.format.tableNames
  let opening := if o.unpack then "Starting game resource unpacking."
    else "Starting packing to game resources."
  let start : State :=
    { files, log := [(.normal, opening)], out := "", game := g.name, format := g.format
      tables := .start names, counters := .start names, disk := 0, resource := .start [] }
  let job := if o.unpack then Job.unpack g o.input o.output else Job.pack g o.input o.output
  match job.run start with
  | (.ok _, s) => (⟨.returned 0, none, some (s.log ++ [(.normal, "Finished!")]), s.out⟩, s.files)
  | (.error f, s) => (failed f s.log s.out, s.files)

def run : Run := fun args files =>
  match readLine flags args with
  | .error .help => (.plain (.left 0) help, files)
  | .error .version => (.plain (.left 0) "ScummPacker v3\n", files)
  | .error .wrong => (.plain (.left 2) "", files)
  | .ok line =>
    if !line.rest.isEmpty then
      (failed (.packing "Invalid arguments specified, check your options.") [] "", files)
    else match check line files with
      | .error message => (⟨.returned 1, none, some [(.error, message)], help⟩, files)
      | .ok (.error f) => (failed f [] "", files)
      | .ok (.ok (plan, files)) => carryOut plan files

end ScummKit.Tool.Pack
