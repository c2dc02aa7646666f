import ScummKit.ObjectCode
import ScummKit.Tool.Options
import ScummKit.Tool.Report

/-!
# The object describer

A tool that prints the line of a script that describes the object in a file.
-/

namespace ScummKit.Tool.Describe

def help : String :=
  "Usage: describe [options] file\n\nPrints the metadata of a block of object code as a line of a "
    ++ "script.\n\nOptions:\n  --version   show the version\n  -h, --help  show this help\n"

def run : Run := fun args files =>
  match readLine [] args with
  | .error .help => (.plain (.left 0) help, files)
  | .error .version => (.plain (.left 0) "Scummbler v2 - Verb Helper\n", files)
  | .error .wrong => (.plain (.left 2) "", files)
  | .ok line =>
    match line.rest with
    | [name] =>
      match files.bytes (Path.ofText name) with
      | .error _ => (.plain (.returned 1) ("Invalid file name: " ++ name ++ "\n"), files)
      | .ok data =>
        match ObjectCode.read data with
        | .ok o => (.plain (.returned 0) (o.line ++ "\n"), files)
        | .error f => (⟨.broken, some f, none, ""⟩, files)
    | _ =>
      (.plain (.returned 1) ("Please provide one file containing a binary SCUMM object script.\n" ++ help), files)

end ScummKit.Tool.Describe
