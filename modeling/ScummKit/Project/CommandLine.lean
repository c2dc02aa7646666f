import ScummKit.Asset.BompFile
import ScummKit.Project.Game

/-!
# Command lines

Every part of the work can be started by a line of its own. A verb that is not known does nothing; an
argument that is missing is a fault.
-/

namespace ScummKit.CommandLine

open Work

inductive Part where
  | boxes
  | scales
  | palettes
  | images
  | costumes
  | scripts
  | rows
  | game
  deriving Repr, DecidableEq, Inhabited

def argument (args : List String) (i : Nat) : Except Fault String := Position.look args i

def path (args : List String) (i : Nat) : Except Fault Path := do
  return (Path.ofText (← argument args i)).resolve

def convert (decode encode : String → Path → Work Unit) (args : List String) : Work Unit := do
  let verb ← (argument args 0 : Except Fault String)
  let act := match verb with
    | "decode" => some decode
    | "encode" => some encode
    | _ => none
  match act with
  | some act =>
    let p ← (path args 1 : Except Fault Path)
    act (← (argument args 2 : Except Fault String)) p
  | none => return

def convertPicture (decode encode : String → String → Path → Work Unit) (args : List String) :
    Work Unit :=
  let act (f : String → String → Path → Work Unit) (version : String) (p : Path) : Work Unit := do
    f version (← (argument args 3 : Except Fault String)) p
  convert (act decode) (act encode) args

/-- Work with masks numbered from the start. How they were numbered before is restored at the end. -/
def withFreshMask (act : Work Unit) : Work Unit := fun w =>
  let (result, after) := act { w with maskDigit := 0x31 }
  (result, { after with maskDigit := w.maskDigit })

/-- Work without files that wait. Those that waited before wait again at the end. -/
def withFreshQueue (act : Work Unit) : Work Unit := fun w =>
  let (result, after) := act { w with queue := [] }
  (result, { after with queue := w.queue })

def game (args : List String) : Work Unit := do
  match ← (argument args 0 : Except Fault String) with
  | "decompile" =>
    let source ← (argument args 1 : Except Fault String)
    let target ← (argument args 2 : Except Fault String)
    Game.decompile source target (← (argument args 3 : Except Fault String)) (args.drop 4)
  | "build" =>
    let source ← (argument args 1 : Except Fault String)
    let target ← (argument args 2 : Except Fault String)
    Game.build source target (← (argument args 3 : Except Fault String))
  | _ => return

def viewRows (args : List String) : Work Unit := do
  let p ← (argument args 0 : Except Fault String)
  let palette ← (argument args 1 : Except Fault String)
  let _ ← BompFile.view (Path.ofText p) (Path.ofText palette)

def run (part : Part) (args : List String) : Work Unit :=
  match part with
  | .boxes => convert (BoxFile.decode · false) (BoxFile.encode · false) args
  | .scales => convert (ScaleFile.decode · false) (ScaleFile.encode · false) args
  | .palettes =>
    convert (fun v p => do let _ ← PaletteFile.decode v false p)
      (fun v p => do let _ ← PaletteFile.encode v false p) args
  | .images =>
    withFreshMask (convertPicture (fun v video => ImageFile.decode v false video [])
      (fun v video => ImageFile.encode v false video []) args)
  | .costumes =>
    convertPicture (fun v video => CostumeFile.decode v false video [])
      (fun v video => CostumeFile.encode v false video []) args
  | .scripts => convert (ScriptFile.decode · false) (ScriptFile.encode · false) args
  | .rows => viewRows args
  | .game => withFreshQueue (game args)

end ScummKit.CommandLine
