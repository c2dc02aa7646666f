import ScummKit.Project.Crawl
import ScummKit.Project.RoomName

/-!
# Taking a game apart and building it

Taking apart runs the packer, names the folders of rooms and decodes files. Building encodes what was
edited since and runs the packer the other way.
-/

namespace ScummKit.Game

open Work

structure Edition where
  id : String
  version : String
  video : String
  deriving Repr, DecidableEq, Inhabited

def editions : List Edition :=
  [⟨"MI1EGA", "4", "ega"⟩, ⟨"MI1VGA", "4", "vga"⟩, ⟨"MI1CD", "5", "vga"⟩, ⟨"MI2", "5", "vga"⟩]

def edition (name : String) : Except Fault Edition :=
  match editions.find? (·.id = name.map Char.toUpper) with
  | some e => .ok e
  | none => .error .refused

/-- Work with a ledger and a walk of its own. What they were before is restored at the end. -/
def isolated (root : Path) (act : Work α) : Work α := fun w =>
  let (result, after) := (do openLedger root; act : Work α) w
  (result, { after with ledger := w.ledger, crawl := w.crawl })

def decompile (game target name : String) (flags : List String) : Work Unit := do
  let e ← (edition name : Except Fault Edition)
  let game := (Path.ofText game).resolve
  let target := (Path.ofText target).resolve
  if !flags.contains "skip_unpack" then
    runPacker s!"-g {e.id} -i \"{game.text}\" -o {target.text} -u"
    RoomName.add target e.id
  isolated target do
    loadStamps
    startCrawl false e.version e.video ["box"]
    crawlFolder target
    saveStamps
    say s!"{e.id} successfully decompiled in 0 seconds"

def encodedKinds : List String := ["costume", "script", "image", "scale", "box", "palette", "zplane"]

def build (source game name : String) : Work Unit := do
  let e ← (edition name : Except Fault Edition)
  let source := (Path.ofText source).resolve
  let game := (Path.ofText game).resolve
  isolated source do
    loadStamps
    startCrawl true e.version e.video encodedKinds
    crawlFolder source
    if !(← get).ledger.changed then say "Nothing to rebuild"
    else
      runPacker s!"-g {e.id} -i \"{source.text}\" -o {game.text} -p"
      saveStamps
      say s!"{e.id} successfully built in 0 seconds"

end ScummKit.Game
