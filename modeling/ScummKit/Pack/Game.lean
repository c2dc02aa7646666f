import ScummKit.Pack.Spelling

/-!
# Games

The games whose files can be taken apart and put together, the generations of the engine they run on,
and the names of their files.
-/

namespace ScummKit.Pack

inductive Format where
  | towns
  | three
  | four
  | five
  | six
  deriving Repr, DecidableEq, Inhabited

namespace Format

def ofText? : String → Option Format
  | "3fm" => some .towns
  | "3" => some .three
  | "4" => some .four
  | "5" => some .five
  | "6" => some .six
  | _ => none

def text : Format → String
  | .towns => "3fm"
  | .three => "3"
  | .four => "4"
  | .five => "5"
  | .six => "6"

def all : List Format := [.three, .towns, .four, .five, .six]

/-- Whether blocks have names of two letters, with the size in front of the name. -/
def isOld : Format → Bool
  | .towns => true
  | .three => true
  | .four => true
  | _ => false

def nameLength (f : Format) : Nat := if f.isOld then 2 else 4

def headerLength (f : Format) : Nat := f.nameLength + 4

def key : Format → Option UInt8
  | .towns => none
  | .three => none
  | _ => some 0x69

def indexKey (f : Format) : Option UInt8 := if f.isOld then none else some 0x69

def volumeName (f : Format) : String := if f.isOld then "LF" else "LFLF"

def roomName (f : Format) : String := if f.isOld then "FO" else "ROOM"

def diskName (_ : Format) : String := "Disk"

def tableNames (f : Format) : List String :=
  if f.isOld then ["FO", "RO", "LF", "SC", "CO", "SO", "RN", "Disk"]
  else ["ROOM", "COST", "CHAR", "SCRP", "SOUN", "LFLF", "RNAM", "Disk"]

end Format

inductive Spanning where
  | rooms
  | disks
  | single
  deriving Repr, DecidableEq, Inhabited

structure Game where
  name : String
  format : Format
  spanning : Spanning
  indexFile : String
  /-- The name of a resource file without its ending; `%NN%` stands for the number of the file. -/
  stem : String
  ending : String
  ignored : List String
  deriving Repr, Inhabited

namespace Game

def all : List Game :=
  [⟨"DOTT", .six, .single, "TENTACLE.000", "TENTACLE", "001", []⟩, ⟨"FOA", .five, .single, "ATLANTIS.000", "ATLANTIS", "001", []⟩,
   ⟨"INDY3VGA", .three, .rooms, "00.LFL", "%NN%", "LFL", ["98.LFL", "99.LFL"]⟩,
   ⟨"LOOMCD", .four, .disks, "000.LFL", "DISK%NN%", "LEC", []⟩,
   ⟨"MI1CD", .five, .single, "MONKEY1.000", "MONKEY1", "001", []⟩,
   ⟨"MI1CDalt", .five, .single, "MONKEY.000", "MONKEY", "001", []⟩,
   ⟨"MI1EGA", .four, .disks, "000.LFL", "DISK%NN%", "LEC", []⟩,
   ⟨"MI1VGA", .four, .disks, "000.LFL", "DISK%NN%", "LEC", []⟩,
   ⟨"MI2", .five, .single, "MONKEY2.000", "MONKEY2", "001", []⟩,
   ⟨"SAM", .six, .single, "SAMNMAX.000", "SAMNMAX", "001", []⟩,
   ⟨"SAMalt", .six, .single, "SAMNMAX.SM0", "SAMNMAX", "SM1", []⟩,
   ⟨"ZAKFM", .towns, .rooms, "00.LFL", "%NN%", "LFL", ["98.LFL", "99.LFL"]⟩]

def ofName? (name : String) : Option Game := all.find? (·.name = name)

def typical : Format → String
  | .towns => "ZAKFM"
  | .three => "INDY3VGA"
  | .four => "LOOMCD"
  | .five => "FOA"
  | .six => "SAM"

def numbered (n : Int) (s : String) : String := Text.swap s "%NN%" (Spelling.pad 2 (toString n))

def resourceFile (g : Game) (n : Int) : String := numbered n (g.stem ++ "." ++ g.ending)

def folder (g : Game) (n : Int) : String := numbered n g.stem

def plainName (name : String) : String :=
  if Text.ends name "alt" then String.ofList (name.toList.take (name.length - 3)) else name

def roomSlots : List (String × Int) :=
  [("ZAKFM", 99), ("INDY3VGA", 99), ("LOOMCD", 99), ("MI1VGA", 99), ("MI1EGA", 99), ("MI1CD", 100),
   ("MI2", 127), ("FOA", 99), ("DOTT", 91), ("SAM", 94)]

def leastEntries : List (String × List (String × Int)) :=
  let old (s n c : Int) : List (String × Int) := [("0S", s), ("0N", n), ("0C", c)]
  let new (s n c f : Int) : List (String × Int) :=
    [("DSCR", s), ("DSOU", n), ("DCOS", c), ("DCHR", f)]
  [("ZAKFM", old 199 199 199), ("INDY3VGA", old 139 84 129), ("LOOMCD", old 199 199 199),
   ("MI1VGA", old 199 199 199), ("MI1EGA", old 199 199 199), ("MI1CD", new 199 150 150 7),
   ("MI2", new 199 254 199 9), ("FOA", new 200 250 244 5), ("DOTT", new 156 103 397 8),
   ("SAM", new 123 95 341 6)]

end Game

end ScummKit.Pack
