import ScummKit.Pack.Arrange
import ScummKit.Pack.Record

/-!
# Blocks

A resource file is a tree of blocks. Blocks in others are sorted by name as a ranking says, and blocks
of one name in the order of a list if there is one.
-/

namespace ScummKit.Pack

structure Label where
  name : String
  size : Int
  deriving Repr, DecidableEq, Inhabited

/-- The number of a resource. One that the index does not list gets a number of its own. -/
structure Entry where
  index : Option Int
  unknown : Bool
  deriving Repr, DecidableEq, Inhabited

def Entry.text (e : Entry) : String :=
  (if e.unknown then "unk_" else "") ++ Spelling.pad 3 (match e.index with
    | some i => toString i
    | none => "None")

inductive Body where
  | plain (data : List UInt8)
  | resource (entry : Entry) (data : List UInt8)
  | nameless (entry : Entry) (data : List UInt8)
  | palette (index : Option Int) (data : List UInt8)
  | localScript (id : Int) (data : List UInt8)
  | sheet (sheet : Sheet) (values : List Int)
  | image (id : Int) (data : List UInt8)
  | code (object : ObjectScript)
  | imageHeader (header : ImageHeader)
  | object (header : CodeHeader) (verb : Label) (verbs : List UInt8) (name : String)
  /-- The table of rooms, which is made anew when a game is packed. -/
  | offsets
  | midi (head data : List UInt8)
  | voice (data : List UInt8)
  | tune (data : List UInt8)
  | track (entry : Entry) (data : Option (List UInt8))
  deriving Repr, DecidableEq, Inhabited

inductive GroupKind where
  | plain
  /-- The versions of a sound for different devices. Its size does not count its head. -/
  | sounds
  | palettes
  | root
  | roomFile
  | volume (entry : Entry)
  | room
  /-- A sound in the third and fourth generation. Inside another it has no number. -/
  | song (entry : Entry)
  | sound (entry : Entry)
  | picture (header : ImageHeader)
  deriving Repr, DecidableEq, Inhabited

/-! ### Rankings -/

inductive Ranking where
  | four
  | five
  | six
  deriving Repr, DecidableEq, Inhabited

namespace Ranking

def names : Ranking → List String
  | .four =>
    ["LE", "FO", "LF", "RO", "HD", "CC", "SP", "BX", "PA", "SA", "BM", "objects", "OI", "NL", "SL",
     "OC", "EX", "EN", "LC", "LS", "scripts", "SC", "WA", "AD", "SO", "00", "CO"]
  | .five =>
    ["LOFF", "LFLF", "ROOM", "RMHD", "CYCL", "TRNS", "EPAL", "BOXD", "BOXM", "CLUT", "SCAL", "RMIM",
     "RMIH", "IM", "SMAP", "ZP", "objects", "OBIM", "IMHD", "IM", "SMAP", "BOMP", "ZP", "OBCD",
     "CDHD", "VERB", "OBNA", "scripts", "EXCD", "ENCD", "NLSC", "LSCR", "SCRP", "SOUN", "SOU", "SOU ",
     "ROL", "ROL ", "SBL", "SBL ", "ADL", "ADL ", "SPK", "SPK ", "COST", "CHAR"]
  | .six =>
    ["LOFF", "LFLF", "ROOM", "RMHD", "CYCL", "TRNS", "PALS", "WRAP", "OFFS", "APAL", "RMIM", "RMIH",
     "IM", "SMAP", "ZP", "objects", "OBIM", "IMHD", "IM", "SMAP", "BOMP", "ZP", "OBCD", "CDHD",
     "VERB", "OBNA", "scripts", "EXCD", "ENCD", "NLSC", "LSCR", "BOXD", "BOXM", "SCAL", "SCRP",
     "SOUN", "SOU", "SOU ", "ROL", "ROL ", "SBL", "SBL ", "ADL", "ADL ", "SPK", "SPK ", "MIDI",
     "GMD", "GMD ", "COST", "CHAR"]

/-- The name under which a block is ranked: numbered images and masks are ranked together. -/
def key (r : Ranking) (name : String) : String :=
  if Text.starts name "ZP" then "ZP"
  else if Text.starts name "IM" then "IM"
  else if r = .four ∧ name = "\x00\x00" then "00"
  else name

def rank? (r : Ranking) (name : String) : Option Nat := r.names.idxOf? (r.key name)

end Ranking

/-! ### Trees -/

/-- The order of blocks of one name by their numbers, for each name that has one. -/
abbrev Order := List (String × List Int)

inductive Block where
  | leaf (label : Label) (body : Body)
  | group (label : Label) (kind : GroupKind) (ranking : Ranking) (order : Order) (children : List Block)
  /-- The images and the codes of a room's objects, what stands between them, and the orders of the
  images and of the codes. -/
  | objects (members between : List Block) (images codes : List Int)
  | scripts (parts : List Block)
  deriving Inhabited

namespace Block

def name : Block → String
  | .leaf label _ => label.name
  | .group label _ _ _ _ => label.name
  | .objects _ _ _ _ => "objects"
  | .scripts _ => "scripts"

/-- The number of a block. Not every kind of block can have one, and one that can may be without. -/
def number? : Block → Option (Option Int)
  | .leaf _ (.resource e _) => some e.index
  | .leaf _ (.nameless e _) => some e.index
  | .leaf _ (.track e _) => some e.index
  | .leaf _ (.palette index _) => index.map some
  | .group _ (.volume e) _ _ _ => some e.index
  | .group _ (.song e) _ _ _ => some e.index
  | .group _ (.sound e) _ _ _ => some e.index
  | _ => none

def isRoom : Block → Bool
  | .group _ .room _ _ _ => true
  | _ => false

def imageOf? : Block → Option Int
  | .leaf _ (.image id _) => some id
  | .group _ (.picture h) _ _ _ => some h.id
  | _ => none

def codeOf? : Block → Option (Int × String)
  | .leaf _ (.code o) => some (o.id, o.name)
  | .leaf _ (.object h _ _ name) => some (h.id, name)
  | _ => none

def objectOf? (b : Block) : Option Int := b.imageOf?.or (b.codeOf?.map (·.1))

def scriptNumber? : Block → Option Int
  | .leaf _ (.localScript id _) => some id
  | _ => none

def insertAmong (rank : Block → Nat) (order : Option (List Int)) (b : Block) : List Block → Except Fault (List Block)
  | [] => .ok [b]
  | c :: rest =>
    if rank c = rank b then
      match order with
      | none => do return c :: (← insertAmong rank order b rest)
      | some listed =>
        match b.number? with
        | none => .error .absent
        | some i =>
          if !(listed.map some).contains i then do return c :: (← insertAmong rank order b rest)
          else match c.number? with
            | none => .error .absent
            | some j =>
              if !(listed.map some).contains j then .ok (b :: c :: rest)
              else if (listed.map some).idxOf i < (listed.map some).idxOf j then .ok (b :: c :: rest)
              else do return c :: (← insertAmong rank order b rest)
    else if rank b < rank c then .ok (b :: c :: rest)
    else do return c :: (← insertAmong rank order b rest)

def insert (ranking : Ranking) (order : Order) (b : Block) (children : List Block) : Except Fault (List Block) :=
  match ranking.rank? b.name with
  | none => .error (.packing ("Unknown block wanted to be ranked/ordered: " ++ ranking.key b.name))
  | some _ =>
    insertAmong (fun c => (ranking.rank? c.name).getD 0) (Table.find? (ranking.key b.name) order) b children

/-! ### Objects and scripts -/

def objectIds (members : List Block) : List Int :=
  members.foldl (fun ids b => match b.objectOf? with
    | some id => if ids.contains id then ids else ids ++ [id]
    | none => ids) []

def lastWhere (p : Block → Bool) (blocks : List (Block × α)) : Option α :=
  (blocks.reverse.find? fun e => p e.1).map (·.2)

def isImageOf (id : Int) (b : Block) : Bool := b.imageOf? = some id

def isCodeOf (id : Int) (b : Block) : Bool := (b.codeOf?.map (·.1)) = some id

structure ScriptNames where
  entry : String
  leaving : String
  other : String
  deriving Repr, DecidableEq

def scriptNames (f : Format) : ScriptNames := if f.isOld then ⟨"EN", "EX", "LS"⟩ else ⟨"ENCD", "EXCD", "LSCR"⟩

def objectNames (f : Format) : String × String := if f.isOld then ("OC", "OI") else ("OBCD", "OBIM")

/-! ### Summaries -/

mutual

def shown (f : Format) : Block → String
  | .leaf label body =>
    match body with
    | .resource e _ => "[" ++ label.name ++ ":" ++ e.text ++ "]"
    | .nameless e _ => "[" ++ label.name ++ ":" ++ e.text ++ "]"
    | .object _ _ _ _ => "[" ++ label.name ++ ", ]"
    | .track _ _ => "[" ++ label.name ++ ", ]"
    | _ => "[" ++ label.name ++ "]"
  | .group label kind _ _ children =>
    let inside := shownAll f children
    match kind with
    | .root => "[" ++ label.name ++ ", " ++ ", \n".intercalate inside ++ "]"
    | .volume e => "[" ++ label.name ++ ":" ++ e.text ++ ", " ++ ", ".intercalate inside ++ "]"
    | _ => "[" ++ label.name ++ ", " ++ ", ".intercalate inside ++ "]"
  | .objects members _ _ _ =>
    let ids := (objectIds members).map fun id => "obj_" ++ toString id
    let names := objectNames f
    "[" ++ names.2 ++ " & " ++ names.1 ++ ", [" ++ ", ".intercalate ids ++ "] ]"
  | .scripts parts =>
    let inside := parts.zip (shownAll f parts)
    let one (name : String) := (lastWhere (·.name = name) inside).getD "None"
    let names := scriptNames f
    let others := (inside.filter (·.1.name = names.other)).map (·.2)
    "[Scripts, " ++ ", ".intercalate (one names.entry :: one names.leaving :: others) ++ "]"

def shownAll (f : Format) : List Block → List String
  | [] => []
  | b :: rest => shown f b :: shownAll f rest

end

def objectsShown (f : Format) (members : List Block) : String :=
  let texts := members.zip (shownAll f members)
  let one (p : Block → Bool) := (lastWhere p texts).getD "None"
  let entries := (objectIds members).map fun id =>
    toString id ++ ": [" ++ one (isImageOf id) ++ ", " ++ one (isCodeOf id) ++ "]"
  "\x7b" ++ ", ".intercalate entries ++ "\x7d"

end Block

end ScummKit.Pack
