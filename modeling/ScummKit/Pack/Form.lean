import ScummKit.Pack.Block

/-!
# Forms of blocks

The name of a block in a game file, or of a file or folder in an unpacked game, says how the block is
laid out.
-/

namespace ScummKit.Pack

inductive Form where
  | plain
  | resource
  | nameless
  | palette
  | localScript
  | sheet (sheet : Sheet)
  | image
  | code
  | imageHeader
  | object
  | offsets
  | midi
  | voice
  | tune
  | group (ranking : Ranking)
  | sounds
  | palettes
  | root
  | volume
  | room
  | song
  | sound
  | picture
  | objects
  | scripts
  deriving Repr, DecidableEq, Inhabited

namespace Format

def ranking : Format → Ranking
  | .five => .five
  | .six => .six
  | _ => .four

end Format

/-! ### Names -/

def isDecimal (c : Char) : Bool := '0' ≤ c && c ≤ '9'

def isHex (c : Char) : Bool := isDecimal c || ('a' ≤ c && c ≤ 'f') || ('A' ≤ c && c ≤ 'F')

def startsNumbered (digit : Char → Bool) (letters : String) (n : Nat) (ending : String) (name : String) : Bool :=
  let rest := name.toList.drop letters.length
  Text.starts name letters && (rest.take n).length = n && (rest.take n).all digit && ending.toList.isPrefixOf (rest.drop n)

namespace Form

/-! ### Blocks in game files -/

def ofOldName (f : Format) : String → Form
  | "LE" => .root
  | "LF" => .volume
  | "RO" => .room
  | "SO" => if f = .towns then .resource else .song
  | "SC" => .resource
  | "CO" => .resource
  | "FO" => .offsets
  | "HD" => .sheet .room
  | "LS" => .localScript
  | "OI" => .image
  | "OC" => .code
  | "\x00\x00" => .nameless
  | _ => .plain

def ofNewName (f : Format) (name : String) : Form :=
  match f, name with
  | .six, "PALS" => .group .six
  | .six, "WRAP" => .palettes
  | .six, "APAL" => .palette
  | .six, "MIDI" => .tune
  | _, "LFLF" => .volume
  | _, "ROOM" => .room
  | _, "RMIM" => .group .five
  | _, "SOUN" => .sound
  | _, "OBIM" => .picture
  | _, "OBCD" => .object
  | _, "LECF" => .root
  | _, "SOU " => .sounds
  | _, "ROL " => .midi
  | _, "SPK " => .midi
  | _, "ADL " => .midi
  | _, "GMD " => .midi
  | _, "SBL " => .voice
  | _, "COST" => .resource
  | _, "CHAR" => .resource
  | _, "SCRP" => .resource
  | _, "IMHD" => .imageHeader
  | _, "LSCR" => .localScript
  | _, "RMHD" => .sheet .room
  | _, "RMIH" => .sheet .roomImage
  | _, "LOFF" => .offsets
  | _, _ => if startsNumbered isDecimal "IM" 2 "" name then .group .five else .plain

def ofName (f : Format) (name : String) : Form := if f.isOld then ofOldName f name else ofNewName f name

/-! ### Files and folders of unpacked games -/

def ofOldFile (f : Format) (name : String) : Option Form :=
  let numbered (letters ending : String) : Bool := startsNumbered isDecimal letters 3 ending name
  match name with
  | "LE" => some .root
  | "RO" => some .room
  | "HD.xml" => some (.sheet .room)
  | "objects" => some .objects
  | "scripts" => some .scripts
  | _ =>
    if ["BM.dmp", "BX.dmp", "CC.dmp", "PA.dmp", "SA.dmp", "NL.dmp", "SL.dmp", "SP.dmp", "OC.dmp",
        "OI.dmp", "EN.dmp", "EX.dmp", "AD.dmp", "WA.dmp"].contains name then some .plain
    else if name = "SO" ∧ f ≠ .four then some .song
    else if numbered "LF_" "" then some .volume
    else if numbered "SO_" "" then some (if f = .towns then .resource else .song)
    else if numbered "CO_" "" then some .resource
    else if numbered "SC_" "" then some .resource
    else if numbered "LS_" ".dmp" then some .localScript
    else if numbered "00_" ".dmp" then some .nameless
    else none

def ofSixthFile (name : String) : Option Form :=
  match name with
  | "PALS" => some (.group .six)
  | "WRAP" => some .palettes
  | "APAL.dmp" => some .palette
  | "OFFS.dmp" => some .plain
  | "MIDI.mid" => some .tune
  | "GMD.mid" => some .midi
  | _ => if startsNumbered isDecimal "APAL_" 3 "" name then some .palette else none

def ofNewFile (name : String) : Option Form :=
  let numbered (letters ending : String) : Bool := startsNumbered isDecimal letters 3 ending name
  match name with
  | "LECF" => some .root
  | "ROOM" => some .room
  | "RMHD.xml" => some (.sheet .room)
  | "RMIM" => some (.group .five)
  | "objects" => some .objects
  | "scripts" => some .scripts
  | "RMIH.xml" => some (.sheet .roomImage)
  | "SOU" => some .sounds
  | "ROL.mid" => some .midi
  | "SPK.mid" => some .midi
  | "ADL.mid" => some .midi
  | "SBL.voc" => some .voice
  | _ =>
    if ["BOXD.dmp", "BOXM.dmp", "CLUT.dmp", "CYCL.dmp", "EPAL.dmp", "SCAL.dmp", "TRNS.dmp",
        "VERB.dmp", "SMAP.dmp", "BOMP.dmp", "ENCD.dmp", "EXCD.dmp"].contains name then some .plain
    else if numbered "LFLF_" "" then some .volume
    else if numbered "SOUN_" "" then some .sound
    else if numbered "CHAR_" "" then some .resource
    else if numbered "COST_" "" then some .resource
    else if numbered "SCRP_" "" then some .resource
    else if startsNumbered isHex "IM" 2 "" name then some (.group .five)
    else if startsNumbered isHex "ZP" 2 ".dmp" name then some .plain
    else if numbered "LSCR_" ".dmp" then some .localScript
    else none

def ofFile (f : Format) (name : String) : Option Form :=
  if f.isOld then ofOldFile f name
  else if f = .six then (ofSixthFile name).or (ofNewFile name)
  else ofNewFile name

end Form

end ScummKit.Pack
