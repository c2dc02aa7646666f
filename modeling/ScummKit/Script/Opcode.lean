import ScummKit.Fault
import ScummKit.Table
import ScummKit.Script.Version

/-!
# Operation codes

The same word can name operations of several instructions, so names are kept in families. Older engines
use other bytes, or know fewer operations.
-/

namespace ScummKit.Script

/-- The instruction whose operations a name belongs to. Most names belong to none. -/
inductive Family where
  | plain
  | actor
  | print
  | verb
  | saveLoad
  deriving Repr, DecidableEq, Inhabited

namespace Opcode

def common : Family → List (String × Nat)
  | .plain =>
    [("actorFollowCamera", 0x52), ("actorFromPos", 0x15), ("ActorOps", 0x13), ("setClass", 0x5d),
     ("animateCostume", 0x11), ("breakHere", 0x80), ("chainScript", 0x42),
     ("cursorCommand", 0x2c), ("CursorShow", 0x01), ("CursorHide", 0x02), ("UserputOn", 0x03),
     ("UserputOff", 0x04), ("CursorSoftOn", 0x05), ("CursorSoftOff", 0x06),
     ("UserputSoftOn", 0x07), ("UserputSoftOff", 0x08), ("SetCursorImg", 0x0a),
     ("setCursorHotspot", 0x0b), ("InitCursor", 0x0c), ("InitCharset", 0x0d),
     ("CursorCommand", 0x0e), ("classOfIs", 0x1d), ("cutscene", 0x40), ("debug", 0x6b),
     ("debug?", 0x6b), ("delay", 0x2e), ("delayVariable", 0x2b), ("doSentence", 0x19),
     ("drawBox", 0x3f), ("drawObject", 0x05), ("dummy(A7)", 0xa7), ("endCutscene", 0xc0),
     ("faceActor", 0x09), ("findInventory", 0x3d), ("findObject", 0x35), ("freezeScripts", 0x60),
     ("getActorCostume", 0x71), ("getActorElevation", 0x06), ("getActorFacing", 0x63),
     ("getActorMoving", 0x56), ("getActorRoom", 0x03), ("getActorScale", 0x3b),
     ("getActorWalkBox", 0x7b), ("getActorWidth", 0x6c), ("getActorX", 0x43),
     ("getActorY", 0x23), ("getAnimCounter", 0x22), ("getClosestObjActor", 0x66),
     ("getDist", 0x34), ("getInventoryCount", 0x31), ("getObjectOwner", 0x10),
     ("getObjectState", 0x0f), ("getRandomNr", 0x16), ("getStringWidth", 0x67),
     ("getVerbEntryPoint", 0x0b), ("ifState", 0x0f), ("ifNotState", 0x2f),
     ("isActorInBox", 0x1f), ("isScriptRunning", 0x68), ("isSoundRunning", 0x7c),
     ("lights", 0x70), ("loadRoom", 0x72), ("loadRoomWithEgo", 0x24), ("matrixOp", 0x30),
     ("setBoxFlags", 0x01), ("setBoxScale", 0x02), ("SetBoxSlot", 0x03),
     ("createBoxMatrix", 0x04), ("oldRoomEffect", 0x5c), ("oldRoomEffect-fadein", 0x01),
     ("oldRoomEffect-set", 0x03), ("override", 0x58), ("beginOverride", 0x01),
     ("endOverride", 0x00), ("panCameraTo", 0x12), ("pickupObject", 0x50), ("print", 0x14),
     ("printEgo", 0xd8), ("PseudoRoom", 0xcc), ("putActor", 0x01), ("putActorAtObject", 0x0e),
     ("putActorInRoom", 0x2d), ("Resource", 0x0c), ("Resource.loadScript", 0x01),
     ("Resource.loadSound", 0x02), ("Resource.loadCostume", 0x03), ("Resource.loadRoom", 0x04),
     ("Resource.nukeScript", 0x05), ("Resource.nukeSound", 0x06), ("Resource.nukeCostume", 0x07),
     ("Resource.nukeRoom", 0x08), ("Resource.lockScript", 0x09), ("Resource.lockSound", 0x0a),
     ("Resource.lockCostume", 0x0b), ("Resource.lockRoom", 0x0c),
     ("Resource.unlockScript", 0x0d), ("Resource.unlockSound", 0x0e),
     ("Resource.unlockCostume", 0x0f), ("Resource.unlockRoom", 0x10),
     ("Resource.clearHeap", 0x11), ("Resource.loadCharset", 0x12),
     ("Resource.nukeCharset", 0x13), ("Resource.loadFlObject", 0x14), ("roomOps", 0x33),
     ("RoomScroll", 0x01), ("RoomColor", 0x02), ("SetScreen", 0x03), ("SetPalColor", 0x04),
     ("ShakeOn", 0x05), ("ShakeOff", 0x06), ("saveLoadGame", 0x22), ("saveLoadVars", 0xa7),
     ("saveRestoreVerbs", 0xab), ("saveVerbs", 0x01), ("restoreVerbs", 0x02),
     ("deleteVerbs", 0x03), ("setCameraAt", 0x32), ("setObjectName", 0x54), ("setOwnerOf", 0x29),
     ("setState", 0x07), ("setVarRange", 0x26), ("soundKludge", 0x4c), ("startMusic", 0x02),
     ("startObject", 0x37), ("startSound", 0x1c), ("startScript", 0x0a), ("stopMusic", 0x20),
     ("stopObjectCode", 0xa0), ("stopObjectCode-alt", 0x00), ("stopObjectScript", 0x6e),
     ("stopScript", 0x62), ("stopSound", 0x3c), ("stringOps", 0x27), ("PutCodeInString", 0x01),
     ("CopyString", 0x02), ("SetStringChar", 0x03), ("GetStringChar", 0x04),
     ("CreateString", 0x05), ("systemOps", 0x98), ("VerbOps", 0x7a), ("wait", 0xae),
     ("WaitForActor", 0x01), ("WaitForMessage", 0x02), ("WaitForCamera", 0x03),
     ("WaitForSentence", 0x04), ("walkActorTo", 0x1e), ("walkActorToActor", 0x0d),
     ("walkActorToObject", 0x36)]
  | .actor =>
    [("Unknown", 0x00), ("Costume", 0x01), ("WalkSpeed", 0x04), ("Sound", 0x05),
     ("WalkAnimNr", 0x06), ("TalkAnimNr", 0x07), ("StandAnimNr", 0x08), ("Nothing", 0x09),
     ("Init", 0x0a), ("Elevation", 0x0b), ("DefaultAnims", 0x0c), ("Palette", 0x0d),
     ("TalkColor", 0x0e), ("Name", 0x0f), ("InitAnimNr", 0x10), ("Width", 0x12), ("Scale", 0x13),
     ("IgnoreBoxes", 0x14)]
  | .print =>
    [("Pos", 0x00), ("Color", 0x01), ("Clipped", 0x02), ("RestoreBG", 0x03), ("Center", 0x04),
     ("Left", 0x06), ("Overhead", 0x07), ("PlayCDTrack", 0x08), ("Text", 0x0f)]
  | .verb =>
    [("Image", 0x01), ("Text", 0x02), ("Color", 0x03), ("HiColor", 0x04), ("SetXY", 0x05),
     ("On", 0x06), ("Off", 0x07), ("Delete", 0x08), ("New", 0x09), ("DimColor", 0x10),
     ("Dim", 0x11), ("Key", 0x12), ("Center", 0x13), ("SetToString", 0x14),
     ("SetToObject", 0x16), ("BackColor", 0x17)]
  | .saveLoad =>
    [("VarRange", 0x01), ("StringRange", 0x02), ("Open", 0x03), ("Append", 0x04), ("Close", 0x1f), ("Load", 0x00), ("Save", 0x01)]

def early : Family → List (String × Nat)
  | .plain =>
    [("WaitForActor", 0x3b), ("WaitForMessage", 0xae)]
  | _ => []

def third : Family → List (String × Nat)
  | .plain =>
    [("LoadCharset", 0x0e), ("setBoxFlags", 0x30), ("WaitForSentence", 0x4c)]
  | .print =>
    [("Height", 0x06)]
  | _ => []

def fifth : Family → List (String × Nat)
  | .plain =>
    [("pickupObject", 0x25), ("drawObject", 0x05), ("setXY", 0x01), ("setImage", 0x02),
     ("drawObject()", 0xff), ("Unused", 0x07), ("SetRoomScale", 0x07), ("RoomIntensity", 0x08),
     ("saveLoad", 0x09), ("saveLoad?", 0x09), ("screenEffect", 0x0a), ("screenEffect?", 0x0a),
     ("setRGBRoomIntensity", 0x0b), ("setRoomShadow", 0x0c), ("saveString", 0x0d),
     ("loadString", 0x0e), ("palManipulate", 0x0f), ("colorCycleDelay", 0x10)]
  | .actor =>
    [("Unknown", 0x00), ("Costume", 0x01), ("WalkSpeed", 0x02), ("Sound", 0x03),
     ("WalkAnimNr", 0x04), ("TalkAnimNr", 0x05), ("StandAnimNr", 0x06), ("Nothing", 0x07),
     ("Init", 0x08), ("Elevation", 0x09), ("DefaultAnims", 0x0a), ("Palette", 0x0b),
     ("TalkColor", 0x0c), ("Name", 0x0d), ("InitAnimNr", 0x0e), ("Width", 0x10), ("Scale", 0x11),
     ("NeverZClip", 0x12), ("SetZClip", 0x13), ("IgnoreBoxes", 0x14), ("FollowBoxes", 0x15),
     ("AnimSpeed", 0x16), ("ShadowMode", 0x17)]
  | _ => []

def ofVersion : Version → Family → List (String × Nat)
  | .v3old => early
  | .v3 => third
  | .v4 => fun _ => []
  | .v5 => fifth

def commonCode (family : Family) (name : String) : Except Fault Nat :=
  match Table.find? name (common family) with
  | some c => .ok c
  | none => .error (.missingKey name)

def code (v : Version) (family : Family) (name : String) : Except Fault Nat :=
  match Table.find? name (ofVersion v family) with
  | some c => .ok c
  | none => commonCode family name

def inline : List (String × Nat) :=
  [("+=", 0x5a), ("-=", 0x3a), ("/=", 0x5b), ("*=", 0x1b), ("&=", 0x17), ("|=", 0x57), ("=", 0x1a), ("++", 0x46), ("--", 0xc6)]

def textFunctions : List (String × Nat) :=
  [("newline", 0x01), ("keepText", 0x02), ("wait", 0x03), ("getInt", 0x04), ("getVerb", 0x05),
   ("getName", 0x06), ("getString", 0x07), ("startAnim", 0x09), ("sound", 0x0a), ("setColor",
   0x0c), ("setFont", 0x0e)]

def expression : List (String × Nat) := [("+", 0x02), ("-", 0x03), ("*", 0x04), ("/", 0x05)]

def comparisons : List (String × Nat) :=
  [("==", 0x48), ("<", 0x78), ("<=", 0x04), (">", 0x44), (">=", 0x38), ("!=", 0x08)]

def find (table : List (String × Nat)) (name : String) : Except Fault Nat :=
  match Table.find? name table with
  | some c => .ok c
  | none => .error (.missingKey name)

def jump : Nat := 0x18

def notEqualZero : Nat := 0xa8

def equalZero : Nat := 0x28

def textMark : Nat := 0xff

def expressionStart : Nat := 0xac

def expressionValue : Nat := 0x01

def expressionCall : Nat := 0x06

def expressionEnd : Nat := 0xff

end Opcode

end ScummKit.Script
