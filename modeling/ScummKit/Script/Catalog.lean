import ScummKit.Script.Instruction

/-!
# The instructions of each engine

Signatures of all instructions that follow the common scheme, in the order in which they are tried.
The order matters where one name begins another.
-/

namespace ScummKit.Script.Catalog

open Signature

def isThird (v : Version) : Bool := v = .v3old || v = .v3

def isFifth (v : Version) : Bool := v = .v5

def only (present : Bool) (s : Signature) : List Signature := if present then [s] else []

def actorParts (v : Version) : List Signature :=
  let part := Signature.part .actor
  [part "Unknown" [.byte], part "Costume" [.byte], part "WalkSpeed" [.byte, .byte],
   part "Sound" [.byte], part "WalkAnimNr" [.byte], part "TalkAnimNr" [.byte, .byte],
   part "StandAnimNr" [.byte], part "Nothing" [.byte, .byte, .byte], part "Init" [],
   part "Elevation" [.word], part "DefaultAnims" [], part "Palette" [.byte, .byte],
   part "TalkColor" [.byte], part "Name" [.text], part "InitAnimNr" [.byte], part "Width" [.byte],
   part "Scale" (if isFifth v then [.byte, .byte] else [.byte])]
  ++ only (isFifth v) (part "NeverZClip" []) ++ only (isFifth v) (part "SetZClip" [.byte])
  ++ [part "IgnoreBoxes" []]
  ++ only (isFifth v) (part "FollowBoxes" []) ++ only (isFifth v) (part "AnimSpeed" [.byte])
  ++ only (isFifth v) (part "ShadowMode" [.byte])

def cursorCommon : List Signature :=
  [call "CursorShow" [], call "CursorHide" [], call "UserputOn" [], call "UserputOff" [],
   call "CursorSoftOn" [], call "CursorSoftOff" [], call "UserputSoftOn" [],
   call "UserputSoftOff" [], call "SetCursorImg" [.byte, .byte],
   call "setCursorHotspot" [.byte, .byte, .byte], call "InitCursor" [.byte],
   call "InitCharset" [.byte]]

def cursorParts (v : Version) : List Signature :=
  cursorCommon ++ [if isThird v then call "LoadCharset" [.byte, .byte] else call "CursorCommand" [.list]]

def boxParts : List Signature :=
  [call "setBoxFlags" [.byte, .byte], call "setBoxScale" [.byte, .byte],
   call "SetBoxSlot" [.byte, .byte], call "createBoxMatrix" []]

def printParts (v : Version) : List Signature :=
  let part := Signature.part .print
  [part "Pos" [.word, .word], part "Color" [.byte], part "Clipped" [.word], part "RestoreBG" [.word, .word], part "Center" [],
   if isThird v then part "Height" [.byte] else part "Left" [],
   part "Overhead" [], part "PlayCDTrack" [.word, .word], part "Text" [.text]]

def resourceParts : List Signature :=
  [call "Resource.loadScript" [.byte], call "Resource.loadSound" [.byte],
   call "Resource.loadCostume" [.byte], call "Resource.loadRoom" [.byte],
   call "Resource.nukeScript" [.byte], call "Resource.nukeSound" [.byte],
   call "Resource.nukeCostume" [.byte], call "Resource.nukeRoom" [.byte],
   call "Resource.lockScript" [.byte], call "Resource.lockSound" [.byte],
   call "Resource.lockCostume" [.byte], call "Resource.lockRoom" [.byte],
   call "Resource.unlockScript" [.byte], call "Resource.unlockSound" [.byte],
   call "Resource.unlockCostume" [.byte], call "Resource.unlockRoom" [.byte],
   call "Resource.clearHeap" [], call "Resource.loadCharset" [.byte],
   call "Resource.nukeCharset" [.byte], call "Resource.loadFlObject" [.byte, .word]]

/-- What can be done to texts. The first can do without its text in the current notation. -/
def stringParts (codeText : Param) : List Signature :=
  [call "PutCodeInString" [.byte, codeText], call "CopyString" [.byte, .byte],
   call "SetStringChar" [.byte, .byte, .byte], query "GetStringChar" [.byte, .byte],
   call "CreateString" [.byte, .byte]]

def verbParts : List Signature :=
  let part := Signature.part .verb
  [part "Image" [.word], part "Text" [.text], part "Color" [.byte], part "HiColor" [.byte],
   part "SetXY" [.word, .word], part "On" [], part "Off" [], part "Delete" [], part "New" [],
   part "DimColor" [.byte], part "Dim" [], part "Key" [.byte], part "Center" [],
   part "SetToString" [.word], part "SetToObject" [.word, .byte], part "BackColor" [.byte]]

def waitParts : List Signature :=
  [call "WaitForActor" [.byte], call "WaitForMessage" [], call "WaitForCamera" [], call "WaitForSentence" []]

def beforeActor : List Signature := [call "actorFollowCamera" [.byte], query "actorFromPos" [.word, .word]]

def beforeCursor : List Signature :=
  [call "setClass" [.word, .list], call "animateCostume" [.byte, .byte], call "breakHere" [], call "chainScript" [.byte, .list]]

def beforeBoxes (debug : String) (place : Param) (late : Bool) : List Signature :=
  [call "cutscene" [.list], call debug [.word], call "delayVariable" [.variable],
   call "dummy(A7)" [], call "endCutscene" [], call "faceActor" [.byte, .word],
   query "findInventory" [.byte, .byte], query "findObject" [.byte, .byte],
   call "freezeScripts" [.byte], query "getActorCostume" [.byte],
   query "getActorElevation" [.byte], query "getActorFacing" [.byte],
   query "getActorMoving" [.byte], query "getActorRoom" [.byte], query "getActorScale" [.byte],
   query "getActorWalkBox" [.byte], query "getActorWidth" [.byte], query "getActorX" [place],
   query "getActorY" [place]]
  ++ only late (query "getAnimCounter" [.byte])
  ++ [query "getClosestObjActor" [.word], query "getDist" [.word, .word],
      query "getInventoryCount" [.byte], query "getObjectOwner" [.word]]
  ++ only late (query "getObjectState" [.word])
  ++ [query "getRandomNr" [.byte], query "getStringWidth" [.byte],
      query "getVerbEntryPoint" [.word, .word], query "isScriptRunning" [.byte],
      query "isSoundRunning" [.byte], call "lights" [.byte, .fixed, .fixed],
      call "loadRoom" [.byte]]

def beforeResources : List Signature :=
  [call "putActor" [.byte, .word, .word], call "putActorAtObject" [.byte, .word], call "putActorInRoom" [.byte, .byte]]

def beforeStrings : List Signature :=
  [call "setCameraAt" [.word], call "setObjectName" [.word, .text], call "setOwnerOf" [.word, .byte],
   call "setState" [.word, .byte], call "soundKludge" [.list], call "startMusic" [.byte],
   call "startObject" [.word, .byte, .list], call "startSound" [.byte], call "stopMusic" [],
   call "stopObjectScript" [.word], call "stopScript" [.byte], call "stopSound" [.byte]]

def afterWait : List Signature :=
  [call "walkActorTo" [.byte, .word, .word], call "walkActorToActor" [.byte, .byte, .fixed],
   call "walkActorToObject" [.byte, .word]]

end ScummKit.Script.Catalog
