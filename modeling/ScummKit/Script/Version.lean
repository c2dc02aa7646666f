/-!
# Engines and kinds of scripts

Scripts are compiled for one of four engines. What a script is for decides the tag of the block it
is stored in.
-/

namespace ScummKit.Script

inductive Version where
  | v3old
  | v3
  | v4
  | v5
  deriving Repr, DecidableEq, Inhabited

def Version.ofText? : String → Option Version
  | "3old" => some .v3old
  | "3" => some .v3
  | "4" => some .v4
  | "5" => some .v5
  | _ => none

inductive ScriptKind where
  | global
  | room
  | object
  | entry
  | exit
  deriving Repr, DecidableEq, Inhabited

def ScriptKind.ofText? : String → Option ScriptKind
  | "global" => some .global
  | "local" => some .room
  | "object" => some .object
  | "verb" => some .object
  | "entry" => some .entry
  | "exit" => some .exit
  | _ => none

def ScriptKind.tag : Version → ScriptKind → String
  | .v5, .global => "SCRP"
  | .v5, .room => "LSCR"
  | .v5, .object => "VERB"
  | .v5, .entry => "ENCD"
  | .v5, .exit => "EXCD"
  | _, .global => "SC"
  | _, .room => "LS"
  | _, .object => "OC"
  | _, .entry => "EN"
  | _, .exit => "EX"

end ScummKit.Script
