import ScummKit.FileTree

/-!
# Reports of tools

What a run of a command-line tool leaves behind besides files: how it ended, what it printed and
what it logged.
-/

namespace ScummKit.Tool

inductive Level where
  | debug
  | normal
  | info
  | warning
  | error
  deriving Repr, DecidableEq, Inhabited

inductive Ending where
  | returned (code : Int)
  | left (status : Int)
  | broken
  deriving Repr, DecidableEq, Inhabited

structure Report where
  ending : Ending
  fault : Option Fault
  log : Option (List (Level × String))
  out : String
  deriving Repr, Inhabited

def Report.plain (ending : Ending) (out : String) : Report := ⟨ending, none, none, out⟩

abbrev Run := List String → FileTree → Report × FileTree

end ScummKit.Tool
