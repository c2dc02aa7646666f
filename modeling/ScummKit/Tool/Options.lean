import ScummKit.Text

/-!
# Command lines

Options start with a dash and one letter, or with two dashes and a word that may be shortened as long as
it stays unique. A value follows as the next argument, directly behind the letter, or behind an equals
sign. Two dashes alone end the options.
-/

namespace ScummKit.Tool

inductive Effect where
  | value (choices : Option (List String))
  | flag
  | help
  | version
  deriving Repr, DecidableEq, Inhabited

structure Flag where
  letter : Option Char
  word : String
  effect : Effect
  deriving Repr, DecidableEq, Inhabited

inductive Leave where
  | help
  | version
  | wrong
  deriving Repr, DecidableEq, Inhabited

structure Line where
  values : List (String × String)
  rest : List String
  deriving Repr, Inhabited

namespace Line

def value? (l : Line) (name : String) : Option String := l.values.lookup name

def given (l : Line) (name : String) : Bool := (l.value? name).isSome

end Line

def standard : List Flag := [⟨none, "version", .version⟩, ⟨some 'h', "help", .help⟩]

def byLetter (flags : List Flag) (c : Char) : Except Leave Flag :=
  match flags.find? (·.letter = some c) with
  | some f => .ok f
  | none => .error .wrong

def byWord (flags : List Flag) (w : String) : Except Leave Flag :=
  match flags.find? (·.word = w) with
  | some f => .ok f
  | none =>
    match flags.filter fun f => Text.starts f.word w with
    | [f] => .ok f
    | _ => .error .wrong

def store (f : Flag) (choices : Option (List String)) (v : String) : Except Leave (String × String) :=
  match choices with
  | none => .ok (f.word, v)
  | some cs => if cs.contains v then .ok (f.word, v) else .error .wrong

def letters (flags : List Flag) : List Char → Except Leave (List (String × String) × Option (Flag × Option (List String)))
  | [] => .ok ([], none)
  | c :: rest => do
    let f ← byLetter flags c
    match f.effect with
    | .help => .error .help
    | .version => .error .version
    | .flag =>
      let (stored, last) ← letters flags rest
      return (stored ++ [(f.word, "")], last)
    | .value choices =>
      if rest.isEmpty then return ([], some (f, choices))
      else return ([← store f choices (String.ofList rest)], none)

def atEquals (cs : List Char) : List Char × Option (List Char) :=
  (cs.takeWhile (· ≠ '='), match cs.dropWhile (· ≠ '=') with
    | [] => none
    | _ :: value => some value)

def word (flags : List Flag) (cs : List Char) : Except Leave (List (String × String) × Option (Flag × Option (List String))) := do
  let (name, value) := atEquals cs
  let f ← byWord flags (String.ofList name)
  match f.effect, value with
  | .value choices, some v => return ([← store f choices (String.ofList v)], none)
  | .value choices, none => return ([], some (f, choices))
  | _, some _ => .error .wrong
  | .flag, none => return ([(f.word, "")], none)
  | .help, none => .error .help
  | .version, none => .error .version

/-- Reads arguments one after the other. `waiting` is an option whose value comes next. -/
def readArguments (flags : List Flag) : Option (Flag × Option (List String)) → List String → Except Leave Line
  | some _, [] => .error .wrong
  | none, [] => .ok ⟨[], []⟩
  | some (f, choices), v :: rest => do
    let stored ← store f choices v
    let line ← readArguments flags none rest
    return { line with values := line.values ++ [stored] }
  | none, arg :: rest => do
    match arg.toList with
    | ['-', '-'] => return ⟨[], rest⟩
    | '-' :: '-' :: cs =>
      let (stored, waiting) ← word flags cs
      let line ← readArguments flags waiting rest
      return { line with values := line.values ++ stored }
    | '-' :: c :: cs =>
      let (stored, waiting) ← letters flags (c :: cs)
      let line ← readArguments flags waiting rest
      return { line with values := line.values ++ stored }
    | _ =>
      let line ← readArguments flags none rest
      return { line with rest := arg :: line.rest }

def readLine (flags : List Flag) (args : List String) : Except Leave Line := readArguments (standard ++ flags) none args

end ScummKit.Tool
