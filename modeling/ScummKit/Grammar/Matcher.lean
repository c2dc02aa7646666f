import ScummKit.Grammar.Pattern

/-!
# Matching

`read` runs a pattern over a text. Its fuel bounds the depth of the patterns within patterns.
-/

namespace ScummKit.Grammar

variable {ρ σ : Type}

/-- What a pattern hands on: nothing at all, a capture of its own, or a stored one, which further
reading then extends in the store. -/
inductive Found where
  | nothing
  | own (c : Capture)
  | stored (index : Nat)

def Found.view : Found → Run σ Capture
  | .nothing => return .empty
  | .own c => return c
  | .stored i => return (← get).store.fetch i

def changeStored (i : Nat) (f : Capture → Capture) : Run σ Unit :=
  modify fun m => { m with store := m.store.modify i f }

def Found.extend (a b : Found) : Run σ Found := do
  let more ← b.view
  match a with
  | .nothing => return .own (Capture.empty ++ more)
  | .own c => return .own (c ++ more)
  | .stored i => do
    changeStored i (· ++ more)
    return a

def Found.settle : Found → Found
  | .nothing => .own .empty
  | f => f

def Found.toToken : Found → Token
  | .nothing => Capture.empty.toToken
  | .own c => c.toToken
  | .stored i => .shared i

/-- Files what was found under a name. Nothing is not filed, nor is a finished text without a
character. -/
def Found.file (name : String) (whole : Bool) (a : Found) : Run σ Found := do
  match a with
  | .nothing => return a
  | _ =>
    let c ← a.view
    let filed ← if whole then pure (some c.toToken) else
      match c.tokens with
      | [] => throw .mismatch
      | .code [] :: _ => pure none
      | t :: _ => pure (some t)
    match filed, a with
    | none, _ => return a
    | some t, .stored i => do
      changeStored i (·.file name t)
      return a
    | some t, _ => return .own (c.file name t)

def reach (pos : Nat) (found : Found) : Run σ (Nat × Found) := do
  modify fun m => { m with furthest := max m.furthest pos }
  return (pos, found)

/-- Runs one reading and, if the text does not match, another from the state it left. -/
def orElse (x : Run σ α) (y : Unit → Run σ α) : Run σ α :=
  tryCatch x fun
    | .mismatch => y ()
    | .fault f => throw (.fault f)

def firstOf (step : β → Run σ α) : List β → Run σ α
  | [] => throw .mismatch
  | q :: qs => orElse (step q) fun _ => firstOf step qs

def repeated (step : Nat → Run σ (Nat × Found)) : Nat → Nat → Found → Run σ (Nat × Found)
  | 0, pos, found => return (pos, found)
  | fuel + 1, pos, found => do
    match ← orElse (do return some (← step pos)) (fun _ => return none) with
    | none => return (pos, found)
    | some (next, more) => repeated step fuel next (← found.extend more)

/-- Runs an action. A position it does not find in its capture is a mismatch of the pattern. -/
def perform (f : Action σ) (site : Site) (found : Found) : Run σ Found := do
  let c ← found.view
  let reply ← tryCatch (f site c) fun
    | .fault .outOfRange => throw .mismatch
    | e => throw e
  match reply with
  | .keep => return found
  | .tokens ts => return .own ⟨ts, []⟩
  | .capture c => return .own c
  | .shared i => return .stored i

def readAtom (text : Array Char) (pos : Nat) : Pattern ρ σ → σ → Option (Nat × Found)
  | .literal s, _ =>
    if standsAt text s.toList pos then
      some (pos + s.length, .own (.single (.word s)))
    else none
  | .word first rest, _ =>
    match text[pos]? with
    | some c =>
      if first c then
        let stop := runEnd text rest (pos + 1)
        some (stop, .own (.single (.word (slice text pos stop))))
      else none
    | none => none
  | .exactly count kind, _ =>
    let stop := min (runEnd text kind pos) (pos + count)
    if stop = pos + count then some (stop, .own (.single (.word (slice text pos stop)))) else none
  | .atMost count kind, _ =>
    let stop := runEnd text kind pos
    if pos < stop ∧ stop ≤ pos + count then
      some (stop, .own (.single (.word (slice text pos stop))))
    else none
  | .oneOf words, s =>
    (longestWord text pos (words s)).map fun w => (pos + w.length, .own (.single (.word w)))
  | .quoted, _ =>
    match text[pos]? with
    | some c =>
      if c = '"' ∨ c = '\'' then
        (quoteEnd text c (pos + 1) none).map fun stop =>
          (stop, .own (.single (.word (slice text pos stop))))
      else none
    | none => none
  | .comment, _ =>
    if standsAt text ['/', '*'] pos then
      (commentEnd text (pos + 2)).map fun stop =>
        (stop, .own (.single (.word (slice text pos stop))))
    else none
  | .textStart, _ => if pos = 0 ∨ pos = skipBlanks text 0 then some (pos, .nothing) else none
  | .textEnd, _ =>
    if pos < text.size then none
    else if pos = text.size then some (pos + 1, .nothing)
    else some (pos, .nothing)
  | .blank, _ => some (pos, .nothing)
  | _, _ => none

/-- Reads a pattern from a position. `acting` says whether actions run, `skip` whether blanks in
front may be skipped. -/
def read (rules : ρ → Pattern ρ σ) (text : Array Char) : Nat → Pattern ρ σ → Bool → Bool → Nat → Run σ (Nat × Found)
  | 0, _, _, _, _ => throw .mismatch
  | fuel + 1, p, acting, skip, pos => do
    let go := read rules text fuel
    let here := if skip && p.skips then skipBlanks text pos else pos
    match p with
    | .named name q => do
      let (stop, found) ← go q acting skip pos
      let whole := match q with
        | .act _ _ => false
        | .group _ => false
        | _ => q.isList
      return (stop, ← found.file name whole)
    | .act f q => do
      let (stop, found) ← go q acting skip pos
      if acting then return (stop, ← perform f ⟨text, pos⟩ found)
      else return (stop, found)
    | .rule r _ => go (rules r) acting skip pos
    | .seq [] => reach here .nothing
    | .seq (q :: rest) => do
      let (stop, found) ← go q acting false here
      let (stop, found) ← rest.foldlM (fun (pos, found) q => do
        let (next, more) ← go q acting true pos
        return (next, ← found.extend more)) (stop, found.settle)
      reach stop found
    | .first qs => do
      let (stop, found) ← firstOf (fun q => go q acting true here) qs
      reach stop found
    | .longest qs => do
      let best ← qs.foldlM (fun (best : Option (Nat × Pattern ρ σ)) q => do
        let stop ← orElse (do return some (← go q false true here).1) (fun _ => return none)
        match stop, best with
        | none, _ => return best
        | some s, none => return some (s, q)
        | some s, some (b, _) => return if b < s then some (s, q) else best) none
      match best with
      | none => throw .mismatch
      | some (_, q) => do
        let (stop, found) ← go q acting true here
        reach stop found
    | .opt q => do
      let (stop, found) ← orElse (go q acting false here) fun _ => return (here, .nothing)
      reach stop found
    | .many q => do
      match ← orElse (do return some (← go q acting false here)) (fun _ => return none) with
      | none => reach here .nothing
      | some (stop, found) => do
        let (stop, found) ← repeated (go q acting true) (text.size + 1) stop found
        reach stop found
    | .some q => do
      let (stop, found) ← go q acting false here
      let (stop, found) ← repeated (go q acting true) (text.size + 1) stop found
      reach stop found
    | .group q => do
      let (stop, found) ← go q acting false here
      reach stop (.own (.single found.toToken))
    | .drop q => do
      let (stop, _) ← go q acting false here
      reach stop .nothing
    | .apart q => do
      let (stop, found) ← go q acting false here
      reach stop found
    | atom => do
      match readAtom text here atom (← get).user with
      | some (stop, found) => reach stop found
      | none => throw .mismatch

def depthFor (text : Array Char) : Nat := 64 * (text.size + 16)

/-- Reads a whole text by a pattern, in a fresh machine. Gives the capture, or why there is none, and
the state the actions left. -/
def readText (rules : ρ → Pattern ρ σ) (p : Pattern ρ σ) (s : String) (user : σ) : Except Stop Capture × Machine σ :=
  let text := expandTabs s
  let reading : Run σ Capture := do
    let (_, found) ← read rules text (depthFor text) p true true 0
    found.view
  reading.run.run ⟨0, #[], user⟩

end ScummKit.Grammar
