import ScummKit.Proofs.Script.Outline

/-!
# Notes of jumps and labels

While a script is read, each jump is noted under the label it goes to, and each label under the line it
stands at. Blocks make labels of their own for this. `Outline.notes` lists the notes an outline makes,
in the order in which they are made, and `Ledger.noteAll` enters them.
-/

namespace ScummKit.Script

inductive BlockKind where
  | cond
  | forLoop
  | whileLoop
  | doLoop
  deriving DecidableEq

def BlockKind.letter : BlockKind → String
  | .cond => "i"
  | .forLoop => "f"
  | .whileLoop => "w"
  | .doLoop => "d"

/-- A label: one of the script, or one that a block makes, by its kind, its first line and a number. -/
inductive Mark where
  | user (name : Name)
  | block (kind : BlockKind) (start k : Nat)
  deriving DecidableEq

def Mark.text : Mark → String
  | .user name => name.text
  | .block kind start k => blockLabel kind.letter start k

/-- What is noted: a line that jumps to a label, the only line that jumps to a label, or the line a
label stands at. -/
inductive Note where
  | jump (mark : Mark) (line : Nat)
  | only (mark : Mark) (line : Nat)
  | label (mark : Mark) (line : Nat)

structure Ledger where
  jumps : List (String × List Nat)
  labels : List (String × Nat)

namespace Ledger

def note (g : Ledger) : Note → Ledger
  | .jump m line =>
    { g with jumps := Table.put m.text ((Table.find? m.text g.jumps).getD [] ++ [line]) g.jumps }
  | .only m line => { g with jumps := Table.put m.text [line] g.jumps }
  | .label m line => { g with labels := Table.put m.text line g.labels }

def noteAll (g : Ledger) (ns : List Note) : Ledger := ns.foldl note g

variable (g : Ledger)

@[simp] theorem noteAll_nil : g.noteAll [] = g := rfl

@[simp] theorem noteAll_cons (n : Note) (ns : List Note) : g.noteAll (n :: ns) = (g.note n).noteAll ns := rfl

@[simp] theorem noteAll_append (ms ns : List Note) : g.noteAll (ms ++ ns) = (g.noteAll ms).noteAll ns := by simp [noteAll]

/-- A label of a script stands at one line only. -/
def allows (g : Ledger) : Note → Prop
  | .label (.user name) line => ∀ n, Table.find? name.text g.labels = some n → n = line
  | _ => True

/-- Every note is allowed where it is entered. -/
def allowsAll (g : Ledger) : List Note → Prop
  | [] => True
  | n :: ns => g.allows n ∧ (g.note n).allowsAll ns

theorem allowsAll_append {g : Ledger} {ms ns : List Note} :
    g.allowsAll (ms ++ ns) ↔ g.allowsAll ms ∧ (g.noteAll ms).allowsAll ns := by
  induction ms generalizing g with
  | nil => simp [allowsAll]
  | cons m ms ih => simp [allowsAll, ih, and_assoc]

end Ledger

/-- The note of a label in front of a brace. -/
def closingNotes (closing : Option Name) (n : Nat) : List Note := closing.toList.map fun name => .label (.user name) n

/-- A jump out of a branch of an if block: the number of its label and its line. -/
structure Exit where
  label : Nat
  line : Nat

/-- The notes that settle a jump out of the block that starts at `start`: it is the only one to its
label, which stands at `n`. -/
def settle (start n : Nat) (e : Exit) : List Note :=
  [.only (.block .cond start e.label) e.line, .label (.block .cond start e.label) n]

mutual

/-- The notes an outline makes whose first line has the given number. -/
def Outline.notes : Outline → Nat → List Note
  | .skip, _ => []
  | .label name, n => [.label (.user name) n]
  | .plain _, _ => []
  | .goto name, n => [.jump (.user name) n]
  | .unless _ name, n => [.jump (.user name) n]
  | .seq a b, n => a.notes n ++ b.notes (n + a.count)
  | .cond _ body others, n =>
    body.notes (n + 1) ++ others.notes n 1 [] ⟨0, n⟩ (n + 1 + body.count)
  | .forLoop first _ step body, n =>
    let start := n + first.toList.length
    let back := start + 1 + body.count + step.toList.length
    body.notes (start + 1) ++ [.label (.block .forLoop start 0) start, .jump (.block .forLoop start 0) back,
      .label (.block .forLoop start 1) (back + 1), .jump (.block .forLoop start 1) start]
  | .whileLoop _ body, n =>
    let back := n + 1 + body.count
    body.notes (n + 1) ++ [.label (.block .whileLoop n 0) n, .jump (.block .whileLoop n 0) back,
      .label (.block .whileLoop n 1) back, .jump (.block .whileLoop n 1) n]
  | .doLoop body _, n =>
    body.notes n ++ [.label (.block .doLoop n 0) n, .jump (.block .doLoop n 0) (n + body.count)]

/-- The notes of further branches of a block: its first line, the number of labels it has made, the
jumps that wait for its end, and the jump that waits for the next branch. -/
def Branches.notes : Branches → Nat → Nat → List Exit → Exit → Nat → List Note
  | .done closing, start, _, pending, last, n =>
    closingNotes closing n ++ (pending ++ [last]).flatMap (settle start n)
  | .otherwise closing body rest, start, k, pending, last, n =>
    closingNotes closing n ++ settle start (n + 1) last ++ body.notes (n + 1)
      ++ rest.notes start (k + 1) pending ⟨k, n⟩ (n + 1 + body.count)
  | .otherwiseIf closing _ body rest, start, k, pending, last, n =>
    closingNotes closing n ++ settle start (n + 1) last ++ body.notes (n + 2)
      ++ rest.notes start (k + 2) (pending ++ [⟨k, n⟩]) ⟨k + 1, n + 1⟩ (n + 2 + body.count)

end

def Assembler.ledger (a : Assembler) : Ledger := ⟨a.jumps, a.labels⟩

def Assembler.moved (a : Assembler) (line : Nat) (g : Ledger) : Assembler :=
  { a with line := line, jumps := g.jumps, labels := g.labels }

def Assembler.after (a : Assembler) (o : Outline) : Assembler :=
  a.moved (a.line + o.count) (a.ledger.noteAll (o.notes a.line))

def Assembler.Takes (a : Assembler) (o : Outline) : Prop := a.ledger.allowsAll (o.notes a.line)

end ScummKit.Script
