import ScummKit.Fault
import ScummKit.Table

/-!
# Indexes

Tables record where things are while a game is taken apart or put together. Each table is known by the
name of a kind of block. Resources that no table lists are numbered by counters.
-/

namespace ScummKit.Pack

inductive Key where
  | number (n : Int)
  | text (s : String)
  | tuple (items : List Int)
  deriving Repr, DecidableEq, Inhabited

def Key.shown : Key → String
  | .number n => toString n
  | .text s => s
  | .tuple [n] => s!"({n},)"
  | .tuple items => "(" ++ ", ".intercalate (items.map toString) ++ ")"

def Key.place (a b : Int) : Key := .tuple [a, b]

namespace Key

def alike : Key → Key → Bool
  | .number _, .number _ => true
  | .text _, .text _ => true
  | .tuple _, .tuple _ => true
  | _, _ => false

def le : Key → Key → Bool
  | .number a, .number b => a ≤ b
  | .text a, .text b => !(b < a)
  | .tuple a, .tuple b => !(b < a)
  | _, _ => false

end Key

/-! ### Counters -/

structure Counters where
  counts : List (String × Nat)
  deriving Repr, DecidableEq, Inhabited

namespace Counters

def start (names : List String) : Counters := ⟨names.foldl (fun t n => Table.put n 0 t) []⟩

def reset (c : Counters) : Counters := ⟨c.counts.map fun e => (e.1, 0)⟩

def next (c : Counters) (name : String) : Except Fault (Nat × Counters) :=
  match Table.find? name c.counts with
  | some n => .ok (n + 1, ⟨Table.put name (n + 1) c.counts⟩)
  | none => .error (.packing s!"Unrecognised block \"{name}\" tried to retrieve a counted index.")

end Counters

/-! ### Tables -/

structure Tables (ν : Type) where
  tables : List (String × List (Key × ν))
  deriving Repr, Inhabited

namespace Tables

variable {ν : Type}

def start (names : List String) : Tables ν := ⟨names.foldl (fun t n => Table.put n [] t) []⟩

def reset (t : Tables ν) : Tables ν := ⟨t.tables.map fun e => (e.1, [])⟩

def rows (t : Tables ν) (name : String) : Except Fault (List (Key × ν)) :=
  match Table.find? name t.tables with
  | some rows => .ok rows
  | none => .error (.packing s!"Unrecognised block \"{name}\" tried to retrieve a global index.")

def sortedRows (t : Tables ν) (name : String) : Except Fault (List (Key × ν)) := do
  let rows ← t.rows name
  match rows with
  | [] => return []
  | first :: rest =>
    if rest.all fun e => first.1.alike e.1 then
      return rows.mergeSort fun a b => a.1.le b.1
    else .error .wrongKind

def store (t : Tables ν) (name : String) (key : Key) (v : ν) : Except Fault (Tables ν) :=
  match Table.find? name t.tables with
  | some rows => .ok ⟨Table.put name (Table.put key v rows) t.tables⟩
  | none => .error (.packing s!"Unrecognised block \"{name}\" tried to store a global index.")

def fetch (t : Tables ν) (name : String) (key : Key) : Except Fault ν := do
  match Table.find? key (← t.rows name) with
  | some v => .ok v
  | none =>
    .error (.unlisted s!"Block \"{name}\" tried to retrieve an unrecognised global index \"{key.shown}\".")

end Tables

end ScummKit.Pack
