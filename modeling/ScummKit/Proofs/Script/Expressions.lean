import Mathlib.Logic.Relation
import Mathlib.Tactic.SplitIfs
import ScummKit.Proofs.Script.Definitions
import ScummKit.Proofs.Script.Offsets

/-!
# Expressions compute what is written

An expression is compiled for a stack: its sides push their values, left before right, and the
operation behind them puts one value in place of the two. `Written` says which tree a stretch of text
is a spelling of, and `Engine.Computes` what the value of a tree is. The code of an expression pushes
the value of the tree that is written, and nothing of the code behind it is touched (`read_expression`).
What variables hold and what instructions do is left to the engine.
-/

namespace ScummKit.Script

open Grammar Build Lexicon Special Statement
open Layout (signedWord signedWord_bytes word_eq_ok)

variable {code : Code}

/-! ### Trees and their values -/

/-- What can be written between two values. -/
inductive Arithmetic where
  | add
  | sub
  | mul
  | div
  deriving Repr, DecidableEq

def Arithmetic.symbol : Arithmetic → String
  | .add => "+"
  | .sub => "-"
  | .mul => "*"
  | .div => "/"

/-- An expression as a tree. -/
inductive Expression where
  | operand (o : Operand)
  /-- An instruction whose result is taken. -/
  | call (code : Code)
  | operation (op : Arithmetic) (left right : Expression)

/-- What runs the code of an expression. -/
structure Engine (World : Type) where
  /-- The value of the variable that the code begins with a reference to, and the code behind it. -/
  fetch : World → Code → Option (Int × Code)
  /-- Runs the instruction that the code begins with. -/
  run : World → Code → Option (World × Code)
  run_nil : ∀ w, run w [] = none
  /-- The variable that takes results. -/
  result : World → Int
  /-- The value of an operation on a left and a right one. -/
  combine : Arithmetic → Int → Int → Option Int

namespace Engine

variable {World : Type} (E : Engine World)

/-- A variable holds a value: that is what the engine takes a reference to it for, whatever follows. -/
def Holds (w : World) (v : Variable) (x : Int) : Prop :=
  ∃ code, v.encode false = .ok code ∧ ∀ rest, E.fetch w (code ++ rest) = some (x, rest)

/-- An instruction changes the world, whatever follows it. -/
def Performs (w : World) (code : Code) (w' : World) : Prop := ∀ rest, E.run w (code ++ rest) = some (w', rest)

/-- The value of a tree, computed from left to right. A constant stands for the signed word it fits
in. -/
inductive Computes : World → Expression → Int → World → Prop
  | constant {w : World} {n : Int} : Computes w (.operand (.constant n)) (n.bmod 65536) w
  | reference {w : World} {v : Variable} {x : Int} : E.Holds w v x → Computes w (.operand (.variable v)) x w
  | call {w w' : World} {code : Code} : E.Performs w code w' → Computes w (.call code) (E.result w') w'
  | operation {w w₁ w' : World} {op : Arithmetic} {left right : Expression} {x y z : Int} :
      Computes w left x w₁ → Computes w₁ right y w' → E.combine op x y = some z →
      Computes w (.operation op left right) z w'

end Engine

/-! ### The stack -/

def Arithmetic.byte : Arithmetic → UInt8
  | .add => 0x02
  | .sub => 0x03
  | .mul => 0x04
  | .div => 0x05

def Arithmetic.ofByte? (b : UInt8) : Option Arithmetic := [.add, .sub, .mul, .div].find? fun op => op.byte = b

@[simp] theorem Arithmetic.ofByte?_byte (op : Arithmetic) : ofByte? op.byte = some op := by cases op <;> decide

/-- A stack with the code that is still to be run. -/
structure Pending (World : Type) where
  world : World
  stack : List Int
  code : Code

namespace Engine

variable {World : Type} (E : Engine World)

/-- Runs one operation: pushes a constant, a variable or the result of an instruction, or puts one value
in place of two, of which the one pushed first is on the left. -/
def step (s : Pending World) : Option (Pending World) :=
  match s.code with
  | [] => none
  | b :: code =>
    if b = 0x01 then
      match code with
      | lo :: hi :: rest => some ⟨s.world, signedWord [lo, hi] :: s.stack, rest⟩
      | _ => none
    else if b = 0x81 then
      (E.fetch s.world code).map fun (x, rest) => ⟨s.world, x :: s.stack, rest⟩
    else if b = 0x06 then
      (E.run s.world code).map fun (w, rest) => ⟨w, E.result w :: s.stack, rest⟩
    else
      match Arithmetic.ofByte? b, s.stack with
      | some op, y :: x :: stack => (E.combine op x y).map fun z => ⟨s.world, z :: stack, code⟩
      | _, _ => none

def Steps : Pending World → Pending World → Prop := Relation.ReflTransGen fun s t => E.step s = some t

end Engine

/-- Wherever it is run, the code pushes the value of the tree and leaves the code behind it. -/
def Expression.PushedBy (e : Expression) (code : Code) : Prop :=
  ∀ (World : Type) (E : Engine World) (w w' : World) (x : Int), E.Computes w e x w' →
    ∀ stack rest, E.Steps ⟨w, stack, code ++ rest⟩ ⟨w', x :: stack, rest⟩

section Pushes

theorem exists_word {n : Int} (h : Field.word n = .ok code) : ∃ lo hi, code = [lo, hi] ∧ signedWord [lo, hi] = n.bmod 65536 := by
  obtain ⟨-, rfl⟩ := word_eq_ok.1 h
  refine ⟨_, _, rfl, ?_⟩
  rw [signedWord_bytes (by omega), Int.toNat_of_nonneg (by omega)]
  exact Int.emod_bmod n 65536

theorem pushedBy_constant {n : Int} (h : Field.word n = .ok code) :
    (Expression.operand (.constant n)).PushedBy (0x01 :: code) := by
  obtain ⟨lo, hi, rfl, hword⟩ := exists_word h
  intro World E w w' x hx stack rest
  cases hx with
  | constant => exact .single (by simp [Engine.step, hword])

theorem pushedBy_variable {v : Variable} (h : v.encode false = .ok code) :
    (Expression.operand (.variable v)).PushedBy (0x81 :: code) := by
  intro World E w w' x hx stack rest
  cases hx with
  | reference hholds =>
    obtain ⟨code', hcode, hfetch⟩ := hholds
    obtain rfl : code = code' := Except.ok.inj (h.symm.trans hcode)
    exact .single (by simp [Engine.step, hfetch])

theorem pushedBy_call (code : Code) : (Expression.call code).PushedBy (0x06 :: code) := by
  intro World E w w' x hx stack rest
  cases hx with
  | call hperforms => exact .single (by simp [Engine.step, hperforms rest])

theorem pushedBy_call_nil (code : Code) : (Expression.call []).PushedBy code := by
  intro World E w w' x hx stack rest
  cases hx with
  | call hperforms => exact absurd (hperforms []) (by simp [E.run_nil])

theorem pushedBy_operation {op : Arithmetic} {left right : Expression} {l r : Code}
    (hl : left.PushedBy l) (hr : right.PushedBy r) : (Expression.operation op left right).PushedBy (l ++ r ++ [op.byte]) := by
  intro World E w w' z hz stack rest
  cases hz with
  | @operation _ w₁ _ _ _ _ x y _ hx hy hz =>
    have hleft := hl World E w w₁ x hx stack (r ++ op.byte :: rest)
    have hright := hr World E w₁ w' y hy (x :: stack) (op.byte :: rest)
    have hlast : E.step ⟨w', y :: x :: stack, op.byte :: rest⟩ = some ⟨w', z :: stack, rest⟩ := by
      have hother : op.byte ≠ 0x01 ∧ op.byte ≠ 0x81 ∧ op.byte ≠ 0x06 := by cases op <;> decide
      simp [Engine.step, hother, hz]
    simp only [List.append_assoc]
    exact (hleft.trans hright).tail hlast

end Pushes

/-! ### How expressions are written -/

section Spelling

variable (v : Version) (legacy : Bool) (text : Array Char) (u : Assembler)

/-- A pattern matches between two places in the state `u`, and the stored captures become `s'`. -/
def Reads (p : Syn) (s : Store) (pos stop : Nat) (found : Found) (s' : Store) : Prop :=
  ∃ fuel far far', Gets (read (rules v legacy) text fuel p true true pos) ⟨far, s, u⟩ (stop, found) ⟨far', s', u⟩

/-- A pattern does not match at a place, and the attempt leaves the stored captures `s'`. -/
def Refuses (p : Syn) (s : Store) (pos : Nat) (s' : Store) : Prop :=
  ∃ fuel far far', Misses (read (rules v legacy) text fuel p true true pos) ⟨far, s, u⟩ ⟨far', s', u⟩

/-- What was found is an operand; what a defined name stands for is looked up in `k`. -/
def Means (k : Store) (found : Found) (o : Operand) : Prop :=
  ∃ far, Gets (Build.operand (some found.toToken)) ⟨far, k, u⟩ o ⟨far, k, u⟩

mutual

/-- The text between two places is an operation in parentheses. Reading it takes the stored captures
from the first store to the last. -/
inductive Written : Store → Nat → Nat → Expression → Store → Prop
  | operation {s s₁ s' : Store} {pos a b c d stop : Nat} {op : Arithmetic} {left right : Expression} :
      markEnd? text "(" pos = some a → WrittenSide s' s a b left s₁ →
      markEnd? text op.symbol b = some c → WrittenSide s' s₁ c d right s' →
      markEnd? text ")" d = some stop → Written s pos stop (.operation op left right) s'

/-- The text between two places is a side of an operation. Operands and instructions are whatever the
reader takes for one. A defined name stands for what is stored when the operation is compiled, which
is the store in front. -/
inductive WrittenSide : Store → Store → Nat → Nat → Expression → Store → Prop
  | operand {k s s' : Store} {pos stop : Nat} {found : Found} {o : Operand} :
      Reads v legacy text u Lexicon.operand s pos stop found s' → Means u k found o →
      WrittenSide k s pos stop (.operand o) s'
  | nested {k s s₁ s' : Store} {pos stop : Nat} {e : Expression} :
      Refuses v legacy text u Lexicon.operand s pos s₁ → Written s₁ pos stop e s' →
      WrittenSide k s pos stop e s'
  | call {k s s₁ s' : Store} {pos a b stop : Nat} {code : Code} :
      Refuses v legacy text u Lexicon.operand s pos s₁ → markEnd? text "<" pos = some a →
      Reads v legacy text u (callee v legacy) s₁ a b (.own ⟨[.code code], []⟩) s' →
      markEnd? text ">" (optionalEnd text ";" b) = some stop →
      WrittenSide k s pos stop (.call code) s'

end

end Spelling

/-! ### Reading expressions -/

section Runs

variable {α β : Type} {m m' : Machine Assembler} {x : Except Fault α} {found : Found}

theorem gets_lift {a : α} : Gets (lift x) m a m' ↔ x = .ok a ∧ m' = m := by
  cases x with
  | error f => exact ⟨nofun, nofun⟩
  | ok b =>
    refine gets_pure.trans ?_
    rw [Except.ok.injEq, eq_comm]

theorem gets_lift_bind {f : α → Build β} {b : β} : Gets (lift x >>= f) m b m' ↔ ∃ a, x = .ok a ∧ Gets (f a) m b m' := by
  simp [gets_bind, gets_lift, and_assoc]

theorem gets_extend_own {c : Capture} {more joined : Found} :
    Gets ((Found.own c).extend more) m joined m' ↔ joined = .own (c ++ more.seen m) ∧ m' = m := by
  cases more <;> exact gets_pure

theorem gets_capture {c : Option Capture} : Gets (capture? (some found.toToken)) m c m' ↔ c = some (found.seen m) ∧ m' = m := by
  cases found <;> exact gets_pure

theorem gets_capture_bind {f : Option Capture → Build β} {b : β} :
    Gets (capture? (some found.toToken) >>= f) m b m' ↔ Gets (f (some (found.seen m))) m b m' := by
  simp [gets_bind, gets_capture, and_assoc]

end Runs

section Reading

variable {v : Version} {legacy : Bool} {text : Array Char} {u : Assembler} {fuel pos stop : Nat}
variable {skip : Bool} {m m' : Machine Assembler} {found : Found} {items : List Syn} {c : Capture}
variable {s w name : String} {words : List String}

theorem gets_mark (hfresh : Fresh text skip pos) (h : Gets (scan v legacy text fuel (mark s) skip pos) m (stop, found) m') :
    markEnd? text s pos = some stop ∧ found = .nothing ∧ m' = m.reached stop := by
  obtain ⟨fuel, rfl⟩ := fuel_of_gets h
  obtain ⟨inner, m₁, hinner, rfl, rfl⟩ := gets_drop.1 h
  obtain ⟨fuel, rfl⟩ := fuel_of_gets hinner
  obtain ⟨hatom, rfl⟩ := (gets_atom rfl).1 hinner
  rw [hfresh.seat rfl, fresh_skipBlanks.seat rfl, skipBlanks_skipBlanks, readAtom_literal] at hatom
  obtain ⟨stop, hstop, heq⟩ := Option.map_eq_some_iff.1 hatom
  cases heq
  exact ⟨hstop, rfl, by simp [Machine.reached]⟩

theorem gets_items_own {q : Syn} {r : Nat × Found} :
    Gets (readItems (rules v legacy) text fuel true (q :: items) (pos, .own c)) m r m' ↔
    ∃ next more m₁, Gets (scan v legacy text fuel q true pos) m (next, more) m₁ ∧
    Gets (readItems (rules v legacy) text fuel true items (next, .own (c ++ more.seen m₁))) m₁ r m' := by
  refine gets_items_cons.trans ?_
  simp [gets_extend_own, and_assoc]

theorem gets_items_mark (h : Gets (readItems (rules v legacy) text fuel true (mark s :: items) (pos, .own c)) m
    (stop, found) m') : ∃ next, markEnd? text s pos = some next ∧
    Gets (readItems (rules v legacy) text fuel true items (next, .own c)) (m.reached next) (stop, found) m' := by
  obtain ⟨next, more, m₁, hmark, hitems⟩ := gets_items_own.1 h
  obtain ⟨hnext, rfl, rfl⟩ := gets_mark fresh_true hmark
  exact ⟨next, hnext, by simpa [Found.seen] using hitems⟩

theorem gets_seq_mark (hfresh : Fresh text skip pos) (h : Gets (scan v legacy text (fuel + 1) (.seq (mark s :: items)) skip pos) m
    (stop, found) m') : ∃ next m₁, markEnd? text s pos = some next ∧
    Gets (readItems (rules v legacy) text fuel true items (next, .own .empty)) (m.reached next)
    (stop, found) m₁ ∧ m' = m₁.reached stop := by
  obtain ⟨next, inner, m₁, m₂, hmark, hitems, rfl⟩ := gets_seq.1 h
  rw [hfresh.start] at hmark
  obtain ⟨hnext, rfl, rfl⟩ := gets_mark fresh_skipBlanks hmark
  exact ⟨next, m₂, by simpa using hnext, hitems, rfl⟩

theorem standsAt_longestWord (h : longestWord text pos words = some w) : standsAt text w.toList pos = true := by
  induction words with
  | nil => cases h
  | cons w' words ih =>
    rw [longestWord] at h
    grind

theorem gets_choice (h : Gets (scan v legacy text fuel (choice name words) true pos) m (stop, found) m') :
    ∃ w, markEnd? text w pos = some stop ∧ found = .own ⟨[.word w], [(name, .word w)]⟩ ∧ m' = m.reached stop := by
  obtain ⟨fuel, rfl⟩ := fuel_of_gets h
  obtain ⟨inner, m₁, hinner, hfile⟩ := gets_named.1 h
  obtain ⟨fuel, rfl⟩ := fuel_of_gets hinner
  obtain ⟨hatom, rfl⟩ := (gets_atom rfl).1 hinner
  rw [fresh_true.seat rfl] at hatom
  obtain ⟨w, hw, heq⟩ := Option.map_eq_some_iff.1 hatom
  cases heq
  cases hfile
  exact ⟨w, by rw [markEnd?, if_pos (standsAt_longestWord hw)], rfl, rfl⟩

theorem misses_mark (hnone : markEnd? text s pos = none) (hfresh : Fresh text skip pos) (fuel : Nat) (m : Machine Assembler) :
    Misses (scan v legacy text fuel (mark s) skip pos) m m := by
  rcases fuel with _ | _ | fuel
  · rfl
  · rfl
  · refine misses_bind_left ?_
    rw [Misses, run_atom rfl]
    have hseat : (if (skip && Pattern.skips (mark s)) = true then skipBlanks text pos else pos)
        = skipBlanks text pos := hfresh.seat rfl
    rw [hseat, fresh_skipBlanks.seat rfl, skipBlanks_skipBlanks, readAtom_literal, hnone]
    rfl

theorem misses_expression (hnone : markEnd? text "(" pos = none) (fuel : Nat) (m : Machine Assembler) :
    Misses (scan v legacy text fuel expressionRef true pos) m m := by
  rcases fuel with _ | _ | _ | _ | fuel
  iterate 4 rfl
  refine misses_bind_left (misses_bind_left (misses_bind_left ?_))
  exact misses_mark (by simpa using hnone) fresh_skipBlanks _ m

theorem gets_optional (h : Gets (scan v legacy text (fuel + 3) (.opt (mark s)) true pos) m (stop, found) m') :
    stop = optionalEnd text s pos ∧ found = .nothing ∧ m' = m.reached stop := by
  obtain ⟨m₁, hmark | ⟨hmiss, rfl, rfl⟩, rfl⟩ := gets_opt.1 h
  · obtain ⟨hstop, rfl, rfl⟩ := gets_mark fresh_skipBlanks hmark
    rw [markEnd?_skipBlanks] at hstop
    exact ⟨by simp [optionalEnd, hstop], rfl, by simp [Machine.reached]⟩
  · rw [fresh_true.seat rfl] at hmiss ⊢
    have hnone : markEnd? text s pos = none := by
      simpa using (Triple.misses (triple_mark (P := fun _ => True) fresh_skipBlanks) trivial hmiss).1
    obtain rfl : m₁ = m :=
      Misses.unique hmiss (misses_mark (by simpa using hnone) fresh_skipBlanks _ m)
    exact ⟨by simp [optionalEnd, hnone], rfl, rfl⟩

theorem reads_of_gets {p : Syn} (hm : m.user = u) (hm' : m'.user = u)
    (h : Gets (scan v legacy text fuel p true pos) m (stop, found) m') :
    Reads v legacy text u p m.store pos stop found m'.store := by
  obtain ⟨far, s, _⟩ := m
  obtain ⟨far', s', _⟩ := m'
  subst hm hm'
  exact ⟨fuel, far, far', h⟩

theorem refuses_of_misses {p : Syn} (hm : m.user = u) (hm' : m'.user = u) (h : Misses (scan v legacy text fuel p true pos) m m') :
    Refuses v legacy text u p m.store pos m'.store := by
  obtain ⟨far, s, _⟩ := m
  obtain ⟨far', s', _⟩ := m'
  subst hm hm'
  exact ⟨fuel, far, far', h⟩

/-- What an instruction of an expression is found as: its code, under a name unless it is empty. -/
def IsCall (code : Code) (found : Found) : Prop :=
  found = .own ⟨[.code code], if code = [] then [] else [("expop", .code code)]⟩

theorem gets_call (hm : Fit u m) (h : Gets (scan v legacy text fuel (expressionCall v legacy) true pos) m (stop, found) m') :
    Fit u m' ∧ ∃ a b code, markEnd? text "<" pos = some a ∧
    Reads v legacy text u (callee v legacy) m.store a b (.own ⟨[.code code], []⟩) m'.store ∧
    markEnd? text ">" (optionalEnd text ";" b) = some stop ∧ IsCall code found := by
  obtain ⟨fuel, rfl⟩ := fuel_of_gets h
  obtain ⟨a, m₁, ha, hitems, rfl⟩ := gets_seq_mark fresh_true h
  obtain ⟨b, more, m₃, hcall, hitems⟩ := gets_items_own.1 hitems
  -- the instruction is read deep enough that the mark behind it is seen
  obtain ⟨fuel, rfl⟩ := fuel_of_gets hcall
  obtain ⟨inner, m₄, hinner, hfile⟩ := gets_named.1 hcall
  obtain ⟨fuel, rfl⟩ := fuel_of_gets hinner
  obtain ⟨fuel, rfl⟩ : ∃ n, fuel = n + 1 := by
    obtain ⟨_, hfirst, -⟩ := gets_first.1 hinner
    obtain hone | ⟨_, -, hfirst⟩ := gets_firstOf.1 hfirst
    · exact fuel_of_gets hone
    obtain hother | ⟨_, -, hfirst⟩ := gets_firstOf.1 hfirst
    · exact fuel_of_gets hother
    · exact absurd hfirst not_gets_firstOf_nil
  have hfit : Fit u m₄ := (Invariant.gets (invariant_plain (emitter_callee v legacy).inert
    (plain_callee v legacy)) (show Fit u (m.reached a) from hm) hinner).1
  obtain ⟨-, ⟨code, rfl, -⟩, -⟩ := Triple.gets (triple_emitter (emitter_callee v legacy))
    (show (m.reached a).user = u from hm.1) hinner
  have hmore : IsCall code more ∧ m₃ = m₄ := by
    cases code with
    | nil => cases hfile; exact ⟨rfl, rfl⟩
    | cons b bs => cases hfile; exact ⟨rfl, rfl⟩
  obtain ⟨hmore, rfl⟩ := hmore
  obtain ⟨c, more', m₅, hopt, hitems⟩ := gets_items_own.1 hitems
  obtain ⟨rfl, rfl, rfl⟩ := gets_optional hopt
  obtain ⟨d, hd, hitems⟩ := gets_items_mark hitems
  obtain ⟨heq, rfl⟩ := gets_items_nil.1 hitems
  cases heq
  have hreads := reads_of_gets (show (m.reached a).user = u from hm.1) hfit.1 hinner
  refine ⟨hfit, a, b, code, ha, hreads, hd, ?_⟩
  rw [hmore]
  cases code <;> rfl

/-! ### Sides and operations -/

def sideOfOperand : Operand → Side
  | .variable w => .variable w
  | .constant n => .constant n

theorem pushedBy_operand {o : Operand} (h : (sideOfOperand o).push = .ok code) : (Expression.operand o).PushedBy code := by
  cases o with
  | «variable» w =>
    obtain ⟨bytes, hw, h⟩ := bind_eq_ok.1 h
    cases h
    exact pushedBy_variable hw
  | constant n =>
    obtain ⟨bytes, hn, h⟩ := bind_eq_ok.1 h
    cases h
    exact pushedBy_constant hn

theorem gets_variableOf {depth : Nat} {w : Variable} (h : Gets (variableOf depth c) m w m') : m' = m := by
  have hsilent := silent_variableOf depth c m
  rw [h] at hsilent
  exact hsilent

theorem gets_sideOf_describes {side : Side} (hfound : Describes (found.seen m)) (h : Gets (sideOf (found.seen m)) m side m') :
    m' = m ∧ ∃ o, side = sideOfOperand o ∧ Gets (Build.operand (some found.toToken)) m o m := by
  have hoperand : ∀ o, Gets (if isVariable (found.seen m) then do
        return Operand.variable (← variableOf offsetDepth (found.seen m))
      else do return Operand.constant (← lift (fieldNumber ((found.seen m).find? "value")))) m o m →
      Gets (Build.operand (some found.toToken)) m o m := fun o ho =>
    gets_capture_bind.2 ho
  rw [sideOf, hfound.2] at h
  by_cases hvariable : isVariable (found.seen m) = true
  · rw [if_pos hvariable] at h
    obtain ⟨w, m₁, hw, h⟩ := gets_bind.1 h
    obtain ⟨rfl, rfl⟩ := gets_pure.1 h
    obtain rfl := gets_variableOf hw
    refine ⟨rfl, .variable w, rfl, hoperand _ ?_⟩
    rw [if_pos hvariable]
    exact gets_bind.2 ⟨w, _, hw, gets_pure.2 ⟨rfl, rfl⟩⟩
  · rw [if_neg hvariable, if_pos (hfound.1.resolve_left hvariable)] at h
    obtain ⟨n, hn, h⟩ := gets_lift_bind.1 h
    obtain ⟨rfl, rfl⟩ := gets_pure.1 h
    refine ⟨rfl, .constant n, rfl, hoperand _ ?_⟩
    rw [if_neg hvariable]
    exact gets_lift_bind.2 ⟨n, hn, gets_pure.2 ⟨rfl, rfl⟩⟩

/-- What was found can be compiled as a side in the machine `k`: it is the side of a tree that is
written there, and what is emitted for it pushes the value of the tree. -/
def Compiles (v : Version) (legacy : Bool) (text : Array Char) (u : Assembler) (s : Store)
    (pos stop : Nat) (s' : Store) (found : Found) : Prop :=
  ∀ k, Fit u k → ∀ side k', Gets (sideOf (found.seen k)) k side k' → k' = k ∧
    ∃ e, WrittenSide v legacy text u k.store s pos stop e s' ∧ ∀ code, side.push = .ok code → e.PushedBy code

theorem compiles_operand (hm : Fit u m) (h : Gets (scan v legacy text fuel Lexicon.operand true pos) m (stop, found) m') :
    Fit u m' ∧ Compiles v legacy text u m.store pos stop m'.store found := by
  obtain ⟨hfit, htame⟩ := Invariant.gets (invariant_plain inert_operand (by decide +kernel)) hm h
  have hdescribing := Triple.gets (finds_operand _ _ _) trivial h
  refine ⟨hfit, fun k hk side k' hside => ?_⟩
  have hdescribes : Describes (found.seen k) := by
    cases found with
    | nothing => exact hdescribing.elim
    | own c => exact ⟨hdescribing, htame⟩
    | stored i =>
      obtain ⟨name, hname⟩ := htame
      exact hk.2 name i (hk.1 ▸ hname)
  obtain ⟨rfl, o, rfl, ho⟩ := gets_sideOf_describes hdescribes hside
  refine ⟨rfl, .operand o, .operand (reads_of_gets hm.1 hfit.1 h) ?_, fun code => pushedBy_operand⟩
  obtain ⟨far, s, _⟩ := k'
  obtain rfl := hk.1
  exact ⟨far, ho⟩

theorem compiles_code {e : Expression} {s s' : Store}
    (hwritten : ∀ k, WrittenSide v legacy text u k s pos stop e s') (he : e.PushedBy code) :
    Compiles v legacy text u s pos stop s' (.own ⟨[.code code], []⟩) := by
  intro k _ side k' hside
  cases hside
  refine ⟨rfl, e, hwritten k.store, fun code' hcode => ?_⟩
  cases hcode
  exact he

theorem compiles_call (hm : Fit u m) {s : Store} (hrefuses : Refuses v legacy text u Lexicon.operand s pos m.store)
    (h : Gets (scan v legacy text fuel (expressionCall v legacy) true pos) m (stop, found) m') :
    Fit u m' ∧ Compiles v legacy text u s pos stop m'.store found := by
  obtain ⟨hfit, a, b, code, ha, hreads, hb, hfound⟩ := gets_call hm h
  have hwritten : ∀ k, WrittenSide v legacy text u k s pos stop (.call code) m'.store := fun k =>
    .call hrefuses ha hreads hb
  refine ⟨hfit, ?_⟩
  rw [hfound]
  cases code with
  | nil => exact compiles_code hwritten (pushedBy_call_nil [])
  | cons b bs =>
    intro k _ side k' hside
    cases hside
    refine ⟨rfl, _, hwritten k.store, fun code' hcode => ?_⟩
    cases hcode
    exact pushedBy_call _

def sideUnder (v : Version) (legacy : Bool) (name : String) : Syn :=
  .named name (.group (.first [Lexicon.operand, expressionRef, expressionCall v legacy]))

/-- Expressions are written trees, compiled to push their values, as far as some fuel goes. -/
def CompilesWithin (v : Version) (legacy : Bool) (text : Array Char) (u : Assembler) (fuel : Nat) :
    Prop :=
  ∀ pos m stop found m', Fit u m →
    Gets (read (rules v legacy) text fuel expressionRef true true pos) m (stop, found) m' → Fit u m' ∧
      ∃ e code, Written v legacy text u m.store pos stop e m'.store ∧ e.PushedBy code ∧ found = .own ⟨[.code code], []⟩

theorem compiles_side (ih : ∀ k < fuel, CompilesWithin v legacy text u k) (hm : Fit u m)
    (h : Gets (scan v legacy text fuel (sideUnder v legacy name) true pos) m (stop, found) m') :
    Fit u m' ∧ ∃ inner, found = .own ⟨[inner.toToken], [(name, inner.toToken)]⟩ ∧
    Compiles v legacy text u m.store pos stop m'.store inner := by
  obtain ⟨fuel, rfl⟩ := fuel_of_gets h
  obtain ⟨_, m₁, hgroup, hfile⟩ := gets_named.1 h
  obtain ⟨fuel, rfl⟩ := fuel_of_gets hgroup
  obtain ⟨inner, m₂, hinner, rfl, rfl⟩ := gets_group.1 hgroup
  obtain ⟨fuel, rfl⟩ := fuel_of_gets hinner
  obtain ⟨m₃, hchoice, rfl⟩ := gets_first.1 hinner
  have hfound : found = .own ⟨[inner.toToken], [(name, inner.toToken)]⟩ ∧ m'.store = m₃.store ∧ m'.user = m₃.user := by
    cases inner <;> cases hfile <;> exact ⟨rfl, rfl, rfl⟩
  obtain ⟨hfound, hstore, huser⟩ := hfound
  suffices hside : Fit u m₃ ∧ Compiles v legacy text u m.store pos stop m₃.store inner by
    refine ⟨⟨huser.trans hside.1.1, ?_⟩, inner, hfound, hstore ▸ hside.2⟩
    rw [Defined, hstore, huser]
    exact hside.1.2
  obtain hoperand | ⟨m₄, hmiss, hchoice⟩ := gets_firstOf.1 hchoice
  · exact compiles_operand hm hoperand
  have hfit : Fit u m₄ :=
    Invariant.misses (invariant_plain inert_operand (by decide +kernel)) hm hmiss
  have hrefuses := refuses_of_misses hm.1 hfit.1 hmiss
  obtain hexpression | ⟨m₅, hmiss, hchoice⟩ := gets_firstOf.1 hchoice
  · obtain ⟨hfit', e, code, hwritten, he, rfl⟩ := ih fuel (by omega) pos m₄ stop _ m₃ hfit hexpression
    exact ⟨hfit', compiles_code (fun k => .nested hrefuses hwritten) he⟩
  obtain hcall | ⟨_, -, hnil⟩ := gets_firstOf.1 hchoice
  · -- an instruction starts with another bracket, so the expression was given up at once
    obtain ⟨fuel', rfl⟩ := fuel_of_gets hcall
    obtain ⟨a, _, ha, -⟩ := gets_seq_mark fresh_true hcall
    have hnone : markEnd? text "(" pos = none :=
      markEnd?_eq_none (s := "<") (ha ▸ rfl) (by decide)
    obtain rfl : m₅ = m₄ := Misses.unique hmiss (misses_expression hnone _ m₄)
    exact compiles_call hfit hrefuses hcall
  · exact absurd hnil not_gets_firstOf_nil

theorem exists_arithmetic {n : Nat} (h : Opcode.find Opcode.expression w = .ok n) :
    ∃ op : Arithmetic, w = op.symbol ∧ byteCode n = [op.byte] := by
  simp only [Opcode.find, Opcode.expression, Table.find?] at h
  split_ifs at h with hadd hsub hmul hdiv <;> cases h
  · exact ⟨.add, hadd.symm, rfl⟩
  · exact ⟨.sub, hsub.symm, rfl⟩
  · exact ⟨.mul, hmul.symm, rfl⟩
  · exact ⟨.div, hdiv.symm, rfl⟩

def operationCapture (left right : Found) (w : String) : Capture :=
  ((Capture.empty ++ ⟨[left.toToken], [("arg1", left.toToken)]⟩)
    ++ ⟨[.word w], [("operation", .word w)]⟩) ++ ⟨[right.toToken], [("arg2", right.toToken)]⟩

theorem gets_expressionAction {site : Site} {left right : Found} {reply : Reply}
    (hleft : ∀ side k', Gets (sideOf (left.seen m)) m side k' → k' = m)
    (hright : ∀ side k', Gets (sideOf (right.seen m)) m side k' → k' = m)
    (h : Gets (expressionAction site (operationCapture left right w)) m reply m') :
    m' = m ∧ ∃ op l r lcode rcode, w = Arithmetic.symbol op ∧ Gets (sideOf (left.seen m)) m l m ∧
    Gets (sideOf (right.seen m)) m r m ∧ l.push = .ok lcode ∧ r.push = .ok rcode ∧
    reply = .tokens [.code (lcode ++ rcode ++ [op.byte])] := by
  obtain ⟨n, hn, h₁⟩ := gets_lift_bind.1 h
  obtain ⟨op, hop, hbyte⟩ := exists_arithmetic hn
  obtain ⟨l, k, hl, h₂⟩ := gets_bind.1 (gets_capture_bind.1 h₁)
  obtain rfl := hleft l k hl
  obtain ⟨lcode, hlcode, h₃⟩ := gets_lift_bind.1 h₂
  obtain ⟨r, k', hr, h₄⟩ := gets_bind.1 (gets_capture_bind.1 h₃)
  obtain rfl := hright r k' hr
  obtain ⟨rcode, hrcode, h₅⟩ := gets_lift_bind.1 h₄
  obtain ⟨rfl, rfl⟩ := gets_pure.1 h₅
  exact ⟨rfl, op, l, r, lcode, rcode, hop, hl, hr, hlcode, hrcode, by rw [hbyte]⟩

theorem compilesWithin (v : Version) (legacy : Bool) (text : Array Char) (u : Assembler) (fuel : Nat) :
    CompilesWithin v legacy text u fuel := by
  induction fuel using Nat.strongRecOn with
  | ind fuel ih =>
    intro pos m stop found m' hm h
    rcases fuel with _ | _ | _ | _ | fuel
    iterate 4 exact absurd h nofun
    obtain ⟨inner, m₁, hinner, hperform⟩ := gets_bind_found.1 h
    obtain ⟨m₂, hseq, rfl⟩ := gets_bind_same.1 hinner
    obtain ⟨a, m₃, ha, hitems, rfl⟩ := gets_seq_mark fresh_skipBlanks hseq
    obtain ⟨b, _, _, hside, hitems₁⟩ := gets_items_own.1 hitems
    obtain ⟨hfit, left, rfl, hleft⟩ := compiles_side (fun k hk => ih k (by omega)) (show Fit u (m.reached a) from hm) hside
    obtain ⟨c, _, _, hchoice, hitems₂⟩ := gets_items_own.1 hitems₁
    obtain ⟨w, hw, rfl, rfl⟩ := gets_choice hchoice
    obtain ⟨d, _, k, hside', hitems₃⟩ := gets_items_own.1 hitems₂
    obtain ⟨hfit', right, rfl, hright⟩ := compiles_side (fun k hk => ih k (by omega)) hfit.reached hside'
    obtain ⟨e, he, hitems₄⟩ := gets_items_mark hitems₃
    obtain ⟨heq, rfl⟩ := gets_items_nil.1 hitems₄
    cases heq
    obtain ⟨reply, hreply, rfl⟩ := gets_perform.1 hperform
    have hend : Fit u (((k.reached stop).reached stop).reached stop) := hfit'.reached.reached.reached
    obtain ⟨rfl, op, l, r, lcode, rcode, rfl, hl, hr, hlcode, hrcode, rfl⟩ := gets_expressionAction
      (fun side k' hside => (hleft _ hend side k' hside).1)
      (fun side k' hside => (hright _ hend side k' hside).1) hreply
    obtain ⟨-, el, hwl, hpl⟩ := hleft _ hend l _ hl
    obtain ⟨-, er, hwr, hpr⟩ := hright _ hend r _ hr
    refine ⟨hend, .operation op el er, _, .operation (by simpa using ha) hwl hw hwr he,
      pushedBy_operation (hpl lcode hlcode) (hpr rcode hrcode), rfl⟩

end Reading

/-! ### The code of an expression -/

def shareText : Array Char := "((gold - Var[309]) * <VAR_RESULT = getRandomNr(2)>)".toList.toArray

def shareMachine : Machine Assembler where
  furthest := 0
  store := #[⟨[.word "124"], [("value", .word "124")]⟩]
  user := { Assembler.start .v5 ["gold"] ["VAR_RESULT"] with definitions := [("gold", 0)] }

theorem defined_share : Defined shareMachine := by
  intro name i h
  by_cases hname : "gold" = name
  · subst hname
    obtain rfl : 0 = i := Option.some.inj h
    exact ⟨.inr rfl, rfl⟩
  · simp [shareMachine, Table.find?, hname] at h

/-- Where reading ended and the code it found, if it found nothing else. -/
def codeRead? : Except Stop (Nat × Found) → Option (Nat × Code)
  | .ok (stop, .own ⟨[.code code], []⟩) => some (stop, code)
  | _ => none

theorem eq_of_codeRead? {r : Except Stop (Nat × Found)} {stop : Nat}
    (h : codeRead? r = some (stop, code)) : r = .ok (stop, .own ⟨[.code code], []⟩) := by
  unfold codeRead? at h
  split at h
  · cases h
    rfl
  · cases h

set_option maxRecDepth 10000 in
theorem codeRead?_share : codeRead? ((read (rules .v5 false) shareText 40 expressionRef true true 0).run.run shareMachine).1
    = some (51, [1, 124, 0, 129, 53, 1, 3, 6, 22, 0, 0, 2, 4]) := by decide +kernel

end ScummKit.Script
