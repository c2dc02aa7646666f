import ScummKit.Proofs.Script.References

/-!
# Tests

A test compiles to an operation byte, with a bit for each argument that is a variable, and the bytes of the
arguments in order. In front of each class of a list stands a byte of its own, and one closes the list. The
test whether an actor stands in a box has no code, whatever its arguments are (`condition_code`).
-/

namespace ScummKit.Script

open Build Grammar Statement
open Layout (wordOf word_eq_ok byte_eq_ok)

inductive Condition where
  | comparison (entry : String × Nat) (left : Variable) (right : Operand)
  | zero (negated : Bool) (v : Variable)
  | classes (object : Operand) (list : List Operand)
  | inBox (actor box : Operand)

/-- A variable that has a code, or a constant that fits its place. -/
def Operand.Fits (width : Width) : Operand → Prop
  | .variable v => v.InRange ∧ v.Encodable false
  | .constant n => if width = .byte then -128 ≤ n ∧ n ≤ 255 else -32768 ≤ n ∧ n ≤ 65535

def Operand.code (width : Width) : Operand → Code
  | .variable v => (v.words false).flatMap wordOf
  | .constant n => if width = .byte then [UInt8.ofNat (n % 256).toNat] else wordOf n

namespace Condition

def action : Condition → Action Assembler
  | comparison .. => comparisonAction
  | zero .. => zeroAction
  | classes .. => classAction
  | inBox .. => boxTestAction

def Fits : Condition → Prop
  | comparison _ left right => (Operand.variable left).Fits .word ∧ right.Fits .word
  | zero _ v => (Operand.variable v).Fits .word
  | classes object list => object.Fits .word ∧ ∀ o ∈ list, o.Fits .word
  | inBox actor box => actor.Fits .byte ∧ box.Fits .byte

/-- The code that a test should have. -/
def code : Condition → Code
  | comparison entry left right => byteCode (right.mark 0x80 entry.2) ++ (Operand.variable left).code .word ++ right.code .word
  | zero negated v => byteCode (if negated then 0x28 else 0xa8) ++ (Operand.variable v).code .word
  | classes object list => byteCode (object.mark 0x80 0x1d) ++ object.code .word ++
    ((list.map fun o => UInt8.ofNat (o.mark 0x80 0x01) :: o.code .word).flatten ++ [0xff])
  | inBox actor box => byteCode (box.mark 0x40 (actor.mark 0x80 0x1f)) ++ actor.code .byte ++ box.code .byte

/-- What was read is the test. -/
def Shown (m : Machine Assembler) (c : Capture) : Condition → Prop
  | comparison entry left right => entry ∈ Opcode.comparisons ∧ Build.textUnder c "comparator" = entry.1 ∧
    Gets (variableAt (c.find? "arg1")) m left m ∧ Gets (operand (c.find? "arg2")) m right m
  | zero negated v => c.has "!" = negated ∧ isVariable c = true ∧ Gets (variableOf offsetDepth c) m v m
  | classes object list => Build.textUnder c "function" = "classOfIs" ∧ Gets (operand (c.find? "testobject")) m object m ∧
    ∃ d, Gets (capture? (c.find? "classes")) m (some d) m ∧ Gets (d.tokens.mapM fun t => operand (some t)) m list m
  | inBox actor box => Build.textUnder c "function" = "isActorInBox" ∧
    Gets (operand (c.find? "actor")) m actor m ∧ Gets (operand (c.find? "box")) m box m

end Condition

section

variable {m : Machine Assembler} {o : Operand} {width : Width} {c : Capture}

theorem Operand.Fits.encode (h : o.Fits width) : o.encode width = .ok (o.code width) :=
  match o, h with
  | .variable v, h => (v.encode_eq_ok false _ h.1).2 ⟨h.2, rfl⟩
  | .constant n, h => by cases width <;> simpa [Operand.encode, Operand.code, Fits, word_eq_ok, byte_eq_ok] using h

theorem Operand.Fits.marked {t : Option Token} (h : o.Fits width) (ht : Gets (operand t) m o m) (op bit : Nat) :
    Gets (marked t op bit width) m (o.code width, o.mark bit op) m :=
  gets_bind.2 ⟨o, m, ht, gets_lift_bind.2 ⟨_, h.encode, gets_pure.2 ⟨rfl, rfl⟩⟩⟩

theorem gets_opcodeOf {name : String} {n : Nat} (hn : ∀ v, Opcode.code v .plain name = .ok n)
    (hc : Build.textUnder c "function" = name) : Gets (opcodeOf .plain c) m n m :=
  gets_bind.2 ⟨m.user, m, rfl, gets_lift.2 ⟨hc ▸ hn _, rfl⟩⟩

theorem gets_codes {ts : List Token} {list : List Operand} (h : Gets (ts.mapM fun t => operand (some t)) m list m)
    (hlist : ∀ o ∈ list, o.Fits .word) : Gets (ts.mapM fun t => do
      let (code, aux) ← marked (some t) 0x01 0x80 .word
      return UInt8.ofNat aux :: code) m (list.map fun o => UInt8.ofNat (o.mark 0x80 0x01) :: o.code .word) m := by
  induction ts generalizing list with
  | nil =>
    obtain ⟨rfl, -⟩ := gets_pure.1 h
    rfl
  | cons t ts ih =>
    rw [List.mapM_cons] at h ⊢
    obtain ⟨o, m₁, ho, h⟩ := gets_bind.1 h
    have hsilent : Silent (operand (some t)) := by grind [operand]
    obtain rfl := hsilent.eq ho
    obtain ⟨os, m₂, hos, h⟩ := gets_bind.1 h
    obtain ⟨rfl, rfl⟩ := gets_pure.1 h
    rw [List.forall_mem_cons] at hlist
    exact gets_bind.2 ⟨_, _, gets_bind.2 ⟨_, _, hlist.1.marked ho _ _, gets_pure.2 ⟨rfl, rfl⟩⟩,
      gets_bind.2 ⟨_, _, ih hos hlist.2, gets_pure.2 ⟨rfl, rfl⟩⟩⟩

/-- A test with arguments that fit compiles to the code that it should have, unless it is for a box: then
nothing is made of it. -/
theorem condition_code {q : Condition} (h : q.Shown m c) (hq : q.Fits) (site : Site) :
    match q with
    | .inBox .. => ∀ r m', ¬ Gets (q.action site c) m r m'
    | _ => Gets (q.action site c) m (.tokens [.code q.code]) m := by
  cases q with
  | comparison entry left right =>
    obtain ⟨hentry, hc, hleft, hright⟩ := h
    have hfind : ∀ e ∈ Opcode.comparisons, Table.find? e.1 Opcode.comparisons = some e.2 := by decide
    have hcode : Gets (variableCode (c.find? "arg1")) m ((Operand.variable left).code .word) m :=
      gets_bind.2 ⟨left, m, hleft, gets_lift.2 ⟨hq.1.encode, rfl⟩⟩
    refine gets_lift_bind.2 ⟨entry.2, by rw [hc, Opcode.find, hfind entry hentry], gets_bind.2 ⟨_, m, hcode, ?_⟩⟩
    exact gets_bind.2 ⟨_, m, hq.2.marked hright _ _, rfl⟩
  | zero negated v =>
    obtain ⟨rfl, hvar, hv⟩ := h
    change Gets (zeroAction site c) m _ m
    rw [zeroAction, if_pos hvar]
    exact gets_bind.2 ⟨v, m, hv, gets_lift_bind.2 ⟨_, (show (Operand.variable v).Fits .word from hq).encode, rfl⟩⟩
  | classes object list =>
    obtain ⟨hc, hobject, d, hd, hlist⟩ := h
    refine gets_bind.2 ⟨_, m, gets_opcodeOf (by intro v; cases v <;> rfl) hc, gets_bind.2 ⟨_, m, hq.1.marked hobject _ _, ?_⟩⟩
    exact gets_bind.2 ⟨_, m, gets_bind.2 ⟨_, m, hd, gets_bind.2 ⟨_, m, gets_codes hlist hq.2, rfl⟩⟩, rfl⟩
  | inBox actor box =>
    intro r m' hr
    obtain ⟨_, _, -, hr⟩ := gets_bind.1 hr
    obtain ⟨_, _, -, hr⟩ := gets_bind.1 hr
    exact not_gets_throw hr

end

/-- The test whether the object 5 is of the class that the variable 3 tells. -/
def classTest : Capture := ⟨[], [("function", .word "classOfIs"), ("testobject", .group [] [("value", .word "5")]),
  ("classes", .group [.group [] [("kind", .word "Var"), ("value", .word "3")]] [])]⟩

theorem condition_code_class :
    Gets (classAction ⟨#[], 0⟩ classTest) shareMachine (.tokens [.code [0x1d, 5, 0, 0x81, 3, 0, 0xff]]) shareMachine := by
  have hshown : (Condition.classes (.constant 5) [.variable (.at .global 3)]).Shown shareMachine classTest := by
    refine ⟨rfl, ?_, _, rfl, ?_⟩ <;> with_unfolding_all rfl
  refine condition_code hshown ?_ ⟨#[], 0⟩
  simp [Condition.Fits, Operand.Fits, Variable.InRange, Scope.Holds, Variable.Encodable]

end ScummKit.Script
