import ScummKit.Proofs.Script.Expressions

/-!
# Assignments of bare operands

The right-hand side of an assignment may be an operation, an instruction or a bare operand. A bare
operand is never pushed. A constant is emitted as the characters it is written with, and a variable ends
the compilation, because it is looked for under a name that assignments do not have.
-/

namespace ScummKit.Script

open Grammar Build Lexicon Special Statement

section Reading

variable {v : Version} {legacy skip : Bool} {text : Array Char} {fuel pos stop : Nat} {s : String}
variable {m m' : Machine Assembler} {found inner : Found} {items : List Syn} {c : Capture}

theorem gets_of_markEnd (hfresh : Fresh text skip pos) (h : markEnd? text s pos = some stop) :
    Gets (scan v legacy text (fuel + 2) (mark s) skip pos) m (stop, .nothing) (m.reached stop) := by
  refine gets_drop.2 ⟨.own (.single (.word s)), m.reached stop, (gets_atom rfl).2 ⟨?_, rfl⟩, rfl, ?_⟩
  · rw [hfresh.seat rfl, fresh_skipBlanks.seat rfl, skipBlanks_skipBlanks, readAtom_literal, h]
    rfl
  · simp [Machine.reached]

theorem gets_items_of_markEnd (h : markEnd? text s pos = some stop) {r : Nat × Found}
    (hitems : Gets (readItems (rules v legacy) text (fuel + 2) true items (stop, .own c)) (m.reached stop) r m') :
    Gets (readItems (rules v legacy) text (fuel + 2) true (mark s :: items) (pos, .own c)) m r m' :=
  gets_items_cons.2 ⟨stop, .nothing, _, .own c, _, gets_of_markEnd fresh_true h,
    gets_extend_own.2 ⟨by simp [Found.seen], rfl⟩, hitems⟩

def filedCapture (name : String) (found : Found) : Capture := ⟨[found.toToken], [(name, found.toToken)]⟩

theorem gets_named_of_group {name : String} {q : Syn} (h : Gets (scan v legacy text fuel (.group q) skip pos) m
    (stop, .own (.single inner.toToken)) m') : Gets (scan v legacy text (fuel + 1) (.named name (.group q)) skip pos) m
    (stop, .own (filedCapture name inner)) m' := by
  refine gets_named.2 ⟨_, m', h, ?_⟩
  cases inner <;> rfl

theorem misses_call (hnone : markEnd? text "<" pos = none) (fuel : Nat) (m : Machine Assembler) :
    Misses (scan v legacy text fuel (expressionCall v legacy) true pos) m m := by
  rcases fuel with _ | fuel
  · rfl
  · exact misses_bind_left (misses_mark (by simpa using hnone) fresh_skipBlanks _ m)

theorem gets_bare (hround : markEnd? text "(" pos = none) (hangle : markEnd? text "<" pos = none)
    (h : Gets (scan v legacy text fuel Lexicon.operand true pos) m (stop, inner) m') : Gets (scan v legacy text (fuel + 2)
    (.group (.first [expressionRef, expressionCall v legacy, Lexicon.operand])) true pos) m
    (stop, .own (.single inner.toToken)) ((m'.reached stop).reached stop) := by
  refine gets_group.2 ⟨inner, m'.reached stop, gets_first.2 ⟨m', ?_, rfl⟩, rfl, rfl⟩
  exact gets_firstOf.2 (.inr ⟨m, misses_expression hround fuel m,
    gets_firstOf.2 (.inr ⟨m, misses_call hangle fuel m, gets_firstOf.2 (.inl h)⟩)⟩)

theorem run_act {f : Action Assembler} {q : Syn} (h : Gets (scan v legacy text fuel q skip pos) m (stop, inner) m') :
    (scan v legacy text (fuel + 1) (.act f q) skip pos).run.run m
    = (((perform f ⟨text, pos⟩ inner).run.run m').1.map (stop, ·), ((perform f ⟨text, pos⟩ inner).run.run m').2) := by
  change (scan v legacy text fuel q skip pos >>= fun r => do
    return (r.1, ← perform f ⟨text, pos⟩ r.2)).run.run m = _
  rw [ExceptT.run_bind, StateT.run_bind, h]
  change (perform f ⟨text, pos⟩ inner >>= fun out => pure (stop, out)).run.run m' = _
  rw [ExceptT.run_bind, StateT.run_bind]
  rcases (perform f ⟨text, pos⟩ inner).run.run m' with ⟨_ | _, _⟩ <;> rfl

end Reading

/-! ### Compiling assignments -/

section Compiling

variable {v : Version} {legacy : Bool} {text : Array Char} {fuel pos a b c stop : Nat}
variable {m m₁ m₂ k : Machine Assembler} {target source : Found} {place : Code} {site : Site}

def assignmentCapture (target source : Found) : Capture :=
  (Capture.empty ++ filedCapture "target" target) ++ filedCapture "subexp" source

theorem run_bind_of_gets {α β : Type} {x : Build α} {f : α → Build β} {r : α} (h : Gets x m r m₁) :
    (x >>= f).run.run m = (f r).run.run m₁ := by
  rw [ExceptT.run_bind, StateT.run_bind, h]
  rfl

theorem run_assignAction (hplace : Gets (variableCode (some target.toToken)) k place k)
    (hcall : (source.seen k).has "expop" = false) :
    (assignAction site (assignmentCapture target source)).run.run k = (do
      let code ← if isVariable (source.seen k) then fail .absent
        else codeOf (← firstToken (source.seen k))
      emit (byteCode Opcode.expressionStart ++ place ++ code ++ byteCode Opcode.expressionEnd) : Build Reply).run.run k := by
  have hsource : Gets (capture? ((assignmentCapture target source).find? "subexp")) k
      (some (source.seen k)) k := gets_capture.2 ⟨rfl, rfl⟩
  rw [assignAction, run_bind_of_gets (show Gets (variableCode
    ((assignmentCapture target source).find? "target")) k place k from hplace), run_bind_of_gets hsource]
  simp only [Option.getD_some, hcall]
  rfl

/-- An assignment of a bare operand to a variable. A variable on the right ends the compilation. A
constant there is emitted as the characters it is written with, between the code of the variable on the
left and the mark of the end: nothing says that a constant follows, and its value is not there. -/
theorem read_bareAssignment (hm : Defined m) (hstart : markEnd? text "Exprmode" pos = some a)
    (htarget : Gets (read (rules v legacy) text (fuel + 2) (.group variableRef) true true a)
    (m.reached a) (b, .own (.single target.toToken)) m₁) (hequals : markEnd? text "=" b = some c)
    (hround : markEnd? text "(" c = none) (hangle : markEnd? text "<" c = none)
    (hsource : Gets (read (rules v legacy) text fuel Lexicon.operand true true c) (m₁.reached c) (stop, source) m₂)
    (hplace : Gets (variableCode (some target.toToken)) (m₂.reached stop) place (m₂.reached stop)) :
    (isVariable (source.seen m₂) = true →
    (read (rules v legacy) text (fuel + 5) (expressionMode v legacy) true true pos).run.run m
    = (.error (.fault .absent), m₂.reached stop)) ∧
    ∀ s ts, isVariable (source.seen m₂) = false → (source.seen m₂).tokens = .word s :: ts →
    (read (rules v legacy) text (fuel + 5) (expressionMode v legacy) true true pos).run.run m
    = (.ok (stop, .own ⟨[.code (0xac :: (place ++ Escape.bytes s ++ [0xff]))], []⟩), m₂.reached stop) := by
  have hseen : source.seen (m₂.reached stop) = source.seen m₂ := by cases source <;> rfl
  have hreached : ((m₂.reached stop).reached stop).reached stop = m₂.reached stop := by
    simp [Machine.reached]
  -- neither reading changes what names stand for, so what was found is no instruction
  have hfit₁ : Fit m.user m₁ := (Invariant.gets (invariant_plain (by simp) (by decide +kernel))
    (show Fit m.user (m.reached a) from ⟨rfl, hm⟩) htarget).1
  obtain ⟨hfit₂, htame⟩ := Invariant.gets (invariant_plain inert_operand (by decide +kernel))
    (show Fit m.user (m₁.reached c) from hfit₁) hsource
  have hcall : (source.seen (m₂.reached stop)).has "expop" = false := hseen ▸ htame.seen hfit₂
  have hitems : Gets (read (rules v legacy) text (fuel + 4) (.seq [mark "Exprmode",
      .named "target" (.group variableRef), mark "=", .named "subexp" (.group
        (.first [expressionRef, expressionCall v legacy, Lexicon.operand]))]) true true pos) m
      (stop, .own (assignmentCapture target source)) (m₂.reached stop) := by
    refine gets_seq.2 ⟨a, .nothing, m.reached a, _, ?_, ?_, hreached.symm⟩
    · exact @gets_of_markEnd _ _ _ _ (fuel + 1) _ _ _ _ fresh_skipBlanks (by simpa using hstart)
    refine gets_items_own.2 ⟨b, _, m₁, gets_named_of_group htarget, ?_⟩
    refine @gets_items_of_markEnd _ _ _ (fuel + 1) _ _ _ _ _ _ _ hequals _ ?_
    refine gets_items_own.2 ⟨stop, _, _, gets_named_of_group (gets_bare hround hangle hsource),
      gets_items_nil.2 ⟨rfl, rfl⟩⟩
  have haction := @run_assignAction _ _ _ _ ⟨text, pos⟩ hplace hcall
  rw [hseen] at haction
  refine ⟨fun hvariable => ?_, fun s ts hconstant htokens => ?_⟩
  · rw [if_pos hvariable] at haction
    rw [expressionMode, run_act hitems, run_perform, Found.seen, haction]
    rfl
  · simp only [hconstant, Bool.false_eq_true, if_false, firstToken, htokens] at haction
    rw [expressionMode, run_act hitems, run_perform, Found.seen, haction]
    rfl

end Compiling

def bareText (source : String) : Array Char := ("Exprmode Var[1] = " ++ source).toList.toArray

def firstVariable : Capture := ⟨[.word "Var", .word "1"], [("kind", .word "Var"), ("value", .word "1")]⟩

set_option maxRecDepth 10000 in
theorem read_bareAssignment_gold : Defined shareMachine ∧
    (read (rules .v5 false) (bareText "gold") 25 (expressionMode .v5 false) true true 0).run.run shareMachine
    = (.ok (22, .own ⟨[.code [0xac, 1, 0, 0x31, 0x32, 0x34, 0xff]], []⟩), shareMachine.reached 22) ∧
    (read (rules .v5 false) (bareText "Var[2]") 25 (expressionMode .v5 false) true true 0).run.run shareMachine
    = (.error (.fault .absent), shareMachine.reached 24) := by
  refine ⟨defined_share, ?_, ?_⟩
  · refine (@read_bareAssignment _ _ _ 20 _ 8 15 17 22 _ (shareMachine.reached 15)
      (shareMachine.reached 22) (.own firstVariable) (.stored 0) [1, 0] defined_share ?_ ?_ ?_ ?_ ?_ ?_ ?_).2 "124" [] rfl rfl
    all_goals with_unfolding_all rfl
  · refine (@read_bareAssignment _ _ _ 20 _ 8 15 17 24 _ (shareMachine.reached 15) (shareMachine.reached 24) (.own firstVariable)
      (.own ⟨[.word "Var", .word "2"], [("kind", .word "Var"), ("value", .word "2")]⟩)
      [1, 0] defined_share ?_ ?_ ?_ ?_ ?_ ?_ ?_).1 rfl
    all_goals with_unfolding_all rfl

end ScummKit.Script
