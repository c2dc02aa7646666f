import ScummKit.Proofs.Script.Outcomes
import ScummKit.Script.Statement

/-!
# Instructions leave the compilation alone

Most of the grammar of scripts describes single instructions. The actions there look at the state of
the compilation and never change it, and the action around a whole instruction replies with one piece
of code. What the rest of the proofs knows of instructions is these two facts.
-/

namespace ScummKit.Script

open List hiding all
open Grammar Build

variable {α β : Type}
variable (v : Version) (legacy : Bool) (t : Option Token) (name : String) (c : Capture)
variable (s : Signature) {x : Build α} (f : Fault) (words : List String) (params : List Param)
variable (family : Family) {site : Site} {m m' : Machine Assembler}

/-! ### Steps that change nothing -/

/-- A step that leaves the machine alone, however it ends. -/
def Silent (x : Build α) : Prop := ∀ m, (x.run.run m).2 = m

theorem Silent.eq {r : Except Stop α} (hx : Silent x) (h : x.run.run m = (r, m')) : m' = m :=
  (congrArg Prod.snd h).symm.trans (hx m)

@[grind ←] theorem silent_bind {f : α → Build β} (hx : Silent x) (hf : ∀ a, Silent (f a)) : Silent (x >>= f) := by
  intro m
  rw [ExceptT.run_bind, StateT.run_bind]
  have h := hx m
  rcases hr : x.run.run m with ⟨e | a, m'⟩
  all_goals rw [hr] at h
  · exact h
  · exact (hf a m').trans h

@[grind ←] theorem silent_pure (a : α) : Silent (pure a : Build α) := fun _ => rfl

@[grind ←] theorem silent_fail : Silent (fail f : Build α) := fun _ => rfl

@[grind ←] theorem silent_get : Silent (get : Build (Machine Assembler)) := fun _ => rfl

@[grind ←] theorem silent_state : Silent Build.state := fun _ => rfl

@[grind ←] theorem silent_lift (x : Except Fault α) : Silent (lift x) := by
  cases x
  · exact silent_fail _
  · exact silent_pure _

theorem silent_map (hx : Silent x) (f : α → β) : Silent (do return f (← x)) :=
  silent_bind hx fun _ => silent_pure _

@[grind ←] theorem silent_mapM {f : α → Build β} (hf : ∀ a, Silent (f a)) (xs : List α) : Silent (xs.mapM f) := by
  induction xs with
  | nil => exact silent_pure _
  | cons x xs ih =>
    rw [mapM_cons]
    exact silent_bind (hf x) fun _ => silent_bind ih fun _ => silent_pure _

attribute [local grind] joined variableAt operand Lexicon.textFunctionHead

@[grind ←] theorem silent_capture? : Silent (capture? t) := by unfold capture?; split <;> grind

@[grind ←] theorem silent_codeOf (t : Token) : Silent (codeOf t) := by cases t <;> grind [codeOf]

theorem silent_placed (c place : Capture) (o : Operand) : Silent (match Scope.ofText? (textUnder c "kind") with
      | some s => do return Variable.indexed s (← lift (wholeNumber (place.find? "base"))) o
      | none => fail .unset) := by
  split
  · exact silent_map (silent_lift _) _
  · exact silent_fail _

@[grind ←] theorem silent_variableOf (depth : Nat) : ∀ c, Silent (variableOf depth c) := by
  induction depth with
  | zero => exact fun c => silent_fail _
  | succ depth ih =>
    intro c
    rw [variableOf]
    split
    · exact silent_map (silent_lift _) _
    · refine silent_bind (silent_capture? _) fun place => ?_
      split
      · rename_i place
        refine silent_bind (silent_capture? _) fun offset => ?_
        dsimp only
        split
        · exact silent_bind (ih _) fun v => silent_bind (silent_pure _) (silent_placed c place)
        · exact silent_bind (silent_lift _) fun n => silent_bind (silent_pure _) (silent_placed c place)
      · split
        · exact silent_map (silent_lift _) _
        · exact silent_fail _

@[grind ←] theorem silent_variableCode : Silent (variableCode t) := by grind [variableCode]

@[grind ←] theorem silent_marked (op bit : Nat) (width : Width) : Silent (marked t op bit width) := by grind [marked]

@[grind ←] theorem silent_markedAll (fields : List (String × Nat × Width)) : ∀ op, Silent (markedAll c fields op) := by
  induction fields with
  | nil => exact fun op => silent_pure _
  | cons field fields ih =>
    intro op
    exact silent_bind (silent_marked _ _ _ _) fun r => silent_map (ih r.2) _

@[grind ←] theorem silent_operandList : Silent (operandList t) := by grind [operandList]

@[grind ←] theorem silent_closedText : Silent (closedText t) := by unfold closedText; split <;> grind

@[grind ←] theorem silent_opcode (name : String) : Silent (opcode family name) := by grind [opcode]

@[grind ←] theorem silent_opcodeOf (c : Capture) : Silent (opcodeOf family c) := by grind [opcodeOf]

@[grind ←] theorem silent_argument (i : Nat) (param : Param) (op : Nat) :
    Silent (argument c i param op) := by cases param <;> grind [argument]

@[grind ←] theorem silent_arguments : ∀ i op, Silent (arguments c i params op) := by
  induction params with
  | nil => exact fun i op => silent_pure _
  | cons param params ih =>
    intro i op
    exact silent_bind (silent_argument _ _ _ _) fun r => silent_map (ih _ r.2) _

@[grind ←] theorem silent_instruction (op : Nat) (stores : Bool) (params : List Param) (c : Capture) :
    Silent (instruction op stores params c) := by grind [instruction]

@[grind ←] theorem silent_listed (name : String) : Silent (listed c name) := by
  unfold listed
  split
  · exact silent_pure _
  · refine silent_bind (silent_capture? _) fun inner => ?_
    split
    · exact silent_map (silent_mapM silent_codeOf _) _
    · exact silent_map (silent_codeOf _) _

/-! ### Actions that reply with code -/

/-- A step that leaves the machine alone and replies with one piece of code, if it replies at all. -/
def Coding (x : Build Reply) : Prop := Silent x ∧ ∀ m r m', x.run.run m = (.ok r, m') → ∃ code, r = .tokens [.code code]

@[grind ←] theorem coding_emit (code : Code) : Coding (emit code) := by
  refine ⟨silent_pure _, fun m r m' h => ⟨code, ?_⟩⟩
  exact (Except.ok.inj (Prod.ext_iff.1 h).1).symm

@[grind ←] theorem coding_fail : Coding (fail f) := by
  refine ⟨silent_fail _, fun m r m' h => ?_⟩
  exact absurd (Prod.ext_iff.1 h).1 nofun

@[grind ←] theorem coding_bind {f : α → Build Reply} (hx : Silent x) (hf : ∀ a, Coding (f a)) : Coding (x >>= f) := by
  refine ⟨silent_bind hx fun a => (hf a).1, fun m r m' h => ?_⟩
  obtain ⟨a, m₁, -, h⟩ := gets_bind.1 h
  exact (hf a).2 m₁ r m' h

/-- A reply that names no capture of its own making: what was found, plain tokens, or what a defined
name stands for. -/
def Modest (a : Assembler) : Reply → Prop
  | .keep => True
  | .tokens _ => True
  | .capture _ => False
  | .shared i => ∃ name, Table.find? name a.definitions = some i

/-- A step that leaves the machine alone and whose reply is modest, if it replies at all. -/
def Replies (x : Build Reply) : Prop := Silent x ∧ ∀ m r m', x.run.run m = (.ok r, m') → Modest m.user r

theorem Coding.replies {x : Build Reply} (hx : Coding x) : Replies x := by
  refine ⟨hx.1, fun m r m' h => ?_⟩
  obtain ⟨code, rfl⟩ := hx.2 m r m' h
  trivial

theorem replies_pure {r : Reply} (h : ∀ a, Modest a r) : Replies (pure r) := by
  refine ⟨silent_pure _, fun m r' m' h' => ?_⟩
  cases h'
  exact h m.user

theorem replies_fail : Replies (fail f) := (coding_fail f).replies

theorem replies_bind {f : α → Build Reply} (hx : Silent x) (hf : ∀ a, Replies (f a)) : Replies (x >>= f) := by
  refine ⟨silent_bind hx fun a => (hf a).1, fun m r m' h => ?_⟩
  obtain ⟨a, m₁, hrun, hrest⟩ := gets_bind.1 h
  obtain rfl := hx.eq hrun
  exact (hf a).2 m₁ r m' hrest

/-- An action that leaves the machine alone and replies modestly. -/
def Quiet (f : Action Assembler) : Prop := ∀ site c, Replies (f site c)

/-- An action that leaves the machine alone and replies with one piece of code. -/
def Emits (f : Action Assembler) : Prop := ∀ site c, Coding (f site c)

@[simp] theorem Emits.quiet {f : Action Assembler} (hf : Emits f) : Quiet f := fun site c => (hf site c).replies

open Lexicon Special Statement

@[grind ←] theorem silent_printClosing (parts : Option (List Code)) : Silent (printClosing parts) := by
  unfold printClosing
  grind

@[simp] theorem emits_within : Emits (within name) := fun _ _ => by grind [within]

@[simp] theorem emits_signature : Emits s.action := fun _ _ => by grind [Signature.action]

/-- The actions that only look at what was found. -/
@[simp] theorem emits_actions : Emits partsAction ∧ Emits printAction ∧ Emits printEgoAction ∧ Emits boxFlagsThird ∧
    Emits variableRangeAction ∧ Emits stringRangeAction ∧ Emits openAction ∧ Emits finishAction ∧ Emits delayAction ∧
    Emits sentenceAction ∧ Emits boxAction ∧ Emits drawFifthAction ∧ Emits roomWithEgoAction ∧ Emits roomEffectAction ∧
    Emits overrideAction ∧ Emits verbRangeAction ∧ Emits stopAction ∧ Emits systemAction ∧ Emits roomThirdAction ∧
    Emits roomFourthAction ∧ Emits stringFileAction := by
  and_intros
  all_goals
    intro _ _
    grind [partsAction, printAction, printEgoAction, boxFlagsThird, variableRangeAction, stringRangeAction, openAction,
      finishAction, delayAction, sentenceAction, boxAction, drawFifthAction, roomWithEgoAction, roomEffectAction,
      overrideAction, verbRangeAction, stopAction, systemAction, roomThirdAction, roomFourthAction, stringFileAction]

theorem quiet_alone : Quiet (aloneAction s) := fun _ _ =>
  replies_bind (silent_opcodeOf _ _) fun _ => replies_bind (silent_instruction _ _ _ _) fun _ =>
    replies_pure fun _ => trivial

@[simp] theorem emits_unsupported : Emits (Special.unsupported name) := fun _ _ =>
  coding_fail _

@[simp] theorem emits_wait : Emits waitAction := by
  intro site c
  unfold waitAction
  split
  · split
    · exact coding_bind (silent_codeOf _) fun _ => coding_emit _
    · exact coding_fail _
  · exact emits_within _ site c

@[simp] theorem emits_saveLoad : Emits saveLoadAction := fun _ _ => by unfold saveLoadAction; grind

@[simp] theorem emits_pseudoRoom : Emits pseudoRoomAction := by
  intro _ c
  refine coding_bind (silent_opcodeOf _ _) fun op => coding_bind (silent_lift _) fun room => ?_
  refine coding_bind (silent_capture? _) fun items => coding_bind (silent_mapM ?_ _) fun _ =>
    coding_emit _
  intro t
  split
  · exact silent_bind (silent_pure _) fun _ => silent_lift _
  · exact silent_bind (silent_lift _) fun _ => silent_lift _

@[simp] theorem emits_varRange : Emits varRangeAction := by
  intro _ c
  refine coding_bind (silent_opcodeOf _ _) fun op => coding_bind (silent_variableCode _) fun start => ?_
  split
  · grind
  · grind

@[simp] theorem emits_runs (first : List (String × Nat × Width))
    (rest : List (Nat × List (String × Nat × Width))) : Emits (runsAction first rest) := fun _ _ => by
  unfold runsAction
  grind

/-! ### Words and texts -/

theorem run_state_bind (f : Assembler → Build α) (m : Machine Assembler) :
    (Build.state >>= f).run.run m = (f m.user).run.run m := rfl

theorem defined_eq_ok {c : Capture} {r : Reply} (h : (definedAction site c).run.run m = (.ok r, m')) :
    ∃ name i, Table.find? name m.user.definitions = some i ∧ r = .shared i := by
  unfold definedAction at h
  split at h
  · rename_i t _ _
    rcases hi : Table.find? ((plainText t).getD "") m.user.definitions with _ | i
    all_goals
      rw [run_state_bind, hi] at h
      cases h
    exact ⟨_, i, hi, rfl⟩
  · cases h

theorem quiet_defined : Quiet definedAction := by
  refine fun _ c => ⟨?_, fun m r m' h => ?_⟩
  · unfold definedAction
    split
    · refine silent_bind silent_state fun a => ?_
      split
      · exact silent_pure _
      · exact silent_fail _
    · exact silent_fail _
  · obtain ⟨name, i, hi, rfl⟩ := defined_eq_ok h
    exact ⟨name, hi⟩

@[simp] theorem emits_quoted : Emits (quotedAction legacy) := fun _ _ => by grind [quotedAction]

theorem quiet_inner : Quiet innerAction := by
  intro _ c
  unfold innerAction
  split
  · exact replies_pure fun _ => trivial
  · exact replies_fail _

/-! ### Assignments, expressions and tests -/

@[grind ←] theorem silent_firstToken : Silent (firstToken c) := by grind [firstToken]

@[grind ←] theorem silent_sideOf : Silent (sideOf c) := by grind [sideOf]

@[simp] theorem emits_expression : Emits expressionAction := fun _ _ => by unfold expressionAction; grind

@[simp] theorem emits_statements : Emits textPlain ∧ Emits textOfVariable ∧ Emits textOfWord ∧ Emits textSound ∧
    Emits joinAction ∧ Emits inlineAction ∧ Emits countAction ∧ Emits assignAction ∧ Emits comparisonAction ∧
    Emits zeroAction ∧ Emits classAction ∧ Emits boxTestAction ∧ Emits stateAction := by
  and_intros
  all_goals
    intro _ _
    grind [textPlain, textOfVariable, textOfWord, textSound, joinAction, inlineAction, countAction, assignAction,
      comparisonAction, zeroAction, classAction, boxTestAction, stateAction]

/-! ### Patterns without effect -/

/-- A pattern in which all actions are quiet and that does not lead back to blocks. -/
@[reducible] def Inert (p : Syn) : Prop := p.Within Quiet (· ≠ .block)

attribute [simp] Pattern.Within Pattern.withinAll_iff variableRef constant int defined quiet_defined Lexicon.operand delimited
  Lexicon.operandList Lexicon.textUnder quiet_inner field written oneWord fields choice

attribute [local simp] or_imp forall_and

@[simp] theorem inert_mark (s : String) : Inert (mark s) := trivial

@[simp] theorem inert_ite {b : Prop} [Decidable b] {p q : Syn} :
    Inert (if b then p else q) ↔ if b then Inert p else Inert q := by split <;> rfl

theorem inert_operand : Inert Lexicon.operand := by simp

theorem inert_variableRule : Inert variableRule := by
  simp [variableRule, inScope, indexPointer, unsigned, known]

@[simp] theorem inert_text : Inert (text legacy) := by
  simp [text, textWith, textFunctions, textCall, hexNumber]

@[simp] theorem inert_argument (param : Param) :
    Inert (Lexicon.argument (Lexicon.textUnder legacy) name param) := by cases param <;> simp [Lexicon.argument]

theorem inert_arguments : ∀ i, ∀ q ∈ Lexicon.arguments (Lexicon.textUnder legacy) i params, Inert q := by
  induction params with
  | nil =>
    simp [Lexicon.arguments]
  | cons param params ih =>
    intro i
    cases i <;> simpa [Lexicon.arguments] using ih _

@[simp] theorem inert_call : Inert (call (Lexicon.textUnder legacy) s) := by
  have htarget : ∀ q ∈ (if s.stores then target else []), Inert q := by
    split <;> simp [target]
  have hargs := inert_arguments legacy s.params 0
  simp only [call, Pattern.Within, Pattern.withinAll_iff, forall_mem_append]
  exact ⟨⟨⟨htarget, by simp⟩, hargs⟩, by simp⟩

@[simp] theorem inert_commas {items : List Syn} : (∀ q ∈ commas items, Inert q) ↔ ∀ q ∈ items, Inert q := by
  fun_induction commas items with
  | case1 => rfl
  | case2 p => rfl
  | case3 p rest _ ih => simp only [forall_mem_cons, inert_mark, true_and, ih]

/-! ### Patterns that give one piece of code -/

/-- A pattern that gives one piece of code and has no effect. -/
inductive Emitter : Syn → Prop
  | act {f : Action Assembler} {q : Syn} : Emits f → Inert q → Emitter (.act f q)
  | first {qs : List Syn} : (∀ q ∈ qs, Emitter q) → Emitter (.first qs)
  | longest {qs : List Syn} : (∀ q ∈ qs, Emitter q) → Emitter (.longest qs)

theorem Emitter.inert {p : Syn} (h : Emitter p) : Inert p := by
  induction h with
  | act hf hq => exact ⟨hf.quiet, hq⟩
  | first _ ih => exact Pattern.withinAll_iff.2 ih
  | longest _ ih => exact Pattern.withinAll_iff.2 ih

@[simp] theorem emitter_act {f : Action Assembler} {q : Syn} : Emitter (.act f q) ↔ Emits f ∧ Inert q :=
  ⟨fun | .act hf hq => ⟨hf, hq⟩, fun h => .act h.1 h.2⟩

@[simp] theorem emitter_first {qs : List Syn} : Emitter (.first qs) ↔ ∀ q ∈ qs, Emitter q := ⟨fun | .first h => h, .first⟩

@[simp] theorem emitter_signed : Emitter (signed legacy s) := by simp [signed]

@[simp] theorem inert_signed : Inert (signed legacy s) := (emitter_signed legacy s).inert

theorem emitter_wait : Emitter (wait v legacy) := by
  have hpart : ∀ s, Inert (waitPart v legacy s) := by
    intro s
    unfold waitPart
    split <;> simp [quiet_alone]
  simp [wait, hpart]

theorem emitter_saveLoadVars : Emitter (saveLoadVars v legacy) := by
  simp [saveLoadVars]

theorem inert_roomLate : ∀ q ∈ roomLate legacy, Inert q := by
  have heither := fun params => inert_arguments legacy params 0
  simpa [roomLate] using ⟨heither _, heither _⟩

theorem emitter_room : Emitter (room v legacy) := by
  have hparts : ∀ q ∈ (if Catalog.isFifth v then roomLate legacy else roomEarly legacy),
      Inert q := by
    split
    · exact inert_roomLate legacy
    · simp [roomEarly]
  refine .act ?_ (by simpa using hparts)
  cases v <;> simp

theorem emitter_drawObject : Emitter (drawObject v legacy) := by
  unfold drawObject
  split <;> simp

theorem emitter_stopObjectCode : Emitter stopObjectCode := by simp [stopObjectCode]

theorem emitter_all : ∀ q ∈ all v legacy, Emitter q := by
  simp [all, printEgo, bracketed, unsigned, emitter_drawObject, emitter_room, emitter_stopObjectCode]

@[simp] theorem emitter_common : Emitter (common v legacy s) := by
  unfold common
  split <;> simp

theorem emitter_functions : ∀ q ∈ functions v legacy, Emitter q := by
  have hboxes : Emitter (boxes v legacy) := by
    unfold boxes
    split <;> simp
  simp only [functions]
  simp [hboxes, emitter_wait, emitter_saveLoadVars, actor, cursor, print, resource, strings, verb,
    bracketed]

theorem emitter_inlineOperation : Emitter inlineOperation := by simp [Statement.inlineOperation]

theorem emitter_count : Emitter count := by simp [Statement.count]

theorem inert_expressionCall : Inert (expressionCall v legacy) := by
  have hall : ∀ q ∈ all v legacy, Inert q := fun q hq => (emitter_all v legacy q hq).inert
  have hfunctions : ∀ q ∈ functions v legacy, Inert q :=
    fun q hq => (emitter_functions v legacy q hq).inert
  simpa [expressionCall] using ⟨hall, hfunctions⟩

theorem inert_expressionRule : Inert (expressionRule v legacy) := by
  simp [expressionRule, expressionRef, inert_expressionCall]

theorem emitter_expressionMode : Emitter (expressionMode v legacy) := by
  simp [expressionMode, expressionRef, inert_expressionCall]

theorem emitter_test : Emitter (test v legacy) := by
  refine .longest (forall_mem_append.2 ⟨by simp, ?_⟩)
  cases v <;> simp [stateTest]

/-! ### Reading instructions -/

section Reading

variable {v : Version} {legacy : Bool} {text : Array Char} {p : Syn} {fuel pos : Nat}
variable {acting skip : Bool} {u : Assembler}

theorem inert_rules (r : Rule) (hr : r ≠ .block) : Inert (rules v legacy r) := by
  cases r
  · exact inert_variableRule
  · exact absurd rfl hr
  · exact inert_expressionRule v legacy

/-- Instructions leave the compilation alone. -/
theorem frame_same (u : Assembler) : Frame (fun m => m.user = u) (fun _ => True) (fun _ : String ⊕ Rule => True) Quiet where
  reach _ hm := hm
  nothing := trivial
  empty := trivial
  single _ := trivial
  extend := by
    intro a b _ _ m hm
    cases a <;> cases b <;> exact ⟨hm, fun _ _ => trivial⟩
  file := by
    intro name whole a _ _
    refine invariant_file (C := fun _ => True) trivial (fun m hm => ?_) (fun _ _ _ => trivial)
      fun _ _ _ m hm => ⟨hm, fun _ _ => trivial⟩
    rw [run_view]
    exact ⟨hm, fun _ _ => trivial⟩
  perform := by
    intro f site a hf _ m hm
    have hkeep := congrArg Machine.user ((hf site (a.seen m)).1 m)
    rw [run_perform]
    rcases hr : (f site (a.seen m)).run.run m with ⟨(_ | e) | reply, m'⟩
    all_goals rw [hr] at hkeep
    · exact ⟨hkeep.trans hm, nofun⟩
    · cases e <;> exact ⟨hkeep.trans hm, nofun⟩
    · cases reply <;> exact ⟨hkeep.trans hm, fun _ _ => trivial⟩

theorem triple_inert (hp : Inert p) : Triple (· = u) (read (rules v legacy) text fuel p acting skip pos)
    (fun r s => pos ≤ r.1 ∧ s = u) (· = u) := by
  have hrules : ∀ r : Rule, r ≠ .block → True → Inert (rules v legacy r) ∧ ∀ l ∈ (rules v legacy r).mentions, True :=
    fun r hr _ => ⟨inert_rules r hr, fun _ _ => trivial⟩
  have hread := (frame_same u).read text hrules fuel p acting skip pos hp fun _ _ => trivial
  exact triple_post hread.triple fun _ _ h => ⟨h.1.1, h.2⟩

/-- A pattern reads one piece of code between two places, in some state of a compilation. -/
def Yields (v : Version) (legacy : Bool) (text : Array Char) (p : Syn) (pos stop : Nat) (code : Code) : Prop :=
  ∃ fuel skip m m', (read (rules v legacy) text fuel p true skip pos).run.run m = (.ok (stop, .own ⟨[.code code], []⟩), m')

/-- Reading a script, with its actions. -/
abbrev scan (v : Version) (legacy : Bool) (text : Array Char) (fuel : Nat) (p : Syn) (skip : Bool) (pos : Nat) :=
  read (rules v legacy) text fuel p true skip pos

def IsCode (found : Found) : Prop := ∃ code, found = .own ⟨[.code code], []⟩

theorem triple_perform_emits {f : Action Assembler} (hf : Emits f) {found : Found} :
    Triple (· = u) (perform f site found) (fun found s => IsCode found ∧ s = u) (· = u) := by
  refine triple_perform (fun m r m' hm hr => ?_) fun m e m' hm hr => (hf site _).1.eq hr ▸ hm
  obtain ⟨code, rfl⟩ := (hf site _).2 m r m' hr
  exact ⟨⟨code, rfl⟩, (hf site _).1.eq hr ▸ hm⟩

theorem triple_isCode (hp : Emitter p) : ∀ fuel skip pos, Triple (· = u) (scan v legacy text fuel p skip pos)
    (fun r s => pos ≤ r.1 ∧ IsCode r.2 ∧ s = u) (· = u) := by
  induction hp with
  | @act f q hf hq =>
    rintro (_ | fuel) skip pos
    · exact triple_empty fun _ => id
    refine triple_act (triple_inert hq) fun stop found => triple_given fun hstop => ?_
    exact triple_post (triple_perform_emits hf) fun found s hs => ⟨hstop, hs⟩
  | first hqs ih =>
    rintro (_ | fuel) skip pos
    · exact triple_empty fun _ => id
    exact triple_first (triple_firstOf (fun q hq => ih q hq fuel true pos) fun _ => id)
  | longest hqs ih =>
    rintro (_ | fuel) skip pos
    · exact triple_empty fun _ => id
    refine triple_longest (M := fun _ => True) (N := fun _ => True) (fun q hq => ?_)
      (fun q hq _ => ih q hq fuel true pos) fun _ _ => id
    exact triple_conseq (triple_inert (hqs q hq).inert) (fun r s hs => ⟨trivial, hs.2⟩) fun s hs => ⟨trivial, hs⟩

theorem triple_emitter (hp : Emitter p) : Triple (· = u) (scan v legacy text fuel p skip pos)
    (fun r s => pos ≤ r.1 ∧ (∃ code, r.2 = .own ⟨[.code code], []⟩ ∧ Yields v legacy text p pos r.1 code) ∧ s = u) (· = u) := by
  refine triple_post (triple_run (triple_isCode hp fuel skip pos)) ?_
  rintro ⟨stop, found⟩ s ⟨⟨m, m', hrun⟩, hstop, ⟨code, rfl⟩, hs⟩
  exact ⟨hstop, ⟨code, rfl, fuel, skip, m, m', hrun⟩, hs⟩

end Reading

end ScummKit.Script
