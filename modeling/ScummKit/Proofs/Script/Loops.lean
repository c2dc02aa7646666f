import ScummKit.Proofs.Script.Jumps

/-!
# Loops in compiled scripts

A test is compiled to an instruction that goes on with the next one when the test holds and takes its
jump when it fails. In a script that compiles, this settles what becomes of each loop in it, however
deep it is nested: the jump of the test at the head of a loop goes to the jump that closes the loop and
not behind it, so a failed test leads back to itself (`compile_whileLoop`), and a loop with its test at
the end goes round while the test fails and is left when it holds (`compile_doLoop`).
-/

namespace ScummKit.Script

open Grammar Layout Statement List
open Build (byteCode)

variable {i n : Nat} {lines : List Code} {o : Outline}

/-! ### Parts of outlines -/

mutual

/-- The parts of an outline, itself among them, each with the number of its first line. -/
def Outline.parts : Outline → Nat → List (Nat × Outline)
  | .seq a b, n => (n, .seq a b) :: a.parts n ++ b.parts (n + a.count)
  | .cond test body others, n =>
    (n, .cond test body others) :: body.parts (n + 1) ++ others.parts (n + 1 + body.count)
  | .forLoop first test step body, n =>
    (n, .forLoop first test step body) :: body.parts (n + first.toList.length + 1)
  | .whileLoop test body, n => (n, .whileLoop test body) :: body.parts (n + 1)
  | .doLoop body test, n => (n, .doLoop body test) :: body.parts n
  | o, n => [(n, o)]

def Branches.parts : Branches → Nat → List (Nat × Outline)
  | .done _, _ => []
  | .otherwise _ body rest, n => body.parts (n + 1) ++ rest.parts (n + 1 + body.count)
  | .otherwiseIf _ _ body rest, n => body.parts (n + 2) ++ rest.parts (n + 2 + body.count)

end

section Parts

variable {p : Outline} {ms : List Code}

/-- The lines of a part stand in these lines, of which the first has the number `n`. -/
def Stands (p : Outline) (i n : Nat) (lines : List Code) : Prop :=
  ∃ before after, lines = before ++ p.lines ++ after ∧ i = n + before.length

theorem stands_self : Stands p n n p.lines := ⟨[], [], by simp, rfl⟩

theorem Stands.append (h : Stands p i n lines) (ms : List Code) : Stands p i n (lines ++ ms) := by
  obtain ⟨before, after, rfl, rfl⟩ := h
  exact ⟨before, after ++ ms, append_assoc _ after ms, rfl⟩

theorem Stands.behind (h : Stands p i (n + ms.length) lines) : Stands p i n (ms ++ lines) := by
  obtain ⟨before, after, rfl, rfl⟩ := h
  refine ⟨ms ++ before, after, ?_, ?_⟩
  · rw [append_assoc, append_assoc, append_assoc]
  · rw [length_append, Nat.add_assoc]

theorem Stands.getElem? (h : Stands p i 0 lines) {k : Nat} (hk : k < p.count) : lines[i + k]? = p.lines[k]? := by
  obtain ⟨before, after, rfl, rfl⟩ := h
  rw [Nat.zero_add, append_assoc, getElem?_append_right (Nat.le_add_right _ _), Nat.add_sub_cancel_left, getElem?_append_left hk]

/-- A part and its jumps stand among these lines and jumps. -/
structure Placed (q : Nat × Outline) (n : Nat) (lines : List Code) (jumps : List Jump) : Prop where
  stands : Stands q.2 q.1 n lines
  jumps : q.2.jumps q.1 ⊆ jumps

theorem placed_self : Placed (n, p) n p.lines (p.jumps n) := ⟨stands_self, List.Subset.refl _⟩

variable {q : Nat × Outline} {js : List Jump}

theorem Placed.append (h : Placed q n lines js) (ms : List Code) (ks : List Jump) : Placed q n (lines ++ ms) (js ++ ks) :=
  ⟨h.stands.append ms, List.Subset.trans h.jumps (subset_append_left _ _)⟩

theorem Placed.behind (ms : List Code) (h : Placed q (n + ms.length) lines js) (ks : List Jump) :
    Placed q n (ms ++ lines) (ks ++ js) :=
  ⟨h.stands.behind, List.Subset.trans h.jumps (subset_append_right _ _)⟩

/-- What stands behind a first line and the lines of a body. -/
theorem Placed.behind_body {k : Nat} {body : Outline} (ms : List Code) (hk : k = n + ms.length + body.count)
    (h : Placed q k lines js) (ks : List Jump) : Placed q n (ms ++ body.lines ++ lines) (ks ++ js) := by
  refine Placed.behind (ms ++ body.lines) ?_ ks
  rwa [length_append, ← Nat.add_assoc, ← Outline.count, ← hk]

mutual

theorem Outline.placed : ∀ (o : Outline) (n : Nat), ∀ q ∈ o.parts n, Placed q n o.lines (o.jumps n)
  | .skip, n | .label _, n | .plain _, n | .goto _, n | .unless _ _, n => by
    intro q hq
    rw [Outline.parts, mem_singleton] at hq
    · subst hq
      exact placed_self
    all_goals simp
  | .seq a b, n => by
    intro q hq
    rcases mem_append.1 hq with hq | hq
    · rcases mem_cons.1 hq with rfl | hq
      · exact placed_self
      · exact (a.placed n q hq).append b.lines _
    · exact Placed.behind a.lines (b.placed (n + a.count) q hq) _
  | .cond test body others, n => by
    intro q hq
    rcases mem_append.1 hq with hq | hq
    · rcases mem_cons.1 hq with rfl | hq
      · exact placed_self
      · exact (Placed.behind [test ++ hole] (body.placed (n + 1) q hq) [_]).append others.lines _
    · exact Placed.behind_body [test ++ hole] rfl (others.placed (n + 1 + body.count) _ q hq) _
  | .forLoop first test step body, n => by
    intro q hq
    rcases mem_cons.1 hq with rfl | hq
    · exact placed_self
    · have hbody (j : Jump) := Placed.behind [test ++ hole] (body.placed (n + first.toList.length + 1) q hq) [j]
      have hall (j k : Jump) := ((Placed.behind first.toList (hbody j) []).append step.toList []).append [openJump] [k]
      simp only [singleton_append, append_nil] at hall
      exact hall _ _
  | .whileLoop test body, n => by
    intro q hq
    rcases mem_cons.1 hq with rfl | hq
    · exact placed_self
    · exact (Placed.behind [test ++ hole] (body.placed (n + 1) q hq) [_]).append [openJump] _
  | .doLoop body test, n => by
    intro q hq
    rcases mem_cons.1 hq with rfl | hq
    · exact placed_self
    · exact (body.placed n q hq).append [test ++ hole] _

theorem Branches.placed : ∀ (b : Branches) (n stop : Nat), ∀ q ∈ b.parts n, Placed q n b.lines (b.jumpsBy Branches.exit n stop)
  | .done _, n, stop => by
    intro q hq
    exact absurd hq not_mem_nil
  | .otherwise closing body rest, n, stop => by
    intro q hq
    rcases mem_append.1 hq with hq | hq
    · exact (Placed.behind [openJump] (body.placed (n + 1) q hq) [_]).append rest.lines _
    · exact Placed.behind_body [openJump] rfl (rest.placed (n + 1 + body.count) stop q hq) _
  | .otherwiseIf closing test body rest, n, stop => by
    intro q hq
    rcases mem_append.1 hq with hq | hq
    · exact (Placed.behind [openJump, test ++ hole] (body.placed (n + 2) q hq) [_, _]).append rest.lines _
    · exact Placed.behind_body [openJump, test ++ hole] rfl (rest.placed (n + 2 + body.count) stop q hq) _

end

end Parts

/-! ### Where control goes -/

/-- Where control goes on from an instruction that holds an offset and ends at `q`: behind it, or, if
its jump is taken, as far from there as the offset says. -/
def onward (code : Code) (q : Nat) (taken : Bool) : Int := if taken then q + offsetBefore code q else q

theorem Lands.onward_line (h : Lands o lines) (hj : ⟨i, .line n⟩ ∈ o.jumps 0) :
    onward lines.flatten (position lines (i + 1)) true = position lines n := by
  obtain ⟨t, hplaces, -, hland⟩ := h.lands _ hj
  obtain rfl : t = n := hplaces
  exact hland

theorem Lands.filled (h : Lands o lines) {j : Jump} (hj : j ∈ o.jumps 0) {code : Code}
    (hcode : o.lines[j.line]? = some (code ++ hole)) : ∃ offset, lines[j.line]? = some (code ++ offset) ∧ offset.length = 2 := by
  obtain ⟨head, tail, hline, hhead, htail⟩ := h.heads j hj
  rw [hcode, Option.some.injEq] at hhead
  rw [append_cancel_right hhead]
  exact ⟨tail, hline, htail⟩

theorem position_succ {code : Code} (h : lines[i]? = some code) : position lines (i + 1) = position lines i + code.length := by
  obtain ⟨hlt, rfl⟩ := List.getElem?_eq_some_iff.1 h
  rw [position_add, List.drop_eq_getElem_cons hlt, List.take_succ_cons, List.take_zero, List.flatten_singleton]

theorem lands_of_compile {opts : Options} {words : List String} {script : String} {c : Compiled}
    (h : (compile opts words script).1 = .ok c) :
    ∃ o, SpellsScript opts.version opts.legacy (expandTabs script) opts.trailing o ∧ Lands o c.lines := by
  obtain ⟨-, -, o, -, hspells, -, -, hlands, -⟩ := compile_eq_ok h
  exact ⟨o, hspells, hlands⟩

/-! ### Loops with the test at their head -/

section Loops

variable {test : Code} {body : Outline}

theorem Lands.whileLoop (h : Lands o lines) (hpart : (i, .whileLoop test body) ∈ o.parts 0) :
    (∃ offset, lines[i]? = some (test ++ offset) ∧ offset.length = 2) ∧
    (∃ offset, lines[i + 1 + body.count]? = some (byteCode Opcode.jump ++ offset) ∧ offset.length = 2) ∧
    onward lines.flatten (position lines (i + 1)) true = position lines (i + 1 + body.count) ∧
    onward lines.flatten (position lines (i + 1 + body.count + 1)) true = position lines i := by
  obtain ⟨hstands, hjumps⟩ := o.placed 0 _ hpart
  have hcount : (Outline.whileLoop test body).count = 1 + body.count + 1 := Outline.count_whileLoop body test
  have hhead : (⟨i, .line (i + 1 + body.count)⟩) ∈ o.jumps 0 := by
    apply hjumps
    exact mem_append_left _ mem_cons_self
  have hback : (⟨i + 1 + body.count, .line i⟩) ∈ o.jumps 0 := by
    apply hjumps
    exact mem_append_right _ (mem_singleton.2 rfl)
  have htest : o.lines[i]? = some (test ++ hole) := by
    rw [show i = i + 0 from rfl, hstands.getElem? (by rw [hcount]; omega)]
    rfl
  have hclose : o.lines[i + 1 + body.count]? = some (byteCode Opcode.jump ++ hole) := by
    rw [Nat.add_assoc, hstands.getElem? (by rw [hcount]; omega), Nat.add_comm 1]
    exact getElem?_concat_length
  exact ⟨h.filled hhead htest, h.filled hback hclose, h.onward_line hhead, h.onward_line hback⟩

theorem Lands.doLoop (h : Lands o lines) (hpart : (i, .doLoop body test) ∈ o.parts 0) :
    (∃ offset, lines[i + body.count]? = some (test ++ offset) ∧ offset.length = 2) ∧
    onward lines.flatten (position lines (i + body.count + 1)) true = position lines i := by
  obtain ⟨hstands, hjumps⟩ := o.placed 0 _ hpart
  have hback : ⟨i + body.count, .line i⟩ ∈ o.jumps 0 := by
    apply hjumps
    exact mem_append_right _ (mem_singleton.2 rfl)
  have htest : o.lines[i + body.count]? = some (test ++ hole) := by
    rw [hstands.getElem? (by rw [Outline.count_doLoop]; omega)]
    exact getElem?_concat_length
  exact ⟨h.filled hback htest, h.onward_line hback⟩

end Loops

/-- A script is refused, or it compiles and the test of each loop that has it at its head jumps, when
it fails, to the beginning of the jump that closes the loop, three bytes before the first instruction
behind the loop. From there control goes back to the test, so failing does not end the loop. -/
theorem compile_whileLoop (opts : Options) (words : List String) (script : String) :
    (∃ fault, (compile opts words script).1 = .error fault) ∨
    ∃ c o, (compile opts words script).1 = .ok c ∧ SpellsScript opts.version opts.legacy (expandTabs script) opts.trailing o ∧
    ∀ i test body, (i, .whileLoop test body) ∈ o.parts 0 → (∃ offset, c.lines[i]? = some (test ++ offset) ∧ offset.length = 2) ∧
    (∃ offset, c.lines[i + 1 + body.count]? = some (byteCode Opcode.jump ++ offset) ∧ offset.length = 2) ∧
    onward c.code (position c.lines (i + 1)) true = position c.lines (i + 1 + body.count) ∧
    onward c.code (position c.lines (i + 1)) true = position c.lines (i + 1 + body.count + 1) - 3 ∧
    onward c.code (position c.lines (i + 1 + body.count + 1)) true = position c.lines i := by
  rcases hcompile : (compile opts words script).1 with fault | c
  · exact .inl ⟨fault, rfl⟩
  · obtain ⟨o, hspells, hlands⟩ := lands_of_compile hcompile
    refine .inr ⟨c, o, rfl, hspells, ?_⟩
    intro i test body hpart
    obtain ⟨htest, ⟨offset, hclose, hlength⟩, hexit, hback⟩ := hlands.whileLoop hpart
    have hbytes : position c.lines (i + 1 + body.count + 1) = position c.lines (i + 1 + body.count) + 3 := by
      rw [position_succ hclose, length_append, hlength]
      rfl
    refine ⟨htest, ⟨offset, hclose, hlength⟩, hexit, ?_, hback⟩
    rw [hbytes]
    exact hexit.trans (by omega)

/-- A script is refused, or it compiles and control goes on from the test at the end of each loop to
the first instruction of the body exactly when the test fails, and to what stands behind the loop
exactly when it holds. -/
theorem compile_doLoop (opts : Options) (words : List String) (script : String) :
    (∃ fault, (compile opts words script).1 = .error fault) ∨
    ∃ c o, (compile opts words script).1 = .ok c ∧ SpellsScript opts.version opts.legacy (expandTabs script) opts.trailing o ∧
    ∀ i body test, (i, .doLoop body test) ∈ o.parts 0 →
    (∃ offset, c.lines[i + body.count]? = some (test ++ offset) ∧ offset.length = 2) ∧
    ∀ holds : Bool, (onward c.code (position c.lines (i + body.count + 1)) (!holds) = position c.lines i ↔ holds = false) ∧
    (onward c.code (position c.lines (i + body.count + 1)) (!holds) = position c.lines (i + body.count + 1) ↔ holds = true) := by
  rcases hcompile : (compile opts words script).1 with fault | c
  · exact .inl ⟨fault, rfl⟩
  · obtain ⟨o, hspells, hlands⟩ := lands_of_compile hcompile
    refine .inr ⟨c, o, rfl, hspells, ?_⟩
    intro i body test hpart
    obtain ⟨⟨offset, htest, hlength⟩, hback⟩ := hlands.doLoop hpart
    have hbefore : position c.lines i ≤ position c.lines (i + body.count) := position_mono (by omega)
    have hafter : position c.lines (i + body.count + 1)
        = position c.lines (i + body.count) + (test ++ offset).length := position_succ htest
    rw [length_append, hlength] at hafter
    refine ⟨⟨offset, htest, hlength⟩, ?_⟩
    intro holds
    cases holds with
    | true =>
      have hnext : onward c.code (position c.lines (i + body.count + 1)) (!true) = position c.lines (i + body.count + 1) := rfl
      rw [hnext]
      refine ⟨iff_of_false (by omega) (by decide), iff_of_true rfl rfl⟩
    | false =>
      have hnext : onward c.code (position c.lines (i + body.count + 1)) (!false) = position c.lines i := hback
      rw [hnext]
      exact ⟨iff_of_true rfl rfl, iff_of_false (by omega) (by decide)⟩

end ScummKit.Script
