import ScummKit.Proofs.Script.Instructions

/-!
# Outlines of scripts

An outline is what a script says about control: its instructions as finished code, its labels, and its
jumps and blocks as a tree. Each line of code has a number, counted from zero. `Outline.lines` lists
the code, and `Outline.jumps` says for each line that jumps where it goes.
-/

namespace ScummKit.Script

open Grammar Lexicon List

/-- The name of a label: it starts with a character of names. -/
structure Name where
  text : String
  valid : text.toList.head?.any isName = true
  deriving DecidableEq

mutual

/-- The control structure of a script or of a part of it. -/
inductive Outline where
  | skip
  | label (name : Name)
  /-- An instruction. -/
  | plain (code : Code)
  | goto (name : Name)
  /-- A jump that is taken when a test fails. -/
  | unless (test : Code) (name : Name)
  | seq (first second : Outline)
  | cond (test : Code) (body : Outline) (others : Branches)
  | forLoop (first : Option Code) (test : Code) (step : Option Code) (body : Outline)
  | whileLoop (test : Code) (body : Outline)
  | doLoop (body : Outline) (test : Code)

/-- The further branches of an if block. In front of the brace that ends the branch before, a label
can stand. -/
inductive Branches where
  | done (closing : Option Name)
  | otherwise (closing : Option Name) (body : Outline) (rest : Branches)
  | otherwiseIf (closing : Option Name) (test : Code) (body : Outline) (rest : Branches)

end

open Statement (hole openJump)

mutual

/-- The lines of code, with room for the offsets of jumps. -/
def Outline.lines : Outline → List Code
  | .skip => []
  | .label _ => []
  | .plain code => [code]
  | .goto _ => [openJump]
  | .unless test _ => [test ++ hole]
  | .seq a b => a.lines ++ b.lines
  | .cond test body others => (test ++ hole) :: body.lines ++ others.lines
  | .forLoop first test step body =>
    first.toList ++ (test ++ hole) :: body.lines ++ step.toList ++ [openJump]
  | .whileLoop test body => (test ++ hole) :: body.lines ++ [openJump]
  | .doLoop body test => body.lines ++ [test ++ hole]

/-- The lines of the further branches: each is entered over a jump out of the branch before. -/
def Branches.lines : Branches → List Code
  | .done _ => []
  | .otherwise _ body rest => openJump :: body.lines ++ rest.lines
  | .otherwiseIf _ test body rest => openJump :: (test ++ hole) :: body.lines ++ rest.lines

end

def Outline.count (o : Outline) : Nat := o.lines.length

def Branches.count (b : Branches) : Nat := b.lines.length

section Counts

variable (a b body : Outline) (rest : Branches) (test : Code) (first step : Option Code)
variable (closing : Option Name)

theorem Outline.count_seq : (Outline.seq a b).count = a.count + b.count := length_append

theorem Outline.count_cond : (Outline.cond test body rest).count = 1 + body.count + rest.count := by
  simp [Outline.count, Branches.count, Outline.lines]
  omega

theorem Outline.count_forLoop : (Outline.forLoop first test step body).count
    = first.toList.length + 1 + body.count + step.toList.length + 1 := by
  simp [Outline.count, Outline.lines]
  omega

theorem Outline.count_whileLoop : (Outline.whileLoop test body).count = 1 + body.count + 1 := by
  simp [Outline.count, Outline.lines]
  omega

theorem Outline.count_doLoop : (Outline.doLoop body test).count = body.count + 1 := by
  simp [Outline.count, Outline.lines]

theorem Branches.count_otherwise : (Branches.otherwise closing body rest).count = 1 + body.count + rest.count := by
  simp [Outline.count, Branches.count, Branches.lines]
  omega

theorem Branches.count_otherwiseIf : (Branches.otherwiseIf closing test body rest).count = 2 + body.count + rest.count := by
  simp [Outline.count, Branches.count, Branches.lines]
  omega

end Counts

/-- Where a jump is meant to go: to a label of the script or to a line. -/
inductive Target where
  | name (name : Name)
  | line (n : Nat)
  deriving DecidableEq

structure Jump where
  line : Nat
  target : Target
  deriving DecidableEq

/-- The line at which a branch goes on when it is left out: behind the jump that opens the next one,
or at the end of the block. -/
def Branches.entry (line : Nat) : Branches → Nat
  | .done _ => line
  | .otherwise _ _ _ => line + 1
  | .otherwiseIf _ _ _ _ => line + 1

/-- Where the jump in front of a branch without a test goes, from what follows the branch: to the end
of the block, or behind the jump that opens the next branch, if there is one. -/
def Branches.exit (next stop : Nat) : Branches → Nat
  | .done _ => stop
  | .otherwise _ _ _ => next + 1
  | .otherwiseIf _ _ _ _ => next + 1

theorem Branches.exit_eq_entry (b : Branches) (n : Nat) : b.exit n (n + b.count) = b.entry n := by cases b <;> rfl

mutual

/-- The jumps of an outline whose first line has the given number, where `leave` says where the jump
in front of a branch without a test goes. -/
def Outline.jumpsBy (leave : Nat → Nat → Branches → Nat) : Outline → Nat → List Jump
  | .skip, _ => []
  | .label _, _ => []
  | .plain _, _ => []
  | .goto name, n => [⟨n, .name name⟩]
  | .unless _ name, n => [⟨n, .name name⟩]
  | .seq a b, n => a.jumpsBy leave n ++ b.jumpsBy leave (n + a.count)
  | .cond _ body others, n =>
    let next := n + 1 + body.count
    ⟨n, .line (others.entry next)⟩ :: body.jumpsBy leave (n + 1) ++ others.jumpsBy leave next (next + others.count)
  | .forLoop first _ step body, n =>
    let start := n + first.toList.length
    let back := start + 1 + body.count + step.toList.length
    ⟨start, .line (back + 1)⟩ :: body.jumpsBy leave (start + 1) ++ [⟨back, .line start⟩]
  | .whileLoop _ body, n =>
    let back := n + 1 + body.count
    ⟨n, .line back⟩ :: body.jumpsBy leave (n + 1) ++ [⟨back, .line n⟩]
  | .doLoop body _, n => body.jumpsBy leave n ++ [⟨n + body.count, .line n⟩]

/-- The jumps of further branches from a line on, in a block that ends at `stop`. The jump in front of
a branch with a test goes to that end. -/
def Branches.jumpsBy (leave : Nat → Nat → Branches → Nat) : Branches → Nat → Nat → List Jump
  | .done _, _, _ => []
  | .otherwise _ body rest, n, stop =>
    let next := n + 1 + body.count
    ⟨n, .line (leave next stop rest)⟩ :: body.jumpsBy leave (n + 1) ++ rest.jumpsBy leave next stop
  | .otherwiseIf _ _ body rest, n, stop =>
    let next := n + 2 + body.count
    ⟨n, .line stop⟩ :: ⟨n + 1, .line (rest.entry next)⟩ :: body.jumpsBy leave (n + 2) ++ rest.jumpsBy leave next stop

end

/-- The jumps of an outline, with those in front of branches without a test as they are compiled. -/
def Outline.jumps (o : Outline) (n : Nat) : List Jump := o.jumpsBy Branches.exit n

/-- The jumps of an outline, with those in front of further branches all to the end of the block. -/
def Outline.aims (o : Outline) (n : Nat) : List Jump := o.jumpsBy (fun _ stop _ => stop) n

mutual

/-- After a branch without a test at most one line of further branches follows. -/
def Outline.Orderly : Outline → Prop
  | .seq a b => a.Orderly ∧ b.Orderly
  | .cond _ body others => body.Orderly ∧ others.Orderly
  | .forLoop _ _ _ body => body.Orderly
  | .whileLoop _ body => body.Orderly
  | .doLoop body _ => body.Orderly
  | _ => True

def Branches.Orderly : Branches → Prop
  | .done _ => True
  | .otherwise _ body rest => rest.count ≤ 1 ∧ body.Orderly ∧ rest.Orderly
  | .otherwiseIf _ _ body rest => body.Orderly ∧ rest.Orderly

end

section Aims

variable {f g : Nat → Nat → Branches → Nat}

mutual

theorem Outline.length_jumpsBy : ∀ (o : Outline) (n : Nat), (o.jumpsBy f n).length = (o.jumpsBy g n).length
  | .skip, _ | .label _, _ | .plain _, _ | .goto _, _ | .unless _ _, _ => rfl
  | .seq a b, n => by
    simp only [Outline.jumpsBy, length_append, a.length_jumpsBy n, b.length_jumpsBy]
  | .cond _ body others, n => by
    simp only [Outline.jumpsBy, length_append, length_cons, body.length_jumpsBy, others.length_jumpsBy]
  | .forLoop _ _ _ body, n | .whileLoop _ body, n | .doLoop body _, n => by
    simp only [Outline.jumpsBy, length_append, length_cons, body.length_jumpsBy]

theorem Branches.length_jumpsBy : ∀ (b : Branches) (n stop : Nat), (b.jumpsBy f n stop).length = (b.jumpsBy g n stop).length
  | .done _, _, _ => rfl
  | .otherwise _ body rest, n, stop | .otherwiseIf _ _ body rest, n, stop => by
    simp only [Branches.jumpsBy, length_append, length_cons, body.length_jumpsBy, rest.length_jumpsBy]

end

theorem append_jumpsBy_iff {o : Outline} {n : Nat} {js ks : List Jump} :
    o.jumpsBy f n ++ js = o.jumpsBy g n ++ ks ↔ o.jumpsBy f n = o.jumpsBy g n ∧ js = ks :=
  ⟨fun h => append_inj h (o.length_jumpsBy n), fun h => by rw [h.1, h.2]⟩

/-- The jump in front of a branch without a test goes to the end of the block if no more than one line
follows the branch in it. -/
theorem Branches.exit_eq_iff (b : Branches) (n : Nat) : b.exit n (n + b.count) = n + b.count ↔ b.count ≤ 1 := by
  cases b with
  | done => simp [Branches.exit, Branches.count, Branches.lines]
  | otherwise closing body rest =>
    rw [Branches.exit, Branches.count_otherwise]
    omega
  | otherwiseIf closing test body rest =>
    rw [Branches.exit, Branches.count_otherwiseIf]
    omega

mutual

theorem Outline.jumps_eq_aims_iff : ∀ (o : Outline) (n : Nat), o.jumps n = o.aims n ↔ o.Orderly
  | .skip, _ | .label _, _ | .plain _, _ | .goto _, _ | .unless _ _, _ => iff_of_true rfl trivial
  | .seq a b, n => append_jumpsBy_iff.trans (and_congr (a.jumps_eq_aims_iff n) (b.jumps_eq_aims_iff (n + a.count)))
  | .cond test body others, n => by
    have hbody := body.jumps_eq_aims_iff (n + 1)
    have hothers := others.jumpsBy_eq_iff (n + 1 + body.count)
    simp only [Outline.jumps, Outline.aims, Outline.jumpsBy, cons_append, List.cons.injEq,
      true_and, append_jumpsBy_iff] at hbody ⊢
    rw [hbody, hothers, Outline.Orderly]
  | .forLoop _ _ _ body, n | .whileLoop _ body, n | .doLoop body _, n => by
    have hbody := body.jumps_eq_aims_iff
    simp only [Outline.jumps, Outline.aims, Outline.jumpsBy, cons_append, List.cons.injEq,
      true_and, append_jumpsBy_iff, and_true] at hbody ⊢
    rw [hbody, Outline.Orderly]

theorem Branches.jumpsBy_eq_iff : ∀ (b : Branches) (n : Nat),
    b.jumpsBy Branches.exit n (n + b.count) = b.jumpsBy (fun _ stop _ => stop) n (n + b.count) ↔ b.Orderly
  | .done _, _ => iff_of_true rfl trivial
  | .otherwise closing body rest, n => by
    have hbody := body.jumps_eq_aims_iff (n + 1)
    have hrest := rest.jumpsBy_eq_iff (n + 1 + body.count)
    have hstop : n + (Branches.otherwise closing body rest).count = n + 1 + body.count + rest.count := by
      rw [Branches.count_otherwise]
      omega
    simp only [Outline.jumps, Outline.aims] at hbody
    rw [hstop]
    simp only [Branches.jumpsBy, cons_append, List.cons.injEq,
      Jump.mk.injEq, Target.line.injEq, true_and, append_jumpsBy_iff, Branches.exit_eq_iff]
    rw [hbody, hrest, Branches.Orderly]
  | .otherwiseIf closing test body rest, n => by
    have hbody := body.jumps_eq_aims_iff (n + 2)
    have hrest := rest.jumpsBy_eq_iff (n + 2 + body.count)
    have hstop : n + (Branches.otherwiseIf closing test body rest).count = n + 2 + body.count + rest.count := by
      rw [Branches.count_otherwiseIf]
      omega
    simp only [Outline.jumps, Outline.aims] at hbody
    rw [hstop]
    simp only [Branches.jumpsBy, cons_append, List.cons.injEq, true_and, append_jumpsBy_iff]
    rw [hbody, hrest, Branches.Orderly]

end

-- of two branches without a test, the jump in front of the first goes to the second
example : (Outline.cond [] .skip (.otherwise none .skip (.otherwise none (.plain []) (.done none)))).jumps 0
    = [⟨0, .line 2⟩, ⟨1, .line 3⟩, ⟨2, .line 4⟩] := by decide
example : (Outline.cond [] .skip (.otherwise none .skip (.otherwise none (.plain []) (.done none)))).aims 0
    = [⟨0, .line 2⟩, ⟨1, .line 4⟩, ⟨2, .line 4⟩] := by decide

end Aims

/-- The line a label in front of a brace stands at. -/
def closingLabels (closing : Option Name) (n : Nat) : List (Name × Nat) := closing.toList.map (·, n)

mutual

def Outline.labels : Outline → Nat → List (Name × Nat)
  | .label name, n => [(name, n)]
  | .seq a b, n => a.labels n ++ b.labels (n + a.count)
  | .cond _ body others, n => body.labels (n + 1) ++ others.labels (n + 1 + body.count)
  | .forLoop first _ _ body, n => body.labels (n + first.toList.length + 1)
  | .whileLoop _ body, n => body.labels (n + 1)
  | .doLoop body _, n => body.labels n
  | _, _ => []

def Branches.labels : Branches → Nat → List (Name × Nat)
  | .done closing, n => closingLabels closing n
  | .otherwise closing body rest, n =>
    closingLabels closing n ++ body.labels (n + 1) ++ rest.labels (n + 1 + body.count)
  | .otherwiseIf closing _ body rest, n =>
    closingLabels closing n ++ body.labels (n + 2) ++ rest.labels (n + 2 + body.count)

end

end ScummKit.Script
