import ScummKit.Proofs.Script.Blocks

/-!
# Reading if blocks

While an if block is read, the jumps out of its branches wait: the last one for the next branch to
start, the ones before it for the end of the block. `Assembler.inIf` is a state inside a block with its
waiting jumps. Each further branch settles one of them (`triple_otherwise`), and the closing brace
settles the rest (`run_ifEnd`).
-/

namespace ScummKit.Script

open Grammar Build Lexicon Special Statement List

variable {m : Machine Assembler} {waiting : List Exit} {site : Site} {test : Option Code}
variable {c : Capture}
variable {v : Version} {legacy : Bool} {text : Array Char} {fuel pos : Nat} {skip : Bool}
variable {u w : Assembler} {E : Assembler → Prop}
variable {start k : Nat} (closing : Option Name)

/-! ### States inside an if block -/

def Exit.branch (start : Nat) (e : Exit) : Branch := ⟨e.line, blockLabel "i" start e.label⟩

/-- A compilation inside an if block: its first line, the number of labels made and the jumps that
wait. -/
def Assembler.inIf (a : Assembler) (start k : Nat) (waiting : List Exit) : Assembler :=
  { a with outer := a.ifBlock :: a.outer, ifBlock := some ⟨start, waiting.map (Exit.branch start), k⟩ }

theorem inIf_append (a : Assembler) (start k : Nat) (waiting : List Exit) (b : Exit) : a.inIf start k (waiting ++ [b]) = { a with
      outer := a.ifBlock :: a.outer
      ifBlock := some ⟨start, waiting.map (Exit.branch start) ++ [b.branch start], k⟩ } := by simp [Assembler.inIf]

def Assembler.settled (a : Assembler) (start : Nat) (waiting : List Exit) : Assembler :=
  a.moved a.line (a.ledger.noteAll (waiting.flatMap (settle start a.line)))

theorem run_settle (start n : Nat) (waiting : List Exit) (m : Machine Assembler) :
    (forIn (waiting.map (Exit.branch start)) PUnit.unit fun branch _ => do
        setJump branch.label branch.line
        noteLabel branch.label n
        pure (ForInStep.yield PUnit.unit) : Build PUnit).run.run m
      = (.ok ⟨⟩, { m with user := (m.user.moved m.user.line (m.user.ledger.noteAll (waiting.flatMap (settle start n)))) }) := by
  induction waiting generalizing m with
  | nil => rfl
  | cons b waiting ih =>
    rw [map_cons, forIn_cons]
    have hstep := ih { m with user := (m.user.moved m.user.line (m.user.ledger.noteAll (settle start n b))) }
    exact hstep

theorem run_ifEnd {w : Assembler} (hm : m.user = w.inIf start k waiting) :
    (ifEndAction site c).run.run m = (.ok (.tokens []), { m with user := w.settled start waiting }) := by
  obtain ⟨furthest, store, user⟩ := m
  obtain rfl : user = w.inIf start k waiting := hm
  have hloop := run_settle start w.line waiting ⟨furthest, store, w.inIf start k waiting⟩
  change ((forIn (waiting.map (Exit.branch start)) PUnit.unit fun branch _ => do
      setJump branch.label branch.line
      noteLabel branch.label w.line
      pure (ForInStep.yield PUnit.unit)) >>= fun _ => do
    update fun a => { a with ifBlock := w.ifBlock, outer := w.outer }
    return .tokens [] : Build Reply).run.run _ = _
  rw [ExceptT.run_bind, StateT.run_bind, hloop]
  rfl

def Assembler.pastJump (a : Assembler) (start k : Nat) (waiting : List Exit) : Assembler :=
  a.next.inIf start (k + 1) (waiting ++ [⟨k, a.line⟩])

theorem run_else {w : Assembler} (hm : m.user = w.inIf start k waiting) : (elseAction site c).run.run m
    = (.ok (.tokens [.code openJump]), { m with user := w.pastJump start k waiting }) := by
  obtain ⟨furthest, store, user⟩ := m
  obtain rfl : user = w.inIf start k waiting := hm
  rw [Assembler.pastJump, inIf_append]
  rfl

def branchCapture : Option Code → Capture
  | none => ⟨[.code openJump], []⟩
  | some code => ⟨[.code openJump, .code code], [("elseif", .group [.code code] [])]⟩

def branchCodes (test : Option Code) : List Code := openJump :: (test.map (· ++ hole)).toList

/-- The jumps that wait for the end of the block in a branch with or without a test. The jump over the
branch has the line `n`. -/
def pendingIn (n k : Nat) (pending : List Exit) : Option Code → List Exit
  | none => pending
  | some _ => pending ++ [⟨k, n⟩]

/-- The jump that waits for the next branch in a branch with or without a test. -/
def lastIn (n k : Nat) : Option Code → Exit
  | none => ⟨k, n⟩
  | some _ => ⟨k + 1, n + 1⟩

/-- An if block under way: the compilation around it, its first line, the number of labels made, the
jumps that wait for its end and the one that waits for the next branch. -/
structure OpenIf where
  around : Assembler
  start : Nat
  labels : Nat
  pending : List Exit
  last : Exit

variable {i : OpenIf}

namespace OpenIf

def state (i : OpenIf) : Assembler := i.around.inIf i.start i.labels (i.pending ++ [i.last])

def after (i : OpenIf) (o : Outline) : OpenIf := { i with around := i.around.after o }

def pastJump (i : OpenIf) : Assembler := i.around.pastJump i.start i.labels (i.pending ++ [i.last])

/-- The block at the start of a further branch with or without a test: what waited for it is
settled. -/
def enter (i : OpenIf) (test : Option Code) : OpenIf where
  around := (i.around.next.settled i.start [i.last]).skipped test.toList.length
  start := i.start
  labels := i.labels + 1 + test.toList.length
  pending := pendingIn i.around.line i.labels i.pending test
  last := lastIn i.around.line i.labels test

def notes (i : OpenIf) (b : Branches) : List Note := b.notes i.start i.labels i.pending i.last i.around.line

end OpenIf

def branchReply : Option Code → Reply
  | none => .keep
  | some code => .capture ⟨(branchCodes (some code)).map .code, (branchCapture (some code)).names⟩

theorem run_elseLine (hm : m.user = i.pastJump) : (elseLineAction site (branchCapture test)).run.run m
    = (.ok (branchReply test), { m with user := (i.enter test).state }) := by
  have htake (leap : Exit) : takeElse ((i.pending ++ [i.last] ++ [leap]).map (Exit.branch i.start))
      = some (i.last.branch i.start, (i.pending ++ [leap]).map (Exit.branch i.start)) := by
    simp [takeElse]
  obtain ⟨furthest, store, user⟩ := m
  obtain rfl : user = i.pastJump := hm
  unfold elseLineAction
  rw [run_state_bind]
  simp only [OpenIf.pastJump, Assembler.pastJump, Assembler.inIf, htake]
  cases test with
  | none => rfl
  | some code =>
    rw [OpenIf.state, inIf_append (i.enter (some code)).around]
    rfl

/-! ### The line that opens a further branch -/

/-- How a further branch opens behind its keyword: with a test, or without one. -/
def SpellsOpening (v : Version) (legacy : Bool) (text : Array Char) (pos stop : Nat) : Option Code → Prop
  | none => SpellsElse text pos stop
  | some code => SpellsHead v legacy text "if" pos stop code

def openingFound : Option Code → Found
  | none => .nothing
  | some code => .own ⟨[.code code], [("elseif", .group [.code code] [])]⟩

theorem triple_elseTest : Triple (· = u) (scan v legacy text (fuel + 5) (.named "elseif" (.opt (ifHead v legacy))) true pos)
    (fun r t => (∃ test, SpellsOpening v legacy text pos r.1 test ∧ pos ≤ r.1 ∧
    r.2 = openingFound test) ∧ t = u) (fun _ => False) := by
  have hle := le_skipBlanks text pos
  refine triple_named_then (triple_opt ?_)
  rw [fresh_true.seat rfl]
  refine triple_conseq (triple_header (by decide) fresh_skipBlanks) ?_ ?_
  · rintro ⟨stop, _⟩ _ ⟨⟨code, hspells, hlt, -, rfl⟩, rfl⟩ m hm
    refine ⟨⟨some code, ?_, by omega, rfl⟩, hm⟩
    obtain ⟨ha, hb, htest, hd, hstop⟩ := hspells
    exact .mk (by rwa [markEnd?_skipBlanks] at ha) hb htest hd hstop
  · rintro _ rfl m hm
    exact ⟨⟨none, .bare, hle, rfl⟩, hm⟩

theorem triple_opening : Triple (· = u) (scan v legacy text (fuel + 6)
    (.longest [.named "elseif" (.opt (ifHead v legacy)), mark "\x7b"]) true pos)
    (fun r t => (∃ test, SpellsOpening v legacy text pos r.1 test ∧ pos ≤ r.1 ∧
    r.2 = openingFound test) ∧ t = u) (fun _ => False) := by
  refine triple_longest (M := fun q => q = mark "\x7b" → (markEnd? text "\x7b" pos).isSome)
    (N := fun q => q = mark "\x7b") ?_ ?_ ?_
  · simp only [forall_mem_singleton, forall_mem_cons]
    constructor
    · refine triple_named (R := fun _ t => t = u) (triple_opt ?_) fun _ _ =>
        triple_post triple_file_whole fun r t ht => ⟨by simp [mark], ht⟩
      exact triple_post (triple_inert (by simp [ifHead, (emitter_test v legacy).inert])) fun r t ht => ht.2
    · refine triple_conseq (triple_mark fresh_true) (fun r t ht => ⟨fun _ => ?_, ht.2.2⟩) fun t ht => ⟨trivial, ht.2⟩
      rw [ht.1]
      rfl
  · simp only [forall_mem_singleton, forall_mem_cons]
    constructor
    · exact fun _ => triple_elseTest
    · intro hmark
      refine triple_conseq (triple_mark fresh_true)
        (fun r t ht => ⟨⟨none, .brace ht.1, by grind, ht.2.1⟩, ht.2.2⟩) fun t ht => ?_
      exact absurd (hmark trivial) (by simp [ht.1])
  · intro hnone
    exact absurd (hnone _ mem_cons_self) (by simp [mark])

def otherwiseLine (v : Version) (legacy : Bool) : Syn :=
  .act elseLineAction (.seq [lineHead, .act elseAction (.seq [mark "\x7d", mark "else"]),
    .longest [.named "elseif" (.opt (ifHead v legacy)), mark "\x7b"], lineTail])

/-- The text from `pos` to `stop` closes a branch and opens a further one. -/
def SpellsOtherwise (v : Version) (legacy : Bool) (text : Array Char) (pos stop : Nat) (test : Option Code) : Prop :=
  ∃ a b c, markEnd? text "\x7d" (headEnd text pos) = some a ∧ markEnd? text "else" a = some b ∧
    SpellsOpening v legacy text b c test ∧ b ≤ c ∧ stop = tailEnd text c

@[simp] theorem spellsOtherwise_skipBlanks :
    SpellsOtherwise v legacy text (skipBlanks text pos) = SpellsOtherwise v legacy text pos := by
  funext stop test
  simp [SpellsOtherwise]

theorem SpellsOtherwise.lt {stop : Nat} (h : SpellsOtherwise v legacy text pos stop test) : pos < stop := by
  obtain ⟨a, b, c, ha, hb, -, hbc, rfl⟩ := h
  grind

theorem triple_overJump : Triple (· = i.state) (scan v legacy text (fuel + 4)
    (.act elseAction (.seq [mark "\x7d", mark "else"])) true pos)
    (fun r t => (∃ a, markEnd? text "\x7d" pos = some a ∧ markEnd? text "else" a = some r.1) ∧
    r.2 = .own (branchCapture none) ∧ t = i.pastJump) (· = i.state) := by
  refine triple_act_then (triple_seq_mark fresh_true (fun _ _ => id) fun a ha => ?_)
  refine triple_items_mark (fun _ _ => id) fun b hb => triple_items_nil ?_
  rintro _ rfl
  exact triple_perform_run
    (fun m hm => run_else hm)
    fun t _ => ⟨⟨a, ha, hb⟩, rfl, rfl⟩

theorem triple_otherwise (hfresh : Fresh text skip pos) : Triple (Peeked text pos i.state)
    (scan v legacy text (fuel + 9) (otherwiseLine v legacy) skip pos)
    (fun r t => ∃ test, SpellsOtherwise v legacy text pos r.1 test ∧
    HasCodes r.2 (branchCodes test) ∧ i.around.Takes (atHead text pos) ∧
    t = ((i.after (atHead text pos)).enter test).state) (Peeked text pos i.state) := by
  refine triple_act_then (triple_seq_head hfresh fun htakes => ?_)
  refine triple_items_next (triple_fails (triple_overJump (i := i.after (atHead text pos))) fun t ht => .inr ⟨htakes, ht⟩) ?_
  rintro b _ _ ⟨⟨a, ha, hb⟩, rfl, rfl⟩
  refine ⟨_, rfl, triple_items_next (triple_never triple_opening) ?_⟩
  rintro c _ _ ⟨⟨test, hopening, hle, rfl⟩, rfl⟩
  refine ⟨.own (branchCapture test), by cases test <;> rfl, triple_items_next (triple_never triple_lineTail) ?_⟩
  rintro _ _ _ ⟨rfl, rfl, rfl⟩
  refine ⟨_, rfl, triple_items_nil ?_⟩
  rintro _ rfl
  refine triple_perform_run
    (fun m hm => run_elseLine hm) fun t _ =>
      ⟨test, ⟨a, b, c, ha, hb, hopening, hle, rfl⟩, ?_, htakes, rfl⟩
  cases test <;> rfl

/-! ### The further branches -/

def Branches.more (closing : Option Name) (test : Option Code) (body : Outline) (rest : Branches) :
    Branches :=
  match test with
  | none => .otherwise closing body rest
  | some code => .otherwiseIf closing code body rest

/-- The further branches of an if block were read from `pos` on, behind code that was found before. -/
def Chained (v : Version) (legacy : Bool) (text : Array Char) (pos : Nat) (i : OpenIf)
    (codes : List Code) (r : Nat × Found) (t : Assembler) : Prop :=
  ∃ b, SpellsBranches v legacy text pos r.1 b ∧ pos ≤ r.1 ∧ HasCodes r.2 (codes ++ b.lines) ∧
    i.around.ledger.allowsAll (i.notes b) ∧
    t = i.around.moved (i.around.line + b.count) (i.around.ledger.noteAll (i.notes b))

theorem notes_more (i : OpenIf) (closing : Option Name) (test : Option Code) (body : Outline)
    (rest : Branches) : i.notes (.more closing test body rest)
    = closingNotes closing i.around.line ++ settle i.start (i.around.line + 1) i.last
    ++ body.notes (i.enter test).around.line ++ ((i.enter test).after body).notes rest := by cases test <;> rfl

theorem lines_more (test : Option Code) (body : Outline) (rest : Branches) :
    (Branches.more closing test body rest).lines = branchCodes test ++ body.lines ++ rest.lines := by
  cases test <;> simp [Branches.more, Branches.lines, branchCodes]

theorem count_more (test : Option Code) (body : Outline) (rest : Branches) :
    (Branches.more closing test body rest).count = 1 + test.toList.length + body.count + rest.count := by
  rw [Branches.count, lines_more]
  cases test <;> simp [branchCodes, Branches.count, Outline.count] <;> omega

theorem allowsAll_settle (g : Ledger) (start n : Nat) (waiting : List Exit) : g.allowsAll (waiting.flatMap (settle start n)) := by
  induction waiting generalizing g with
  | nil => trivial
  | cons e waiting ih => exact Ledger.allowsAll_append.2 ⟨⟨trivial, trivial, trivial⟩, ih _⟩

section Chains

variable {i : OpenIf} {codes : List Code} {found : Found} {r : Nat × Found} {t : Assembler}

theorem notes_atHead (n : Nat) : (atHead text pos).notes n = closingNotes (headLabel text pos) n := by
  rw [atHead]
  cases headLabel text pos <;> rfl

theorem count_atHead : (atHead text pos).count = 0 := by
  rw [Outline.count, lines_atHead]
  rfl

theorem after_atHead (w : Assembler) : w.after (atHead text pos)
    = w.moved w.line (w.ledger.noteAll (closingNotes (headLabel text pos) w.line)) := by
  rw [Assembler.after, count_atHead, notes_atHead]
  rfl

theorem chained_done {b : Nat} (hb : markEnd? text "\x7d" (headEnd text pos) = some b)
    (htakes : i.around.Takes (atHead text pos)) (hfound : HasCodes found codes) :
    Chained v legacy text pos i codes (tailEnd text b, found)
    ((i.around.after (atHead text pos)).settled i.start (i.pending ++ [i.last])) := by
  refine ⟨.done (headLabel text pos), .done hb, by grind, ?_, ?_, ?_⟩
  · simpa [Branches.lines] using hfound
  · rw [Assembler.Takes, notes_atHead] at htakes
    exact Ledger.allowsAll_append.2 ⟨htakes, allowsAll_settle _ _ _ _⟩
  · rw [after_atHead, OpenIf.notes, Branches.notes, Ledger.noteAll_append]
    rfl

theorem chained_more {a b : Nat} {body : Outline} (hopen : SpellsOtherwise v legacy text pos a test)
    (htakes : i.around.Takes (atHead text pos)) (hbody : Spells v legacy text a b body) (hle : a ≤ b)
    (htakesBody : ((i.after (atHead text pos)).enter test).around.Takes body)
    (hrest : Chained v legacy text b (((i.after (atHead text pos)).enter test).after body)
    (codes ++ (branchCodes test ++ body.lines)) r t) : Chained v legacy text pos i codes r t := by
  obtain ⟨rest, hspells, hstop, hfound, hallows, rfl⟩ := hrest
  have hlt := hopen.lt
  obtain ⟨c, d, e, hc, hd, hopening, hde, rfl⟩ := hopen
  have hafter : i.after (atHead text pos) = { i with around := _ } := congrArg (OpenIf.mk · _ _ _ _) (after_atHead i.around)
  rw [hafter] at htakesBody hallows ⊢
  refine ⟨.more (headLabel text pos) test body rest, ?_, by omega, ?_, ?_, ?_⟩
  · cases test with
    | none => exact .otherwise hc hd hopening hbody hspells
    | some code => exact .otherwiseIf hc hd hopening hbody hspells
  · simpa [lines_more] using hfound
  · rw [Assembler.Takes, notes_atHead] at htakes
    have hsettle := fun g => allowsAll_settle g i.start (i.around.line + 1) [i.last]
    rw [notes_more]
    simp only [Ledger.allowsAll_append, Ledger.noteAll_append]
    exact ⟨⟨⟨htakes, by simpa using hsettle _⟩, htakesBody⟩, hallows⟩
  · have hline : i.around.line + (1 + test.toList.length + body.count + rest.count)
        = i.around.line + 1 + test.toList.length + body.count + rest.count := by omega
    rw [notes_more, count_more, hline]
    simp only [Ledger.noteAll_append]
    rfl

theorem chained_of_blanks (h : Chained v legacy text (skipBlanks text pos) i codes r t) :
    Chained v legacy text pos i codes r t := by
  obtain ⟨b, hspells, hle, hfacts⟩ := h
  refine ⟨b, ?_, Nat.le_trans (le_skipBlanks text pos) hle, hfacts⟩
  generalize hstop : r.1 = stop at hspells
  cases hspells with
  | done ha =>
    rw [headEnd_skipBlanks] at ha
    rw [headLabel_skipBlanks]
    exact .done ha
  | otherwise ha hb helse hbody hrest =>
    rw [headEnd_skipBlanks] at ha
    rw [headLabel_skipBlanks]
    exact .otherwise ha hb helse hbody hrest
  | otherwiseIf ha hb hif hbody hrest =>
    rw [headEnd_skipBlanks] at ha
    rw [headLabel_skipBlanks]
    exact .otherwiseIf ha hb hif hbody hrest

def endIf : Syn := blockLine (.act ifEndAction (mark "\x7d"))

theorem triple_endIf (hfound : HasCodes found codes) (hE : ∀ t, E t) : Triple (Peeked text pos i.state)
    (readItems (rules v legacy) text (fuel + 8) true [endIf] (pos, found)) (Chained v legacy text pos i codes) E := by
  refine triple_items_codes (triple_closer (Q := fun b l t => l = [] ∧
      markEnd? text "\x7d" (headEnd text pos) = some b ∧ i.around.Takes (atHead text pos) ∧
      t = (i.around.after (atHead text pos)).settled i.start (i.pending ++ [i.last]))
    (fun b hb htakes => ?_) hE) hfound ?_
  · exact triple_perform_run (r := .tokens [])
      (fun m hm => run_ifEnd hm) fun t _ => ⟨[], rfl, rfl, hb, htakes, rfl⟩
  · rintro _ more _ ⟨b, _, rfl, hl, rfl, hb, htakes, rfl⟩
    refine ⟨[], hl, fun found hfound => triple_items_nil fun t ht => ?_⟩
    rw [ht]
    exact chained_done hb htakes (by simpa using hfound)

theorem triple_endIf_doomed {Q : Nat × Found → Assembler → Prop} (h : Doomed text pos) (hE : ∀ t, E t) :
    Triple (fun _ => True) (readItems (rules v legacy) text (fuel + 8) true [endIf] (pos, found)) Q
    E := triple_items_none ((refused_closer h).triple hE)

def branchStep (v : Version) (legacy : Bool) : Syn := .seq [otherwiseLine v legacy, .many blockRef]

theorem refused_branchStep (h : Doomed text pos) (hfresh : Fresh text skip pos) :
    Refused (scan v legacy text (fuel + 10) (branchStep v legacy) skip pos) := by
  refine triple_seq_then (triple_none ?_)
  rw [hfresh.start]
  refine triple_act_then (triple_none (triple_seq_then ?_))
  rw [fresh_skipBlanks.start, skipBlanks_skipBlanks]
  refine triple_never (triple_intro fun u _ => triple_mono (triple_lineHead fresh_skipBlanks) (fun _ => .inl) ?_
    fun _ => id)
  rintro ⟨_, found⟩ t ⟨rfl, -⟩
  rw [headEnd_skipBlanks]
  exact triple_items_none (triple_pre (triple_opens (.act (.seq (opens_mark _)))
    (doomed_brace h) fresh_true _) fun _ _ => trivial)

/-- Some further branches were read from `pos` up to `here`: however the block goes on there, it goes
on from `pos` with them in front. -/
def Ongoing (v : Version) (legacy : Bool) (text : Array Char) (pos : Nat) (i : OpenIf) (here : Nat)
    (found : Found) (t : Assembler) : Prop :=
  (∃ j codes, pos ≤ here ∧ HasCodes found codes ∧ Peeked text here (OpenIf.state j) t ∧
    ∀ front r s, Chained v legacy text here j (front ++ codes) r s → Chained v legacy text pos i front r s) ∨ Doomed text here

section

variable (hblocks : BlocksFrom v legacy text (fuel + 8) pos)

include hblocks

theorem triple_branchStep (hfresh : Fresh text skip pos) : Triple (Peeked text pos i.state)
    (scan v legacy text (fuel + 10) (branchStep v legacy) skip pos)
    (fun r t => Ongoing v legacy text pos i r.1 r.2 t) (Peeked text pos i.state) := by
  have hread : Triple (Peeked text (skipBlanks text pos) i.state) (scan v legacy text
    (fuel + 9) (otherwiseLine v legacy) false (skipBlanks text pos)) _ _ :=
    triple_otherwise fresh_skipBlanks
  simp only [peeked_skipBlanks, spellsOtherwise_skipBlanks, atHead_skipBlanks] at hread
  refine triple_seq_then ?_
  rw [hfresh.start]
  refine triple_post hread ?_
  rintro ⟨a, found⟩ _ ⟨test, hopen, hcodes, htakes, rfl⟩
  have hle : pos ≤ a := Nat.le_of_lt hopen.lt
  refine triple_items_blocks (triple_manyBlocks (hblocks.later hle) (Nat.le_refl a)) hcodes.settle ?_
    fun k found hk => triple_items_nil fun _ _ => .inr hk
  intro b found body t hbody hab htakesBody hfound hpeeked
  refine triple_items_nil fun s hs => .inl ⟨((i.after (atHead text pos)).enter test).after body, _,
    Nat.le_trans hle hab, hfound, hs ▸ hpeeked, ?_⟩
  exact fun front r s hchain => chained_more hopen htakes hbody hab htakesBody hchain

theorem triple_moreBranches : ∀ rounds here found, Triple (Ongoing v legacy text pos i here found)
    (repeated (scan v legacy text (fuel + 10) (branchStep v legacy) true) rounds here
    found) (fun r t => Ongoing v legacy text pos i r.1 r.2 t) E := by
  refine triple_repeated
    (S := fun here found next more t => (∃ j codes, HasCodes found codes ∧ pos ≤ here ∧ Ongoing v legacy text here j next more t ∧
      ∀ front r s, Chained v legacy text here j (front ++ codes) r s →
        Chained v legacy text pos i front r s)) ?_ ?_ fun _ _ _ => id
  · intro here found
    refine triple_intro fun t ht => ?_
    rcases ht with ⟨j, codes, hle, hcodes, hpeeked, hchain⟩ | hdoomed
    · exact triple_mono (triple_branchStep (hblocks.later hle) fresh_true)
        (fun s hs => hs ▸ hpeeked) (fun r s hs => ⟨j, codes, hcodes, hle, hs, hchain⟩)
        fun s hs => .inl ⟨j, codes, hle, hcodes, hs, hchain⟩
    · exact (refused_branchStep hdoomed fresh_true).triple fun _ => .inr hdoomed
  · intro here found next more
    refine triple_intro fun t ht => ?_
    obtain ⟨j, codes, hcodes, hpos, ⟨j', codes', hle, hmore, hpeeked, hchain'⟩ | hdoomed, hchain⟩ := ht
    · refine triple_post (triple_extend_codes hcodes hmore) fun r s hs => ?_
      refine .inl ⟨j', codes ++ codes', Nat.le_trans hpos hle, hs.1, hs.2 ▸ hpeeked, ?_⟩
      intro front r s h
      rw [← append_assoc] at h
      exact hchain front r s (hchain' (front ++ codes) r s h)
    · exact triple_mono triple_extend (fun _ _ => trivial) (fun _ _ _ => .inr hdoomed) fun _ => id

theorem triple_branches : Triple (Peeked text pos i.state)
    (scan v legacy text (fuel + 12) (.opt (.some (branchStep v legacy))) true pos)
    (fun r t => Ongoing v legacy text pos i r.1 r.2 t) E := by
  have hle := le_skipBlanks text pos
  have hlater : BlocksFrom v legacy text (fuel + 8) (skipBlanks text pos) := hblocks.later hle
  -- what is read behind the blanks is read from `pos`
  have hblanks : ∀ (r : Nat × Found) t, Ongoing v legacy text (skipBlanks text pos) i r.1 r.2 t →
      Ongoing v legacy text pos i r.1 r.2 t := by
    rintro r t (⟨j, codes, hstop, hcodes, hpeeked, hchain⟩ | hdoomed)
    · exact .inl ⟨j, codes, Nat.le_trans hle hstop, hcodes, hpeeked, fun front r s h =>
        chained_of_blanks (hchain front r s h)⟩
    · exact .inr hdoomed
  refine triple_opt ?_
  refine triple_mono (P := Peeked text (skipBlanks text pos) i.state)
    (E := Peeked text (skipBlanks text pos) i.state) ?_ ?_ hblanks ?_
  · refine triple_some (R := fun r t => Ongoing v legacy text (skipBlanks text pos) i r.1 r.2 t) ?_
      fun stop found => triple_moreBranches hlater _ _ _
    exact triple_branchStep hlater fresh_skipBlanks
  · rw [peeked_skipBlanks]
    exact fun _ => id
  · intro t ht
    refine hblanks (skipBlanks text pos, .nothing) t (.inl ⟨i, [], Nat.le_refl _, rfl, ht, ?_⟩)
    intro front r s h
    rwa [append_nil] at h

end

theorem triple_branches_doomed (h : Doomed text pos) : Triple (fun _ => True)
    (scan v legacy text (fuel + 12) (.opt (.some (branchStep v legacy))) true pos) (fun r _ => Doomed text r.1) E := by
  have hdoomed : Doomed text (skipBlanks text pos) := by
    simpa only [Doomed, Present, headEnd_skipBlanks] using h
  refine triple_opt ?_
  refine triple_fails (triple_some (R := fun _ _ => False) (E := fun _ => True) ?_ fun _ _ =>
    triple_false fun _ => id) fun _ _ => hdoomed
  exact refused_branchStep hdoomed fresh_skipBlanks

theorem triple_ifRest (hblocks : BlocksFrom v legacy text (fuel + 8) pos)
    (hbodies : BlocksFrom v legacy text (fuel + 10) pos) (hfound : HasCodes found codes)
    (hE : ∀ t, E t) : Triple (· = i.state) (readItems (rules v legacy) text (fuel + 12) true
    [.opt (.some blockRef), .opt (.some (branchStep v legacy)), endIf] (pos, found))
    (fun r t => ∃ body k, Spells v legacy text pos k body ∧ pos ≤ k ∧ i.around.Takes body ∧
    Chained v legacy text k (i.after body) (codes ++ body.lines) r t) E := by
  -- the first branch
  refine triple_items_blocks (triple_optBlocks hbodies (Nat.le_refl pos)) hfound
    (fun k found body t hbody hle htakes hfound hpeeked => ?_) fun k found hdoomed => ?_
  · -- the further branches
    refine triple_items_then (triple_mono (triple_branches (i := i.after body) (hblocks.later hle))
      (fun s hs => hs ▸ hpeeked) ?_ fun _ => id)
    rintro ⟨here, more⟩ t (⟨j, l, -, hmore, hpeeked, hchain⟩ | hdoomed)
    · refine triple_post (triple_extend_codes hfound hmore) ?_
      rintro joined _ ⟨hjoined, rfl⟩
      refine triple_mono (triple_endIf hjoined hE) (fun s hs => hs ▸ hpeeked) ?_ fun _ => id
      exact fun r s hs => ⟨body, k, hbody, hle, htakes, hchain _ r s hs⟩
    · refine triple_post triple_extend fun joined s _ => ?_
      exact triple_pre (triple_endIf_doomed hdoomed hE) fun _ _ => trivial
  · refine triple_items_then (triple_post (triple_branches_doomed hdoomed) fun r s hdoomed => ?_)
    refine triple_post triple_extend fun joined s _ => ?_
    exact triple_pre (triple_endIf_doomed hdoomed hE) fun _ _ => trivial

end Chains

/-! ### If blocks -/

def Assembler.ifOpened (a : Assembler) : OpenIf := ⟨a.next, a.line, 1, [], ⟨0, a.line⟩⟩

theorem after_cond (u : Assembler) (code : Code) (body : Outline) (others : Branches) :
    u.after (.cond code body others) = (u.ifOpened.after body).around.moved ((u.ifOpened.after body).around.line + others.count)
    ((u.ifOpened.after body).around.ledger.noteAll ((u.ifOpened.after body).notes others)) := by
  have hline : u.line + (Outline.cond code body others).count = u.line + 1 + body.count + others.count := by
    simp [Outline.count, Branches.count, Outline.lines]
    omega
  rw [Assembler.after, hline, Outline.notes, Ledger.noteAll_append]
  rfl

theorem triple_ifStart (hfresh : Fresh text skip pos) : Triple (Peeked text pos u) (scan v legacy text (fuel + 9)
    (.act ifStartAction (blockLine (ifHead v legacy))) skip pos)
    (fun r t => ∃ a code, SpellsHead v legacy text "if" (headEnd text pos) a code ∧
    headEnd text pos < a ∧ a ≤ text.size ∧ r.1 = tailEnd text a ∧ HasCodes r.2 [code ++ hole] ∧
    u.Takes (atHead text pos) ∧ t = (u.after (atHead text pos)).ifOpened.state) (Peeked text pos u) := by
  refine triple_act_then (triple_post (triple_blockLine (Q := fun a codes t => ∃ code,
    codes = [code] ∧ SpellsHead v legacy text "if" (headEnd text pos) a code ∧ headEnd text pos < a ∧
    a ≤ text.size ∧ u.Takes (atHead text pos) ∧ t = u.after (atHead text pos)) hfresh
    fun htakes => ?_) ?_)
  · refine triple_conseq (triple_header (by decide) fresh_true) ?_ fun t ht => .inr ⟨htakes, ht⟩
    rintro r t ⟨⟨code, hspells, hlt, hsize, hfound⟩, ht⟩
    exact ⟨[code], by rw [hfound]; rfl, code, rfl, hspells, hlt, hsize, htakes, ht⟩
  · rintro ⟨stop, found⟩ _ ⟨a, _, hstop, hcodes, code, rfl, hspells, hlt, hsize, htakes, rfl⟩
    obtain ⟨names, rfl⟩ : ∃ names, found = .own ⟨[.code code], names⟩ := by
      match found, hcodes with
      | .own ⟨tokens, names⟩, htokens => exact ⟨names, by rw [show tokens = _ from htokens]; rfl⟩
    refine triple_perform_run
      (g := fun s => s.ifOpened.state) (fun m _ => rfl) fun t ht => ?_
    exact ⟨a, code, hspells, hlt, hsize, hstop, rfl, htakes, by rw [ht]⟩

theorem triple_ifBlock (hblocks : pos < text.size → BlocksFrom v legacy text (fuel + 8) (pos + 1))
    (hbodies : pos < text.size → BlocksFrom v legacy text (fuel + 10) (pos + 1)) :
    Triple (Peeked text pos u) (scan v legacy text (fuel + 13) (ifBlock v legacy) true pos)
    (Good v legacy text pos u) (fun t => Peeked text pos u t ∨ Present text "if" pos) := by
  have hread : Triple (Peeked text (skipBlanks text pos) u) (scan v legacy text (fuel + 12)
      (.act ifStartAction (blockLine (ifHead v legacy))) false (skipBlanks text pos)) _ _ :=
    triple_ifStart fresh_skipBlanks
  simp only [peeked_skipBlanks, headEnd_skipBlanks, atHead_skipBlanks] at hread
  refine triple_seq_then ?_
  refine triple_conseq hread ?_ fun _ => Or.inl
  rintro ⟨_, found⟩ _ ⟨a, code, hspells, hlt, hsize, rfl, hcodes, htakes, rfl⟩
  have hpresent : Present text "if" pos := hspells.present
  refine triple_post (triple_ifRest ((hblocks (by grind)).later (by grind))
    ((hbodies (by grind)).later (by grind)) hcodes.settle fun _ => .inr hpresent) ?_
  rintro r t ⟨body, k, hbody, hk, htakesBody, others, hothers, hstop, hfound, hallows, rfl⟩
  refine ⟨.seq (atHead text pos) (.cond code body others), .cond hspells hbody hothers, by grind, ?_, ?_, ?_⟩
  · simpa [Outline.lines, lines_atHead] using hfound
  · exact takes_seq.2 ⟨htakes, Ledger.allowsAll_append.2 ⟨htakesBody, hallows⟩⟩
  · rw [after_seq u, after_cond]

end ScummKit.Script
