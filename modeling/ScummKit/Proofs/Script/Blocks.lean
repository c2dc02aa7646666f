import ScummKit.Proofs.Script.Lines

/-!
# Reading blocks

A block is read as an outline says (`triple_block`). When a block is given up, either nothing but its
label was noted, or a keyword stands at its place; then nothing else can be read there, neither another
block nor the end of the block around it, so the whole script is given up (`Doomed`). This is why the
traces that a half-read block leaves in the state of the compilation never show in a result.
-/

namespace ScummKit.Script

open Grammar Build Lexicon Special Statement

variable {Q : Nat × Found → Assembler → Prop} {f : Action Assembler} {code : Code} {start : Nat}
variable {found : Found} {body : Outline} {codes : List Code}
variable {v : Version} {legacy : Bool} {text : Array Char} {fuel pos : Nat} {skip : Bool}
variable {u w : Assembler} {E : Assembler → Prop}
variable (site : Site) {m : Machine Assembler} {step : Option Token} {q p : Syn} {items : List Syn}
  (capture : Option Code → Capture) (c : Capture)

/-- The words with which blocks and lines begin that leave traces before they are read to the end. -/
def keywords : List String := ["startScript", "if", "do", "while", "for"]

/-- A keyword stands at a place, behind the head of the line. -/
def Doomed (text : Array Char) (pos : Nat) : Prop := ∃ k ∈ keywords, Present text k pos

def Tried (text : Array Char) (pos : Nat) (u t : Assembler) : Prop := Peeked text pos u t ∨ Doomed text pos

/-- Blocks are read as outlines say, from a place on. -/
def BlocksFrom (v : Version) (legacy : Bool) (text : Array Char) (fuel low : Nat) : Prop :=
  ∀ pos u skip, low ≤ pos → Triple (· = u) (read (rules v legacy) text fuel blockRef true skip pos)
    (Good v legacy text pos u) (Tried text pos u)

/-- As many blocks as there are have been read from `pos` in state `u`, or a block was given up that
dooms the script. -/
def Filled (v : Version) (legacy : Bool) (text : Array Char) (pos : Nat) (u : Assembler)
    (r : Nat × Found) (t : Assembler) : Prop :=
  (∃ o, Spells v legacy text pos r.1 o ∧ pos ≤ r.1 ∧ HasCodes r.2 o.lines ∧ u.Takes o ∧
    Peeked text r.1 (u.after o) t) ∨ Doomed text r.1

section Bodies

variable {low here : Nat} {t : Assembler} {r : Nat × Found}

theorem doomed_markEnd? {s : String} (h : Doomed text pos)
    (hs : ∀ k ∈ keywords, ¬(k.toList <+: s.toList) ∧ ¬(s.toList <+: k.toList)) : markEnd? text s (headEnd text pos) = none := by
  obtain ⟨k, hk, hpresent⟩ := h
  exact markEnd?_eq_none hpresent (hs k hk)

theorem doomed_brace (h : Doomed text pos) : markEnd? text "\x7d" (headEnd text pos) = none :=
  doomed_markEnd? h (by decide)

theorem good_of_blanks (hhere : skipBlanks text here = skipBlanks text pos) (hle : pos ≤ here)
    (h : Good v legacy text here u r t) : Good v legacy text pos u r t := by
  obtain ⟨o, hspells, hstop, hcodes, htakes, ht⟩ := h
  refine ⟨.seq .skip o, .seq (.nothing hhere) hspells, Nat.le_trans hle hstop, hcodes, takes_seq.2 ⟨takes_skip u, htakes⟩, ?_⟩
  rw [ht, after_seq, after_skip]

theorem tried_of_blanks (hhere : skipBlanks text here = skipBlanks text pos) (h : Tried text here u t) : Tried text pos u t := by
  have hpeeked : Peeked text here u = Peeked text pos u := by
    rw [← peeked_skipBlanks, hhere, peeked_skipBlanks]
  have hdoomed : Doomed text here ↔ Doomed text pos := by
    simp only [Doomed, Present]
    rw [← headEnd_skipBlanks, hhere, headEnd_skipBlanks]
  rwa [Tried, hpeeked, hdoomed] at h

theorem filled_of_good (h : Good v legacy text pos u r t) : Filled v legacy text pos u r t := by
  obtain ⟨o, hspells, hstop, hcodes, htakes, ht⟩ := h
  exact .inl ⟨o, hspells, hstop, hcodes, htakes, .inl ht⟩

theorem filled_of_tried (hhere : skipBlanks text here = skipBlanks text pos) (hle : pos ≤ here)
    (h : Tried text here u t) : Filled v legacy text pos u (here, .nothing) t :=
  h.imp (fun hpeeked => ⟨.skip, .nothing hhere, hle, rfl, takes_skip u, hpeeked⟩) id

theorem triple_repeated_blocks (hblocks : BlocksFrom v legacy text fuel low) (hlow : low ≤ pos) :
    ∀ rounds here found, Triple (Good v legacy text pos u (here, found))
    (repeated (scan v legacy text fuel blockRef true) rounds here found) (Filled v legacy text pos u) E := by
  refine triple_repeated
    (S := fun here found next more t => ∃ o, Spells v legacy text pos here o ∧ pos ≤ here ∧
      HasCodes found o.lines ∧ u.Takes o ∧ Good v legacy text here (u.after o) (next, more) t)
    ?_ ?_ fun _ _ _ => filled_of_good
  · intro here found
    refine triple_intro fun t ht => ?_
    obtain ⟨o, hspells, hstop, hcodes, htakes, rfl⟩ := ht
    refine triple_conseq (hblocks here _ true (Nat.le_trans hlow hstop)) ?_ ?_
    · exact fun r s hs => ⟨o, hspells, hstop, hcodes, htakes, hs⟩
    · exact fun s hs => hs.imp (fun hpeeked => ⟨o, hspells, hstop, hcodes, htakes, hpeeked⟩) id
  · intro here found next more
    refine triple_intro fun t ht => ?_
    obtain ⟨o, hspells, hle, hcodes, htakes, o', hspells', hle', hcodes', htakes', rfl⟩ := ht
    refine triple_post (triple_extend_codes hcodes hcodes') fun r s hs => ?_
    refine ⟨.seq o o', .seq hspells hspells', Nat.le_trans hle hle', hs.1, takes_seq.2 ⟨htakes, htakes'⟩, ?_⟩
    rw [hs.2, after_seq]

theorem skipBlanks_seat (p : Syn) : skipBlanks text (seat text p skip pos) = skipBlanks text pos := by
  unfold seat
  split
  · exact skipBlanks_skipBlanks
  · rfl

section

variable (hblocks : BlocksFrom v legacy text fuel low)

include hblocks

theorem triple_someBlocks (hlow : low ≤ pos) : Triple (· = u) (scan v legacy text (fuel + 1) (.some blockRef) skip pos)
    (Filled v legacy text pos u) (Tried text pos u) := by
  have hle := le_seat text blockRef skip pos
  refine triple_some ?_ fun stop found => triple_repeated_blocks hblocks hlow _ _ _
  exact triple_conseq (hblocks _ u false (Nat.le_trans hlow hle))
    (fun _ _ => good_of_blanks (skipBlanks_seat _) hle) fun _ => tried_of_blanks (skipBlanks_seat _)

theorem triple_manyBlocks (hlow : low ≤ pos) :
    Triple (· = u) (scan v legacy text (fuel + 1) (.many blockRef) skip pos) (Filled v legacy text pos u) E := by
  have hle := le_seat text blockRef skip pos
  refine triple_many ?_ fun stop found => triple_repeated_blocks hblocks hlow _ _ _
  exact triple_conseq (hblocks _ u false (Nat.le_trans hlow hle)) (fun _ _ => good_of_blanks (skipBlanks_seat _) hle)
    fun _ => filled_of_tried (skipBlanks_seat _) hle

theorem triple_optBlocks (hlow : low ≤ pos) : Triple (· = u) (scan v legacy text (fuel + 2) (.opt (.some blockRef)) skip pos)
    (Filled v legacy text pos u) E := by
  have hle := le_seat text (.some blockRef) skip pos
  have hblanks : skipBlanks text (seat text (.some blockRef) skip pos) = skipBlanks text pos :=
    skipBlanks_seat _
  refine triple_opt (triple_conseq (triple_someBlocks hblocks (Nat.le_trans hlow hle))
    (fun r t ht => ?_) fun t ht => filled_of_tried hblanks hle ht)
  refine ht.imp (fun hgood => ?_) id
  obtain ⟨o, hspells, hstop, hcodes, htakes, hpeeked⟩ := hgood
  refine ⟨.seq .skip o, .seq (.nothing hblanks) hspells, Nat.le_trans hle hstop, hcodes, takes_seq.2 ⟨takes_skip u, htakes⟩, ?_⟩
  exact hpeeked

end

theorem triple_items_blocks {P : Assembler → Prop}
    (hp : Triple P (scan v legacy text fuel p true pos) (Filled v legacy text pos u) E) (hfound : HasCodes found codes)
    (hitems : ∀ k found body t, Spells v legacy text pos k body → pos ≤ k → u.Takes body →
    HasCodes found (codes ++ body.lines) → Peeked text k (u.after body) t →
    Triple (· = t) (readItems (rules v legacy) text fuel true items (k, found)) Q E)
    (hdoomed : ∀ k found, Doomed text k → Triple (fun _ => True)
    (readItems (rules v legacy) text fuel true items (k, found)) Q E) :
    Triple P (readItems (rules v legacy) text fuel true (p :: items) (pos, found)) Q E := by
  refine triple_items_then (triple_post hp ?_)
  rintro ⟨k, more⟩ t (⟨body, hspells, hle, hcodes, htakes, hpeeked⟩ | hk)
  · refine triple_post (triple_extend_codes hfound hcodes) ?_
    rintro joined _ ⟨hjoined, rfl⟩
    exact hitems k joined body _ hspells hle htakes hjoined hpeeked
  · refine triple_post triple_extend fun joined s _ => ?_
    exact triple_pre (hdoomed k joined hk) fun _ _ => trivial

theorem BlocksFrom.later {low' : Nat} (h : BlocksFrom v legacy text fuel low) (hle : low ≤ low') :
    BlocksFrom v legacy text fuel low' := fun pos u skip hpos => h pos u skip (Nat.le_trans hle hpos)

end Bodies

/-! ### Loops -/

def Assembler.inLoop (a : Assembler) (start : Nat) (step : Option Token) : Assembler :=
  { a with loops := ⟨start, step⟩ :: a.loops }

def Assembler.stepped (a : Assembler) (ns : List Note) : Assembler := a.moved (a.line + 1) (a.ledger.noteAll ns)

def whileNotes (start back : Nat) : List Note :=
  [.label (.block .whileLoop start 0) start, .jump (.block .whileLoop start 0) back,
    .label (.block .whileLoop start 1) back, .jump (.block .whileLoop start 1) start]

theorem after_whileLoop (u : Assembler) (code : Code) (body : Outline) : u.after (.whileLoop code body)
    = (u.next.after body).stepped (whileNotes u.line (u.next.after body).line) := by
  simp [Assembler.after, Assembler.stepped, Assembler.moved, Assembler.ledger, Assembler.next,
    Outline.notes, Outline.count, Outline.lines, whileNotes]
  omega

theorem takes_whileLoop {u : Assembler} : u.Takes (.whileLoop code body) ↔ u.next.Takes body := by
  simp [Assembler.Takes, Outline.notes, Ledger.allowsAll_append, Ledger.allowsAll, Ledger.allows,
    Assembler.next, Assembler.ledger]

def doNotes (start line : Nat) : List Note :=
  [.label (.block .doLoop start 0) start, .jump (.block .doLoop start 0) line]

theorem after_doLoop (u : Assembler) (code : Code) (body : Outline) :
    u.after (.doLoop body code) = (u.after body).stepped (doNotes u.line (u.after body).line) := by
  simp [Assembler.after, Assembler.stepped, Assembler.moved, Assembler.ledger, Outline.notes,
    Outline.count, Outline.lines, doNotes]
  omega

theorem takes_doLoop {u : Assembler} : u.Takes (.doLoop body code) ↔ u.Takes body := by
  simp [Assembler.Takes, Outline.notes, Ledger.allowsAll_append, Ledger.allowsAll, Ledger.allows]

def Assembler.skipped (a : Assembler) (n : Nat) : Assembler := { a with line := a.line + n }

def forNotes (start back : Nat) : List Note :=
  [.label (.block .forLoop start 0) start, .jump (.block .forLoop start 0) back,
    .label (.block .forLoop start 1) (back + 1), .jump (.block .forLoop start 1) start]

theorem after_forLoop (u : Assembler) (first step : Option Code) (code : Code) (body : Outline) :
    u.after (.forLoop first code step body)
    = (((u.skipped first.toList.length).next.after body).skipped step.toList.length).stepped
    (forNotes (u.skipped first.toList.length).line
    (((u.skipped first.toList.length).next.after body).skipped step.toList.length).line) := by
  simp [Assembler.after, Assembler.stepped, Assembler.moved, Assembler.ledger, Assembler.next,
    Assembler.skipped, Outline.notes, Outline.count, Outline.lines, forNotes]
  omega

theorem takes_forLoop {u : Assembler} {first step : Option Code} :
    u.Takes (.forLoop first code step body) ↔ (u.skipped first.toList.length).next.Takes body := by
  simp [Assembler.Takes, Outline.notes, Ledger.allowsAll_append, Ledger.allowsAll, Ledger.allows,
    Assembler.next, Assembler.skipped, Assembler.ledger]

theorem triple_header {k : String} (hk : k ≠ "") (hfresh : Fresh text skip pos) : Triple (· = u) (scan v legacy text (fuel + 3)
    (.seq [mark k, mark "(", test v legacy, mark ")", mark "\x7b"]) skip pos)
    (fun r t => (∃ code, SpellsHead v legacy text k pos r.1 code ∧ pos < r.1 ∧ r.1 ≤ text.size ∧
    r.2 = .own ⟨[.code code], []⟩) ∧ t = u) (· = u) := by
  refine triple_seq_mark hfresh (fun _ _ => id) fun a ha => ?_
  refine triple_items_mark (fun _ _ => id) fun b hb => ?_
  refine triple_items_emitter (emitter_test v legacy) rfl fun c code hc htest => ?_
  refine triple_items_mark (fun _ _ => id) fun d hd => ?_
  refine triple_items_mark (fun _ _ => id) fun stop hstop => ?_
  exact triple_items_nil fun t ht => ⟨⟨code, .mk ha hb htest hd hstop, by grind, by grind, rfl⟩, ht⟩

theorem triple_opened {C : Nat → List Code → Assembler → Prop} (hE : ∀ t, Peeked text pos u t → E t)
    (hq : u.Takes (atHead text pos) → Triple (· = u.after (atHead text pos))
    (scan v legacy text (fuel + 7) q true (headEnd text pos))
    (fun r t => ∃ codes, HasCodes r.2 codes ∧ C r.1 codes t) (· = u.after (atHead text pos)))
    (hitems : ∀ a codes found t, HasCodes found codes → C a codes t → u.Takes (atHead text pos) →
    Triple (· = t) (readItems (rules v legacy) text (fuel + 8) true items (tailEnd text a, found)) Q E) : Triple (Peeked text pos u)
    (scan v legacy text (fuel + 9) (.seq (blockLine q :: items)) true pos) Q E := by
  refine triple_seq_then ?_
  rw [← peeked_skipBlanks]
  refine triple_post (triple_blockLine (Q := fun a codes t => C a codes t ∧
    u.Takes (atHead text pos)) fresh_skipBlanks fun htakes => ?_) ?_
  · simp only [headEnd_skipBlanks, atHead_skipBlanks] at htakes ⊢
    refine triple_conseq (hq htakes) ?_ fun t ht => hE t (.inr ⟨htakes, ht⟩)
    rintro r t ⟨codes, hcodes, hC⟩
    exact ⟨codes, hcodes, hC, htakes⟩
  · rintro ⟨_, found⟩ t ⟨a, codes, rfl, hcodes, hC, htakes⟩
    exact hitems a codes found.settle t hcodes.settle hC htakes

theorem triple_closer {Q : Nat → List Code → Assembler → Prop}
    (hf : ∀ stop, markEnd? text "\x7d" (headEnd text pos) = some stop → w.Takes (atHead text pos) →
    Triple (· = w.after (atHead text pos)) (perform f ⟨text, headEnd text pos⟩ .nothing)
    (fun found t => ∃ codes, HasCodes found codes ∧ Q stop codes t) E) (hE : ∀ t, E t) :
    Triple (Peeked text pos w) (scan v legacy text (fuel + 8) (blockLine (.act f (mark "\x7d"))) true pos)
    (fun r t => ∃ stop codes, r.1 = tailEnd text stop ∧ HasCodes r.2 codes ∧ Q stop codes t) E := by
  refine triple_blockLine fresh_true fun htakes => ?_
  refine triple_act_then (triple_conseq (triple_mark fresh_true) ?_ fun _ _ => hE _)
  rintro ⟨stop, _⟩ _ ⟨hstop, rfl, rfl⟩
  exact hf stop hstop htakes

theorem refused_closer (h : Doomed text pos) :
    Refused (scan v legacy text (fuel + 8) (blockLine (.act f (mark "\x7d"))) true pos) :=
  refused_blockLine (.act (opens_mark _)) fresh_true (doomed_brace h)

theorem triple_loopBody {C : Nat → Assembler → Nat → List Code → Assembler → Prop}
    (hblocks : BlocksFrom v legacy text (fuel + 7) pos) (hfound : HasCodes found codes)
    (hclose : ∀ k w, Triple (Peeked text k (Assembler.inLoop w start step)) (scan v legacy text (fuel + 8) q true k)
    (fun r t => ∃ l, HasCodes r.2 l ∧ C k w r.1 l t) E)
    (hdoomed : ∀ k, Doomed text k → Refused (scan v legacy text (fuel + 8) q true k)) (hE : ∀ t, E t)
    (hQ : ∀ body k stop found l t, Spells v legacy text pos k body → pos ≤ k → w.Takes body →
    C k (w.after body) stop l t → HasCodes found (codes ++ body.lines ++ l) → Q (stop, found) t) :
    Triple (· = w.inLoop start step) (readItems (rules v legacy) text (fuel + 8) true [.some blockRef, q] (pos, found)) Q E := by
  refine triple_items_blocks
    (triple_fails (triple_someBlocks hblocks (Nat.le_refl pos)) fun _ _ => hE _) hfound ?_
    fun k found hk => triple_items_none ((hdoomed k hk).triple hE)
  intro k found body t hspells hle htakes hcodes hpeeked
  refine triple_items_codes (triple_pre (hclose k (w.after body)) fun s hs => hs ▸ hpeeked) hcodes ?_
  rintro last more s ⟨l, hmore, hC⟩
  refine ⟨l, hmore, fun found hfound => triple_items_nil fun s' hs => ?_⟩
  exact hQ body k last found l s' hspells hle htakes (hs ▸ hC) hfound

theorem SpellsHead.present {k : String} {stop : Nat}
    (h : SpellsHead v legacy text k (headEnd text pos) stop code) : Present text k pos := by
  obtain ⟨ha, -⟩ := h
  simp [Present, ha]

/-- The body of a loop and the brace that ends it, with an action that gives the code `l` and goes on
in state `g`. -/
theorem triple_braced {l : List Code} {g : Assembler → Assembler}
    (hblocks : BlocksFrom v legacy text (fuel + 7) pos) (hfound : HasCodes found codes)
    (hrun : ∀ {w : Assembler} {site : Site} {c : Capture} {m : Machine Assembler}, m.user = w.inLoop start step →
    (f site c).run.run m = (.ok (.tokens (l.map .code)), { m with user := g w }))
    (hE : ∀ t, E t)
    (hQ : ∀ body k b found, Spells v legacy text pos k body → pos ≤ k →
      markEnd? text "\x7d" (headEnd text k) = some b → w.Takes (.seq body (atHead text k)) →
      HasCodes found (codes ++ body.lines ++ l) →
      Q (tailEnd text b, found) (g (w.after (.seq body (atHead text k))))) :
    Triple (· = w.inLoop start step) (readItems (rules v legacy) text (fuel + 8) true
      [.some blockRef, blockLine (.act f (mark "\x7d"))] (pos, found)) Q E := by
  refine triple_loopBody (C := fun k w stop codes t => codes = l ∧ w.Takes (atHead text k) ∧
      ∃ b, markEnd? text "\x7d" (headEnd text k) = some b ∧ stop = tailEnd text b ∧
      t = g (w.after (atHead text k))) hblocks hfound (fun k w => ?_)
    (fun k hk => refused_closer hk) hE ?_
  · refine triple_post (triple_closer (Q := fun b codes t => codes = l ∧
      markEnd? text "\x7d" (headEnd text k) = some b ∧ w.Takes (atHead text k) ∧
      t = g (w.after (atHead text k))) (fun b hb htakes => ?_) hE) ?_
    · exact triple_perform_run
        (g := fun _ => g (w.after (atHead text k))) (fun m hm => hrun hm)
        fun t _ => ⟨l, rfl, rfl, hb, htakes, rfl⟩
    · rintro r t ⟨b, codes, hr, hcodes, hl, hb, htakes, ht⟩
      exact ⟨codes, hcodes, hl, htakes, b, hb, hr, ht⟩
  · rintro body k _ found _ _ hbody hk htakes ⟨rfl, htakesHead, b, hb, rfl, rfl⟩ hfound
    rw [← after_seq]
    exact hQ body k b found hbody hk hb (takes_seq.2 ⟨htakes, htakesHead⟩) hfound

theorem triple_whileBlock (hblocks : pos < text.size → BlocksFrom v legacy text (fuel + 8) (pos + 1)) : Triple (Peeked text pos u)
    (scan v legacy text (fuel + 10) (whileBlock v legacy) true pos)
    (Good v legacy text pos u) (fun t => Peeked text pos u t ∨ Present text "while" pos) := by
  refine triple_opened (C := fun a codes t => ∃ code, codes = [code ++ hole] ∧
      SpellsHead v legacy text "while" (headEnd text pos) a code ∧ headEnd text pos < a ∧
      a ≤ text.size ∧ t = (u.after (atHead text pos)).next.inLoop (u.after (atHead text pos)).line none)
    (fun _ => .inl) (fun _ => ?_) ?_
  · refine triple_act_then (triple_post (triple_header (by decide) fresh_true) ?_)
    rintro ⟨a, _⟩ _ ⟨⟨code, hspells, hlt, hsize, rfl⟩, rfl⟩
    exact triple_perform_run
      (g := fun s => s.next.inLoop s.line none) (fun m _ => rfl)
      fun t ht => ⟨[code ++ hole], rfl, code, rfl, hspells, hlt, hsize, by rw [ht]⟩
  · rintro a _ found _ hcodes ⟨code, rfl, hspells, hlt, hsize, rfl⟩ htakes
    have hpresent : Present text "while" pos := hspells.present
    refine triple_braced (l := [openJump]) (g := fun w => w.stepped (whileNotes (u.after (atHead text pos)).line w.line))
      ((hblocks (by grind)).later (by grind)) hcodes (by rintro w site c ⟨furthest, store, user⟩ rfl; rfl) (fun _ => .inr hpresent) ?_
    intro body k b found hbody hk hb htakesBody hfound
    refine ⟨.seq (atHead text pos) (.whileLoop code (.seq body (atHead text k))),
      .whileLoop hspells hbody hb, by grind, ?_,
      takes_seq.2 ⟨htakes, takes_whileLoop.2 htakesBody⟩, ?_⟩
    · simpa [Outline.lines, lines_atHead] using hfound
    · rw [after_seq u, after_whileLoop]

/-- The line at `k` that ends a do loop, read in state `w`. -/
def EndsDo (v : Version) (legacy : Bool) (text : Array Char) (start k : Nat) (w : Assembler)
    (stop : Nat) (codes : List Code) (t : Assembler) : Prop :=
  ∃ b c d e f code, markEnd? text "\x7d" (headEnd text k) = some b ∧
    markEnd? text "while" b = some c ∧ markEnd? text "(" c = some d ∧
    Yields v legacy text (test v legacy) d e code ∧ d ≤ e ∧ markEnd? text ")" e = some f ∧
    stop = tailEnd text f ∧ codes = [code ++ hole] ∧ w.Takes (atHead text k) ∧
    t = (w.after (atHead text k)).stepped (doNotes start (w.after (atHead text k)).line)

theorem triple_doEnd (hE : ∀ t, E t) : Triple (Peeked text pos (w.inLoop start none))
    (scan v legacy text (fuel + 11) (blockLine (.act doEndAction
    (.seq [mark "\x7d", mark "while", mark "(", test v legacy, mark ")"]))) true pos)
    (fun r t => ∃ codes, HasCodes r.2 codes ∧ EndsDo v legacy text start pos w r.1 codes t) E := by
  refine triple_post (triple_blockLine (Q := fun f codes t =>
    EndsDo v legacy text start pos w (tailEnd text f) codes t) fresh_true fun htakes => ?_) ?_
  · refine triple_act_then (triple_seq_mark fresh_true (fun t _ _ => hE t) fun b hb => ?_)
    refine triple_items_mark (fun t _ _ => hE t) fun c hc => ?_
    refine triple_items_mark (fun t _ _ => hE t) fun d hd => ?_
    refine triple_items_emitter (emitter_test v legacy) (hE _) fun e code he htest => ?_
    refine triple_items_mark (fun t _ _ => hE t) fun f hf => triple_items_nil ?_
    rintro _ rfl
    refine triple_perform_run (r := .tokens [.code (code ++ hole)])
      (fun m hm => ?_) fun t _ =>
      ⟨[code ++ hole], rfl, b, c, d, e, f, code, hb, hc, hd, htest, he, hf, rfl, rfl, htakes, rfl⟩
    obtain ⟨furthest, store, user⟩ := m
    obtain rfl : user = (w.after (atHead text pos)).inLoop start none := hm
    rfl
  · rintro r t ⟨f, codes, hr, hcodes, hends⟩
    exact ⟨codes, hcodes, hr ▸ hends⟩

theorem triple_doBlock (hblocks : pos < text.size → BlocksFrom v legacy text (fuel + 10) (pos + 1)) : Triple (Peeked text pos u)
    (scan v legacy text (fuel + 12) (doBlock v legacy) true pos)
    (Good v legacy text pos u) (fun t => Peeked text pos u t ∨ Present text "do" pos) := by
  refine triple_opened (C := fun b codes t => ∃ a, codes = [] ∧
      markEnd? text "do" (headEnd text pos) = some a ∧ markEnd? text "\x7b" a = some b ∧
      t = (u.after (atHead text pos)).inLoop (u.after (atHead text pos)).line none)
    (fun _ => .inl) (fun _ => ?_) ?_
  · refine triple_act_then (triple_seq_mark fresh_true (fun _ _ => id) fun a ha => ?_)
    refine triple_items_mark (fun _ _ => id) fun b hb => triple_items_nil ?_
    rintro _ rfl
    exact triple_perform_run (r := .tokens []) (g := fun s => s.inLoop s.line none)
      (fun m _ => rfl) fun t ht => ⟨[], rfl, a, rfl, ha, hb, by rw [ht]⟩
  · rintro b _ found _ hcodes ⟨a, rfl, ha, hb, rfl⟩ htakes
    have hpresent : Present text "do" pos := by simp [Present, ha]
    refine triple_loopBody
      ((hblocks (by grind)).later (by grind)) hcodes (fun k w => triple_doEnd fun _ => .inr hpresent)
      (fun k hk => refused_blockLine (.act (.seq (opens_mark _))) fresh_true (doomed_brace hk))
      (fun _ => .inr hpresent) ?_
    rintro body k stop found l t hbody hk htakesBody
      ⟨c, d, e, f, g, code, hc, hd, he, htest, hf, hg, rfl, rfl, htakesHead, rfl⟩ hfound
    refine ⟨.seq (atHead text pos) (.doLoop (.seq body (atHead text k)) code),
      .doLoop ha hb hbody hc hd he htest hg, by grind, ?_, ?_, ?_⟩
    · simpa [Outline.lines, lines_atHead] using hfound
    · exact takes_seq.2 ⟨htakes, takes_doLoop.2 (takes_seq.2 ⟨htakesBody, htakesHead⟩)⟩
    · rw [after_seq u, after_doLoop, after_seq]

/-! ### For loops -/

def firstCapture : Option Code → Capture
  | none => .empty
  | some code => ⟨[.code code], [("init", .group [.code code] [])]⟩

def testCapture (code : Code) : Capture := ⟨[.group [.code code] []], [("test", .group [.code code] [])]⟩

def stepCapture : Option Code → Capture
  | none => .empty
  | some code => ⟨[.code code], [("increm", .code code)]⟩

def forCapture (first : Option Code) (code : Code) (step : Option Code) : Capture :=
  (Capture.empty ++ firstCapture first) ++ testCapture code ++ stepCapture step

/-- A step that replies with code of at least one byte. -/
def Solid (x : Build Reply) : Prop := ∀ m r m', x.run.run m = (.ok r, m') → ∃ code, r = .tokens [.code code] ∧ code ≠ []

theorem solid_bind {α : Type} {x : Build α} {f : α → Build Reply} (hf : ∀ a, Solid (f a)) : Solid (x >>= f) := by
  intro m r m' h
  obtain ⟨a, m₁, -, h⟩ := gets_bind.1 h
  exact hf a m₁ r m' h

theorem solid_emit (h : code ≠ []) : Solid (emit code) := by
  intro m r m' hrun
  exact ⟨code, (Except.ok.inj (Prod.ext_iff.1 hrun).1).symm, h⟩

theorem solid_inline : Solid (inlineAction site c) :=
  solid_bind fun _ => solid_bind fun _ => solid_bind fun _ => solid_emit nofun

theorem solid_count : Solid (countAction site c) :=
  solid_bind fun _ => solid_bind fun _ => solid_emit nofun

theorem triple_solid (hf : ∀ site c, Solid (f site c)) : Triple (fun _ => True) (scan v legacy text fuel (.act f q) skip pos)
    (fun r _ => ∃ code, r.2 = .own ⟨[.code code], []⟩ ∧ code ≠ []) (fun _ => True) := by
  rcases fuel with _ | fuel
  · exact triple_empty fun _ => id
  refine triple_act triple_true fun stop found => triple_perform (fun m r m' _ hr => ?_) fun _ _ _ _ _ => trivial
  obtain ⟨code, rfl, hne⟩ := hf _ _ m r m' hr
  exact ⟨code, rfl, hne⟩

theorem yields_step_ne_nil {stop : Nat}
    (h : Yields v legacy text (.first [inlineOperation, count]) pos stop code) : code ≠ [] := by
  obtain ⟨fuel, skip, m, m', hrun⟩ := h
  have hsolid : Triple (fun _ => True) (scan v legacy text fuel (.first [inlineOperation, count]) skip pos)
      (fun r _ => ∃ code, r.2 = .own ⟨[.code code], []⟩ ∧ code ≠ []) (fun _ => True) := by
    rcases fuel with _ | fuel
    · exact triple_empty fun _ => id
    refine triple_first (triple_firstOf ?_ fun _ => id)
    simp only [List.forall_mem_singleton, List.forall_mem_cons]
    exact ⟨triple_solid solid_inline, triple_solid solid_count⟩
  have hfound := hsolid m trivial
  rw [hrun] at hfound
  obtain ⟨code', hcode, hne⟩ := hfound
  cases hcode
  exact hne

theorem triple_named_optional {name : String}
    (hp : Emitter p) (hfile : ∀ {here stop code m}, Yields v legacy text p here stop code →
    ((Found.own ⟨[.code code], []⟩).file name (Pattern.opt p).filesAll : Build Found).run.run m
    = (.ok (.own (capture (some code))), m)) : Triple (· = u) (scan v legacy text (fuel + 2) (.named name (.opt p)) true pos)
    (fun r t => (∃ code, SpellsOptional v legacy text p pos r.1 code ∧ pos ≤ r.1 ∧
    (r.2 = .nothing ∧ code = none ∨ r.2 = .own (capture code))) ∧ t = u) (fun _ => False) := by
  have hle := le_seat text p true pos
  have hblanks : skipBlanks text (seat text p true pos) = skipBlanks text pos := skipBlanks_seat _
  refine triple_named_then (triple_opt (triple_conseq (triple_emitter hp) ?_ ?_))
  · rintro ⟨stop, _⟩ _ ⟨hstop, ⟨code, rfl, hyields⟩, rfl⟩ m hm
    rw [hfile hyields]
    exact ⟨⟨some code, .present hblanks hyields, Nat.le_trans hle hstop, .inr rfl⟩, hm⟩
  · rintro _ rfl m hm
    exact ⟨⟨none, .absent hblanks, hle, .inl ⟨rfl, rfl⟩⟩, hm⟩

theorem triple_groupedTest : Triple (· = u) (scan v legacy text (fuel + 2) (.named "test" (.group (test v legacy))) true pos)
    (fun r t => (∃ code, Yields v legacy text (test v legacy) pos r.1 code ∧ pos ≤ r.1 ∧
    r.2 = .own (testCapture code)) ∧ t = u) (· = u) := by
  refine triple_named_then (triple_group (triple_post (triple_emitter (emitter_test v legacy)) ?_))
  rintro ⟨stop, _⟩ _ ⟨hstop, ⟨code, rfl, hyields⟩, rfl⟩ m hm
  exact ⟨⟨code, hyields, hstop, rfl⟩, hm⟩

theorem behind_optional (hnone : capture none = .empty) (c : Capture)
    {code : Option Code} (h : found = .nothing ∧ code = none ∨ found = .own (capture code)) :
    found.behind c = some (.own (c ++ capture code)) := by
  rcases h with ⟨rfl, rfl⟩ | rfl
  · rw [hnone, capture_append_empty]
    rfl
  · rfl

theorem triple_forHead (hfresh : Fresh text skip pos) : Triple (· = u) (scan v legacy text (fuel + 3) (.seq [mark "for", mark "(",
    .named "init" (.opt inlineOperation), mark ";", .named "test" (.group (test v legacy)), mark ";",
    .named "increm" (.opt (.first [inlineOperation, count])), mark ")", mark "\x7b"]) skip pos)
    (fun r t => (∃ first code step, SpellsFor v legacy text pos r.1 first code step ∧ pos < r.1 ∧
    r.1 ≤ text.size ∧ r.2 = .own (forCapture first code step)) ∧ t = u) (· = u) := by
  refine triple_seq_mark hfresh (fun _ _ => id) fun a ha => ?_
  refine triple_items_mark (fun _ _ => id) fun b hb => ?_
  refine triple_items_next (triple_never (triple_named_optional firstCapture emitter_inlineOperation fun _ => rfl)) ?_
  rintro c more _ ⟨⟨first, hfirst, hbc, hmore⟩, rfl⟩
  refine ⟨_, behind_optional firstCapture rfl _ hmore, ?_⟩
  refine triple_items_mark (fun _ _ => id) fun d hd => ?_
  refine triple_items_next triple_groupedTest ?_
  rintro e _ _ ⟨⟨code, htest, hde, rfl⟩, rfl⟩
  refine ⟨_, rfl, ?_⟩
  refine triple_items_mark (fun _ _ => id) fun f hf => ?_
  refine triple_items_next (triple_never (triple_named_optional stepCapture
    (.first (by simp [emitter_inlineOperation, emitter_count])) fun {_ _ code _} hyields => ?_)) ?_
  · cases code with
    | nil => exact absurd rfl (yields_step_ne_nil hyields)
    | cons b bs => rfl
  rintro g more _ ⟨⟨step, hstep, hfg, hmore⟩, rfl⟩
  refine ⟨_, behind_optional stepCapture rfl _ hmore, ?_⟩
  refine triple_items_mark (fun _ _ => id) fun h hh => ?_
  refine triple_items_mark (fun _ _ => id) fun stop hstop => ?_
  exact triple_items_nil fun t ht =>
    ⟨⟨first, code, step, .mk ha hb hfirst hd htest hf hstep hh hstop, by grind, by grind, rfl⟩, ht⟩

theorem triple_forBlock (hblocks : pos < text.size → BlocksFrom v legacy text (fuel + 8) (pos + 1)) : Triple (Peeked text pos u)
    (scan v legacy text (fuel + 10) (forBlock v legacy) true pos)
    (Good v legacy text pos u) (fun t => Peeked text pos u t ∨ Present text "for" pos) := by
  refine triple_opened (C := fun a codes t => ∃ first code step, codes = first.toList ++ [code ++ hole] ∧
      SpellsFor v legacy text (headEnd text pos) a first code step ∧ headEnd text pos < a ∧
      a ≤ text.size ∧ t = ((u.after (atHead text pos)).skipped first.toList.length).next.inLoop
        ((u.after (atHead text pos)).skipped first.toList.length).line (step.map .code))
    (fun _ => .inl) (fun _ => ?_) ?_
  · refine triple_act_then (triple_post (triple_forHead fresh_true) ?_)
    rintro ⟨a, _⟩ _ ⟨⟨first, code, step, hspells, hlt, hsize, rfl⟩, rfl⟩
    exact triple_perform_run (r := .tokens ((first.toList ++ [code ++ hole]).map .code))
      (g := fun s => (s.skipped first.toList.length).next.inLoop
        (s.skipped first.toList.length).line (step.map .code))
      (fun m _ => by cases first <;> cases step <;> rfl) fun t ht =>
      ⟨_, rfl, first, code, step, rfl, hspells, hlt, hsize, by rw [ht]⟩
  · rintro a _ found _ hcodes ⟨first, code, step, rfl, hspells, hlt, hsize, rfl⟩ htakes
    have hpresent : Present text "for" pos := by
      obtain ⟨ha, -⟩ := hspells
      simp [Present, ha]
    refine triple_braced (l := step.toList ++ [openJump]) (g := fun w => (w.skipped step.toList.length).stepped
        (forNotes ((u.after (atHead text pos)).skipped first.toList.length).line (w.skipped step.toList.length).line))
      ((hblocks (by grind)).later (by grind)) hcodes (by rintro w site c ⟨furthest, store, user⟩ rfl; cases step <;> rfl)
      (fun _ => .inr hpresent) ?_
    intro body k b found hbody hk hb htakesBody hfound
    refine ⟨.seq (atHead text pos) (.forLoop first code step (.seq body (atHead text k))),
      .forLoop hspells hbody hb, by grind, ?_,
      takes_seq.2 ⟨htakes, takes_forLoop.2 htakesBody⟩, ?_⟩
    · simpa [Outline.lines, lines_atHead] using hfound
    · rw [after_seq u, after_forLoop]

end ScummKit.Script
