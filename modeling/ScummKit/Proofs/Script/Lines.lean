import ScummKit.Proofs.Script.Heads

/-!
# Reading lines

A line with one construct is read as an outline says (`triple_plainLine`): it leaves the notes of the
outline behind and gives its code, and if it is given up, at most its label was noted.
-/

namespace ScummKit.Script

open Grammar Build Lexicon Special Statement List

variable {p : Syn} {items : List Syn} {c : Capture}
variable {v : Version} {legacy : Bool} {text : Array Char} {fuel pos : Nat} {acting skip : Bool}
variable {u : Assembler} {P E : Assembler → Prop} {site : Site}

/-! ### Places -/

section Places

variable {stop : Nat}

theorem standsAt_le_size {cs : List Char} (hne : cs ≠ []) (h : standsAt text cs pos = true) : pos + cs.length ≤ text.size := by
  induction cs generalizing pos with
  | nil => exact absurd rfl hne
  | cons c cs ih =>
    rw [standsAt, Bool.and_eq_true, beq_iff_eq] at h
    obtain ⟨hlt, -⟩ := Array.getElem?_eq_some_iff.1 h.1
    rw [length_cons]
    by_cases hcs : cs = []
    · subst hcs
      exact Nat.succ_le_of_lt hlt
    · have := ih hcs h.2
      omega

@[grind →] theorem markEnd?_bounds {s : String} (h : markEnd? text s pos = some stop) (hs : s ≠ "") :
    pos < stop ∧ stop ≤ text.size := by
  obtain ⟨hstands, hstop⟩ := Option.ite_none_right_eq_some.1 h
  have hne : s.toList ≠ [] := by simpa using hs
  have hsize := standsAt_le_size hne hstands
  grind [String.length_toList, length_pos_iff]

@[grind →] theorem nameAt?_lt {name : Name} (h : nameAt? text pos = some (name, stop)) : pos < stop := by grind [nameAt?]

@[grind! .] theorem le_labelEnd : pos ≤ labelEnd text pos := by
  cases hb : bracketed? text pos with
  | none =>
    rw [labelEnd_of_none hb]
    exact le_skipBlanks text pos
  | some r =>
    rw [labelEnd_of_bracketed? hb]
    simp only [bracketed?, Option.bind_eq_bind, Option.bind_eq_some_iff] at hb
    grind

@[grind →] theorem le_byteEnd? (h : byteEnd? text pos = some stop) : pos ≤ stop := by
  rw [byteEnd?] at h
  grind [Option.or_eq_some_iff, Option.map_eq_some_iff]

@[grind! .] theorem le_headEnd : pos ≤ headEnd text pos := by
  rw [headEnd]
  cases hl : listedEnd? text (labelEnd text pos) with
  | none => grind
  | some stop =>
    simp only [listedEnd?, Option.bind_eq_bind, Option.bind_eq_some_iff] at hl
    grind

@[grind →] theorem le_remarkEnd? (h : remarkEnd? text pos = some stop) : pos ≤ stop := by
  obtain ⟨-, hend⟩ := Option.ite_none_right_eq_some.1 h
  grind

@[grind! .] theorem le_tailEnd : pos ≤ tailEnd text pos := by cases h : remarkEnd? text pos <;> grind [tailEnd]

@[grind! .] theorem le_optionalEnd {s : String} (hs : s ≠ "") : pos ≤ optionalEnd text s pos := by
  cases h : markEnd? text s pos <;> grind [optionalEnd]

theorem standsAt_or {cs ds : List Char} (hc : standsAt text cs pos = true)
    (hd : standsAt text ds pos = true) : cs <+: ds ∨ ds <+: cs := by
  induction cs generalizing ds pos with
  | nil => exact .inl (by simp)
  | cons c cs ih =>
    cases ds with
    | nil => exact .inr (by simp)
    | cons d ds =>
      rw [standsAt, Bool.and_eq_true, beq_iff_eq] at hc hd
      obtain rfl : c = d := Option.some.inj (hc.1.symm.trans hd.1)
      simpa [cons_prefix_cons] using ih hc.2 hd.2

theorem markEnd?_eq_none {s t : String} (h : (markEnd? text s pos).isSome)
    (hst : ¬(s.toList <+: t.toList) ∧ ¬(t.toList <+: s.toList)) : markEnd? text t pos = none := by
  obtain ⟨stop, hs⟩ := Option.isSome_iff_exists.1 h
  obtain ⟨hs, -⟩ := Option.ite_none_right_eq_some.1 hs
  refine if_neg fun ht => ?_
  exact (standsAt_or hs ht).elim hst.1 hst.2

end Places

/-! ### Pieces of code -/

/-- What was found holds these pieces of code and no other tokens. -/
def HasCodes : Found → List Code → Prop
  | .nothing, codes => codes = []
  | .own c, codes => c.tokens = codes.map .code
  | .stored _, _ => False

section Codes

variable {found more : Found} {codes next : List Code}

theorem hasCodes_nothing : HasCodes .nothing [] := rfl

theorem hasCodes_empty : HasCodes (.own .empty) [] := rfl

theorem HasCodes.settle (h : HasCodes found codes) : HasCodes found.settle codes := by
  cases found with
  | nothing => rw [h]; rfl
  | own c => exact h
  | stored i => exact h.elim

theorem triple_extend_codes (h : HasCodes found codes) (hmore : HasCodes more next) :
    Triple P (found.extend more) (fun r t => HasCodes r (codes ++ next) ∧ P t) E := by
  cases more with
  | nothing =>
    rw [hmore, append_nil]
    cases found with
    | nothing =>
      rw [h]
      exact fun m hm => ⟨rfl, hm⟩
    | own c => exact triple_post triple_extend_nothing fun r t ht => ⟨ht.2 ▸ h, ht.1⟩
    | stored i => exact h.elim
  | own d =>
    have hd : d.tokens = next.map .code := hmore
    cases found with
    | nothing =>
      rw [h]
      exact fun m hm => ⟨hd, hm⟩
    | own c =>
      have hc : c.tokens = codes.map .code := h
      refine triple_post triple_extend_own fun r t ht => ⟨?_, ht.1⟩
      rw [ht.2]
      change c.tokens ++ d.tokens = _
      rw [hc, hd, map_append]
    | stored i => exact h.elim
  | stored i => exact hmore.elim

theorem triple_items_codes {v : Version} {legacy : Bool} {text : Array Char} {fuel pos : Nat} {q : Syn}
    {R Q : Nat × Found → Assembler → Prop}
    (hq : Triple P (scan v legacy text fuel q true pos) R E) (hfound : HasCodes found codes)
    (hitems : ∀ next more t, R (next, more) t → ∃ l, HasCodes more l ∧ ∀ found, HasCodes found (codes ++ l) →
    Triple (· = t) (readItems (rules v legacy) text fuel true items (next, found)) Q E) :
    Triple P (readItems (rules v legacy) text fuel true (q :: items) (pos, found)) Q E := by
  refine triple_items_then (triple_post hq ?_)
  rintro ⟨next, more⟩ t ht
  obtain ⟨l, hl, hrest⟩ := hitems next more t ht
  refine triple_post (triple_extend_codes hfound hl) ?_
  rintro joined _ ⟨hjoined, rfl⟩
  exact hrest joined hjoined

end Codes

/-! ### Keywords -/

/-- A pattern begins with a fixed text. -/
inductive Opens (k : String) : Syn → Prop
  | literal : Opens k (.literal k)
  | drop {p : Syn} : Opens k p → p.skips = true → Opens k (.drop p)
  | named {name : String} {p : Syn} : Opens k p → Opens k (.named name p)
  | act {f : Action Assembler} {p : Syn} : Opens k p → Opens k (.act f p)
  | seq {p : Syn} {items : List Syn} : Opens k p → Opens k (.seq (p :: items))

theorem opens_mark (k : String) : Opens k (mark k) := .drop .literal rfl

theorem triple_opens {k : String} (hp : Opens k p) (hnone : markEnd? text k pos = none)
    (hfresh : Fresh text skip pos) (fuel : Nat) :
    Triple P (read (rules v legacy) text fuel p acting skip pos) (fun _ _ => False) P := by
  induction fuel generalizing p pos acting skip with
  | zero => exact triple_empty fun _ => id
  | succ fuel ih =>
    cases hp with
    | literal =>
      refine triple_conseq (triple_literal hfresh) (fun r t ht => ?_) fun t ht => ht.2
      exact absurd (hnone.symm.trans ht.1) nofun
    | drop hp hskips =>
      refine triple_drop ?_
      rw [hfresh.seat hskips]
      exact ih hp (by rwa [markEnd?_skipBlanks]) fresh_skipBlanks
    | named hp => exact triple_named (ih hp hnone hfresh) fun _ _ => triple_false fun _ => id
    | act hp =>
      cases acting with
      | false => exact triple_bind (ih hp hnone hfresh) fun r => triple_pure fun _ => id
      | true => exact triple_act_then (triple_none (ih hp hnone hfresh))
    | seq hp =>
      refine triple_seq_then (triple_none ?_)
      rw [hfresh.start]
      exact ih hp (by rwa [markEnd?_skipBlanks]) fresh_skipBlanks

/-! ### Lines with something in front and behind -/

theorem after_seq (u : Assembler) (a b : Outline) : u.after (.seq a b) = (u.after a).after b := by
  simp [Assembler.after, Assembler.moved, Assembler.ledger, Outline.notes, Outline.count, Outline.lines, Nat.add_assoc]

theorem takes_seq {u : Assembler} {a b : Outline} : u.Takes (.seq a b) ↔ u.Takes a ∧ (u.after a).Takes b :=
  Ledger.allowsAll_append

theorem triple_blockLine {Q : Nat → List Code → Assembler → Prop} (hfresh : Fresh text skip pos)
    (hp : u.Takes (atHead text pos) → Triple (· = u.after (atHead text pos))
    (scan v legacy text (fuel + 7) p true (headEnd text pos)) (fun r t => ∃ codes, HasCodes r.2 codes ∧ Q r.1 codes t) E) :
    Triple (Peeked text pos u) (scan v legacy text (fuel + 8) (blockLine p) skip pos)
    (fun r t => ∃ stop codes, r.1 = tailEnd text stop ∧ HasCodes r.2 codes ∧ Q stop codes t) E := by
  refine triple_seq_head hfresh fun htakes => triple_items_codes (hp htakes) hasCodes_empty ?_
  rintro stop more t ⟨codes, hcodes, hQ⟩
  refine ⟨codes, hcodes, fun found hfound =>
    triple_items_codes (triple_never triple_lineTail) hfound ?_⟩
  rintro _ _ s ⟨rfl, rfl, rfl⟩
  refine ⟨[], hasCodes_nothing, fun found hfound => triple_items_nil fun s' hs => ?_⟩
  exact ⟨stop, codes, rfl, by simpa using hfound, hs ▸ hQ⟩

theorem refused_blockLine {k : String} (hp : Opens k p) (hfresh : Fresh text skip pos)
    (hnone : markEnd? text k (headEnd text pos) = none) : Refused (scan v legacy text (fuel + 8) (blockLine p) skip pos) := by
  refine triple_intro fun t _ => ?_
  refine triple_mono (triple_blockLine (Q := fun _ _ _ => False) hfresh
    fun _ => ?_) (fun s hs => .inl hs) ?_ fun _ => id
  · exact Refused.triple (triple_opens hp hnone fresh_true _) fun _ => trivial
  · rintro r s ⟨stop, codes, -, -, hfalse⟩
    exact hfalse

/-! ### Instructions and jumps -/

section Constructs

variable {Q : Nat × Found → Assembler → Prop}

theorem triple_items_emitter (hp : Emitter p) (hE : E u) (h : ∀ stop code, pos ≤ stop →
    Yields v legacy text p pos stop code → Triple (· = u) (readItems (rules v legacy) text fuel true
    items (stop, .own ⟨c.tokens ++ [.code code], c.names⟩)) Q E) :
    Triple (· = u) (readItems (rules v legacy) text fuel true (p :: items) (pos, .own c)) Q E := by
  refine triple_items_next (triple_fails (triple_emitter hp) fun t ht => ht ▸ hE) ?_
  rintro stop _ _ ⟨hstop, ⟨code, rfl, hyields⟩, rfl⟩
  exact ⟨_, rfl, h stop code hstop hyields⟩

theorem triple_named_emitter {name : String} (hp : Emitter p) (hlist : p.filesAll = false) :
    Triple (· = u) (scan v legacy text (fuel + 1) (.named name p) skip pos)
    (fun r t => (∃ code names, r.2 = .own ⟨[.code code], names⟩ ∧ pos ≤ r.1 ∧ Yields v legacy text p pos r.1 code) ∧ t = u)
    (· = u) := by
  refine triple_named_then (triple_post (triple_emitter hp) ?_)
  rintro ⟨stop, _⟩ _ ⟨hstop, ⟨code, rfl, hyields⟩, rfl⟩ m hm
  rw [hlist]
  cases code with
  | nil => exact ⟨⟨[], [], rfl, hstop, hyields⟩, hm⟩
  | cons b bs => exact ⟨⟨b :: bs, _, rfl, hstop, hyields⟩, hm⟩

def Assembler.noted (a : Assembler) (n : Note) : Assembler := a.moved a.line (a.ledger.note n)

theorem triple_goto : Triple (· = u) (scan v legacy text (fuel + 4) goto true pos)
    (fun r t => ∃ name, SpellsLine v legacy text pos r.1 (.goto name) ∧ pos ≤ r.1 ∧
    HasCodes r.2 [openJump] ∧ t = u.noted (.jump (.user name) u.line)) (· = u) := by
  refine triple_act_then (triple_seq_mark fresh_true (fun _ _ => id) fun a ha => ?_)
  refine triple_items_name (fun _ _ => id) fun name stop hname => triple_items_nil ?_
  rintro _ rfl
  exact triple_perform_run (r := .tokens [.code openJump])
    (fun m _ => rfl)
    fun t ht => ⟨name, .goto ha hname, by grind, rfl, by rw [ht]⟩

theorem textUnder_append (c : Capture) (ts : List Token) (key s : String) :
    Build.textUnder (c ++ ⟨ts, [(key, .word s)]⟩) key = s := by
  change ((Table.find? key (Table.put key _ c.names)).bind plainText).getD "" = s
  rw [Table.find?_put, if_pos rfl]
  rfl

theorem triple_unless : Triple (· = u) (scan v legacy text (fuel + 4) (unlessJump v legacy) true pos)
    (fun r t => ∃ code name, SpellsLine v legacy text pos r.1 (.unless code name) ∧ pos ≤ r.1 ∧
    HasCodes r.2 [code ++ hole] ∧ t = u.noted (.jump (.user name) u.line)) (· = u) := by
  refine triple_act_then (triple_seq_mark fresh_true (fun _ _ => id) fun a ha => ?_)
  refine triple_items_mark (fun _ _ => id) fun b hb => ?_
  refine triple_items_next (triple_named_emitter (emitter_test v legacy) rfl) ?_
  rintro c _ _ ⟨⟨code, names, rfl, hc, htest⟩, rfl⟩
  refine ⟨_, rfl, ?_⟩
  refine triple_items_mark (fun _ _ => id) fun d hd => ?_
  refine triple_items_mark (fun _ _ => id) fun e he => ?_
  refine triple_items_name (fun _ _ => id) fun name stop hname => triple_items_nil ?_
  rintro _ rfl
  refine triple_perform_run
    (r := .tokens [.code (code ++ hole)]) (fun m _ => ?_)
    fun t ht => ⟨code, name, .unless ha hb htest hd he hname, by grind, rfl, by rw [ht]⟩
  rw [Found.seen, unlessAction, textUnder_append]
  rfl

def Assembler.next (a : Assembler) : Assembler := { a with line := a.line + 1 }

theorem emitter_instructions : ∀ p ∈ instructions v legacy, Emitter p := by
  simp only [instructions, forall_mem_singleton, forall_mem_cons]
  exact ⟨emitter_count, emitter_inlineOperation, emitter_expressionMode v legacy,
    .first (emitter_all v legacy), .first (emitter_functions v legacy)⟩

theorem triple_construct : Triple (· = u) (scan v legacy text (fuel + 6) (construct v legacy) skip pos)
    (fun r t => ∃ o, SpellsLine v legacy text pos r.1 o ∧ pos ≤ r.1 ∧ HasCodes r.2 o.lines ∧
    u.Takes o ∧ t = u.after o) (· = u) := by
  -- each construct stays on its line, and the action of the whole goes to the next one
  have hnext : ∀ {r : Nat × Found} {t : Assembler} {o : Outline}, SpellsLine v legacy text pos r.1 o →
      pos ≤ r.1 → HasCodes r.2 o.lines → u.Takes o → t.next = u.after o →
      Triple (· = t) (perform (fun _ _ => do nextLine; return .keep) ⟨text, pos⟩ r.2)
        (fun found s => ∃ o, SpellsLine v legacy text pos r.1 o ∧ pos ≤ r.1 ∧ HasCodes found o.lines ∧
          u.Takes o ∧ s = u.after o) (· = u) := by
    intro r t o hspells hstop hcodes htakes hnext m hm
    rw [run_perform]
    refine ⟨o, hspells, hstop, hcodes, htakes, ?_⟩
    rw [← hnext, ← hm]
    rfl
  refine triple_act_then (triple_first (triple_firstOf (fun p hp => ?_) fun _ => id))
  have hkind : p ∈ instructions v legacy ∨ p = goto ∨ p = unlessJump v legacy := by
    simp only [instructions] at hp ⊢
    grind
  rcases hkind with hp | rfl | rfl
  · refine triple_post (triple_emitter (emitter_instructions p hp)) ?_
    rintro ⟨_, _⟩ _ ⟨hstop, ⟨code, rfl, hyields⟩, rfl⟩
    exact hnext (.plain hp hyields) hstop rfl trivial rfl
  · refine triple_post triple_goto ?_
    rintro r _ ⟨name, hspells, hstop, hcodes, rfl⟩
    exact hnext hspells hstop hcodes ⟨trivial, trivial⟩ rfl
  · refine triple_post triple_unless ?_
    rintro r _ ⟨code, name, hspells, hstop, hcodes, rfl⟩
    exact hnext hspells hstop hcodes ⟨trivial, trivial⟩ rfl

end Constructs

/-! ### Lines with one construct -/

/-- A reading from `pos` in state `u` has found an outline: its spelling, its code and its notes. -/
def Good (v : Version) (legacy : Bool) (text : Array Char) (pos : Nat) (u : Assembler) (r : Nat × Found) (t : Assembler) : Prop :=
  ∃ o, Spells v legacy text pos r.1 o ∧ pos ≤ r.1 ∧ HasCodes r.2 o.lines ∧ u.Takes o ∧ t = u.after o

theorem lines_atHead : (atHead text pos).lines = [] := by
  unfold atHead
  cases headLabel text pos <;> rfl

theorem triple_plainLine : Triple (Peeked text pos u) (scan v legacy text (fuel + 9) (plainLine v legacy) true pos)
    (Good v legacy text pos u) (Peeked text pos u) := by
  refine triple_post (triple_blockLine (Q := fun stop codes t => ∃ o,
    Spells v legacy text pos (tailEnd text stop) o ∧ pos ≤ stop ∧ codes = o.lines ∧ u.Takes o ∧
      t = u.after o) fresh_true fun htakes => ?_) ?_
  · have hpeeked : Peeked text pos u (u.after (atHead text pos)) := .inr ⟨htakes, rfl⟩
    refine triple_first (triple_orElse (R := (· = u.after (atHead text pos))) ?_
      (triple_orElse (R := (· = u.after (atHead text pos))) ?_ ?_))
    · refine triple_seq_then (triple_post triple_construct ?_)
      rintro ⟨stop, found⟩ t ⟨o, hline, hstop, hcodes, htakesLine, ht⟩
      refine triple_items_codes (triple_never triple_optional) hcodes.settle ?_
      rintro _ _ s ⟨rfl, rfl, rfl⟩
      refine ⟨[], hasCodes_nothing, fun found hfound => triple_items_nil fun s' hs => ?_⟩
      refine ⟨o.lines, by simpa using hfound, .seq (atHead text pos) o, .line hline, ?_, ?_,
        takes_seq.2 ⟨htakes, htakesLine⟩, by rw [hs, ht, after_seq]⟩
      · grind
      · rw [Outline.lines, lines_atHead, nil_append]
    · refine triple_drop ?_
      rw [fresh_true.seat rfl]
      refine triple_conseq (triple_comment fresh_skipBlanks) ?_ fun t ht => ht.2
      rintro r t ⟨hremark, ht⟩
      rw [remarkEnd?_skipBlanks] at hremark
      exact ⟨[], hasCodes_nothing, atHead text pos, .remark hremark,
        Nat.le_trans le_headEnd (le_remarkEnd? hremark), lines_atHead.symm, htakes, ht⟩
    · exact triple_mismatch fun t ht => ht ▸ hpeeked
  · rintro r t ⟨stop, codes, hr, hcodes, o, hspells, hstop, rfl, htakes, ht⟩
    exact ⟨o, by rwa [hr], by grind, hcodes, htakes, ht⟩

/-! ### Lines that start a script -/

/-- A step that goes to the next line and replies with one piece of code, or changes nothing. -/
def Stepping (x : Build Reply) : Prop :=
  ∀ m, match x.run.run m with
    | (.ok r, m') => (∃ code, r = .tokens [.code code]) ∧ m'.user = m.user.next
    | (.error _, m') => m'.user = m.user

theorem stepping_bind {α : Type} {x : Build α} {f : α → Build Reply} (hx : Silent x)
    (hf : ∀ a, Stepping (f a)) : Stepping (x >>= f) := by
  intro m
  rw [ExceptT.run_bind, StateT.run_bind]
  have h := hx m
  rcases hr : x.run.run m with ⟨e | a, m'⟩
  all_goals rw [hr] at h
  · exact congrArg Machine.user h
  · obtain rfl : m' = m := h
    exact hf a m'

theorem stepping_startScript (site : Site) (c : Capture) : Stepping (startScriptAction site c) := by
  refine stepping_bind (silent_opcodeOf _ _) fun op => stepping_bind (silent_marked _ _ _ _) fun r => ?_
  refine stepping_bind (silent_operandList _) fun list => ?_
  exact fun m => ⟨⟨_, rfl⟩, rfl⟩

/-- A keyword stands behind the head of a line. -/
def Present (text : Array Char) (k : String) (pos : Nat) : Prop := (markEnd? text k (headEnd text pos)).isSome

theorem has_append (c d : Capture) (k : String) : (c ++ d).has k = (c.has k || d.has k) := by
  obtain ⟨ts, names⟩ := d
  change (Table.find? k (names.foldl _ c.names)).isSome = ((Table.find? k c.names).isSome
    || (Table.find? k names).isSome)
  generalize c.names = base
  induction names generalizing base with
  | nil => simp [Table.find?]
  | cons entry names ih =>
    rw [foldl_cons, ih, Table.find?_put, Table.find?]
    split <;> simp

theorem coding_startLine (hc : c.has "descummop" = true) : Coding (startLineAction site c) := by
  unfold startLineAction
  rw [if_pos hc]
  split
  · refine coding_bind (silent_lift _) fun n => ?_
    split
    · refine coding_bind (silent_codeOf _) fun code => ?_
      split
      · exact coding_emit _
      · exact coding_fail _
    · exact coding_fail _
  · exact coding_fail _

theorem quiet_startLine : Quiet startLineAction := by
  intro site c
  by_cases hc : c.has "descummop" = true
  · exact (coding_startLine hc).replies
  · rw [startLineAction, if_neg hc]
    exact replies_pure fun _ => trivial

theorem opens_startScript : Opens "startScript" startScript := .act (.seq (.named .literal))

theorem triple_startScript : Triple (· = u) (scan v legacy text fuel startScript true pos)
    (fun r t => ((markEnd? text "startScript" pos).isSome ∧ pos ≤ r.1 ∧ IsCode r.2) ∧ t = u.next) (· = u) := by
  cases hk : markEnd? text "startScript" pos with
  | none =>
    exact triple_post (triple_opens opens_startScript hk fresh_true fuel) fun _ _ => False.elim
  | some a =>
    rcases fuel with _ | fuel
    · exact triple_empty fun _ => id
    refine triple_act (triple_inert (by simp)) fun stop found => ?_
    refine triple_given fun hstop => triple_perform (fun m r m' hm hr => ?_) fun m e m' hm hr => ?_
    all_goals
      have hstep := stepping_startScript ⟨text, pos⟩ (found.seen m) m
      rw [hr] at hstep
    · obtain ⟨⟨code, rfl⟩, hnext⟩ := hstep
      exact ⟨⟨rfl, hstop, code, rfl⟩, hm ▸ hnext⟩
    · exact hstep.trans hm

/-- What was found is a listed byte under its name, or nothing. -/
def IsListed (found : Found) : Prop := found = .nothing ∨ ∃ c, found = .own c ∧ c.has "descummop" = true

theorem triple_listed {P : Assembler → Prop} :
    Triple P (scan v legacy text (fuel + 6) (.named "descummop" (.opt listedByte)) true (labelEnd text pos))
    (fun r t => r.1 = headEnd text pos ∧ IsListed r.2 ∧ P t) (fun _ => False) := by
  refine triple_named_then (triple_opt ?_)
  rw [fresh_true.seat rfl]
  refine triple_conseq (triple_listedByte fresh_skipBlanks) ?_ ?_
  all_goals simp only [listedEnd?_skipBlanks]
  · rintro ⟨_, _⟩ t ⟨hr, ⟨c, rfl⟩, ht⟩ m hm
    refine ⟨by simp [headEnd, hr], .inr ⟨c.file "descummop" c.toToken, rfl, ?_⟩, hm ▸ ht⟩
    simp [Capture.has, Capture.find?, Capture.file, Table.find?_put]
  · rintro t ⟨hr, ht⟩ m hm
    exact ⟨by simp [headEnd, hr], .inl rfl, hm ▸ ht⟩

/-- What stands in front of the end of a line that starts a script: its code, perhaps behind a listed
byte. -/
def IsStart (found : Found) : Prop := IsCode found ∨ ∃ c, found = .own c ∧ c.has "descummop" = true

theorem triple_perform_startLine {found : Found} (hfound : IsStart found) :
    Triple (· = u) (perform startLineAction site found) (fun found t => IsCode found ∧ t = u) (· = u) := by
  have hsilent := fun c => (quiet_startLine site c).1
  refine triple_perform (fun m reply m' hm hr => ?_) fun m e m' hm hr => (hsilent _).eq hr ▸ hm
  obtain rfl := (hsilent _).eq hr
  rcases hfound with ⟨code, rfl⟩ | ⟨c, rfl, hc⟩
  · cases rfl.symm.trans hr
    exact ⟨⟨code, rfl⟩, hm⟩
  · obtain ⟨code, rfl⟩ := (coding_startLine hc).2 m' reply m' hr
    exact ⟨⟨code, rfl⟩, hm⟩

theorem triple_startItems : Triple (Peeked text pos u) (scan v legacy text (fuel + 9) (startLine legacy) true pos)
    (fun r t => IsCode r.2 ∧ pos ≤ r.1 ∧ Present text "startScript" pos ∧
    u.Takes (atHead text pos) ∧ t = (u.after (atHead text pos)).next)
    (fun t => Peeked text pos u t ∨ Present text "startScript" pos) := by
  refine triple_act_then (triple_seq_label fresh_true fun htakes => ?_)
  have hpeeked : Peeked text pos u (u.after (atHead text pos)) := .inr ⟨htakes, rfl⟩
  refine triple_items_next (triple_never triple_listed) ?_
  rintro _ more _ ⟨rfl, hmore, rfl⟩
  obtain ⟨c, hjoined, hc⟩ : ∃ c, more.behind .empty = some (.own c) ∧ (c = .empty ∨ c.has "descummop" = true) := by
    rcases hmore with hnothing | ⟨c, hown, hhas⟩
    · exact ⟨.empty, by rw [show more = .nothing from hnothing]; rfl, .inl rfl⟩
    · refine ⟨.empty ++ c, by rw [show more = .own c from hown]; rfl, .inr ?_⟩
      rw [has_append, hhas, Bool.or_true]
  refine ⟨_, hjoined, triple_items_next (triple_fails triple_startScript fun t ht => .inl (ht ▸ hpeeked)) ?_⟩
  rintro stop _ _ ⟨⟨hpresent, hstop, code, rfl⟩, rfl⟩
  have hle : pos ≤ stop := Nat.le_trans le_headEnd hstop
  have hstart : IsStart (.own (c ++ ⟨[.code code], []⟩)) := by
    rcases hc with rfl | hhas
    · exact .inl ⟨code, rfl⟩
    · exact .inr ⟨_, rfl, by rw [has_append, hhas, Bool.true_or]⟩
  have hsemicolon : Triple (· = (u.after (atHead text pos)).next)
      (scan v legacy text (fuel + 7) (if legacy then .opt (mark ";") else mark ";") true
        stop) (fun r t => stop ≤ r.1 ∧ r.2 = .nothing ∧ t = (u.after (atHead text pos)).next)
      (fun _ => True) := by
    split
    · refine triple_conseq triple_optional (fun r t ht => ?_) fun _ _ => trivial
      exact ⟨by rw [ht.1]; exact le_optionalEnd (by decide), ht.2⟩
    · refine triple_conseq (triple_mark fresh_true) (fun r t ht => ?_) fun _ _ => trivial
      exact ⟨by grind, ht.2⟩
  refine ⟨_, rfl, triple_items_next (triple_fails hsemicolon fun _ _ => .inr hpresent) ?_⟩
  rintro next _ _ ⟨hnext, rfl, rfl⟩
  refine ⟨_, rfl, triple_items_next (triple_never triple_lineTail) ?_⟩
  rintro _ _ _ ⟨rfl, rfl, rfl⟩
  refine ⟨_, rfl, triple_items_nil fun t ht => ?_⟩
  have hend : pos ≤ tailEnd text next := Nat.le_trans hle (Nat.le_trans hnext le_tailEnd)
  exact triple_mono (triple_perform_startLine hstart) (fun s hs => hs.trans ht)
    (fun r s hs => ⟨hs.1, hend, hpresent, htakes, hs.2⟩) fun _ _ => .inr hpresent

theorem triple_startLine : Triple (Peeked text pos u) (scan v legacy text (fuel + 9) (startLine legacy) true pos)
    (Good v legacy text pos u) (fun t => Peeked text pos u t ∨ Present text "startScript" pos) := by
  refine triple_post (triple_run triple_startItems) ?_
  rintro ⟨stop, found⟩ t ⟨⟨m, m', hrun⟩, ⟨code, rfl⟩, hstop, hpresent, htakes, ht⟩
  refine ⟨.seq (atHead text pos) (.plain code), .start hpresent ⟨_, _, m, m', hrun⟩, hstop, ?_, takes_seq.2 ⟨htakes, trivial⟩, ?_⟩
  · rw [Outline.lines, lines_atHead]
    rfl
  · rw [ht, after_seq]
    rfl

theorem refused_startLine (h : ¬Present text "startScript" pos) :
    Refused (scan v legacy text (fuel + 9) (startLine legacy) true pos) := by
  refine triple_intro fun t _ => ?_
  refine triple_mono triple_startItems (fun s hs => .inl hs) ?_ fun _ _ => trivial
  exact fun r s hs => h hs.2.2.1

end ScummKit.Script
