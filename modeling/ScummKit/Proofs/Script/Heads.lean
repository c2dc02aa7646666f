import ScummKit.Proofs.Script.Notes
import ScummKit.Proofs.Script.Spelling

/-!
# Reading fixed text

Keywords, labels and comments are read the same in every state of a compilation. Only the label in
front of a line leaves a trace: it is noted. A line that is given up afterwards is tried again in other
ways, so the same label may have been noted already (`Peeked`), and noting it again changes nothing.
-/

namespace ScummKit.Script

open Grammar Build Lexicon Special Statement

variable {Q : Nat × Found → Assembler → Prop} {E : Assembler → Prop} {items : List Syn}
variable {name : Name} {s : String} {c : Capture}
variable {v : Version} {legacy : Bool} {text : Array Char} {fuel pos : Nat} {acting skip : Bool}
variable {u : Assembler} {P : Assembler → Prop} (t : Assembler)

/-! ### Blanks -/

/-- The blanks in front of a place are skipped, or there are none. -/
def Fresh (text : Array Char) (skip : Bool) (pos : Nat) : Prop := skip = true ∨ skipBlanks text pos = pos

@[simp] theorem skipBlanks_skipBlanks : skipBlanks text (skipBlanks text pos) = skipBlanks text pos := by
  fun_induction skipBlanks text pos with
  | case1 pos h hb ih => exact ih
  | case2 pos h hb => rw [skipBlanks, dif_pos h, if_neg hb]
  | case3 pos h => rw [skipBlanks, dif_neg h]

theorem fresh_true : Fresh text true pos := .inl rfl

theorem fresh_skipBlanks : Fresh text skip (skipBlanks text pos) := .inr skipBlanks_skipBlanks

theorem Fresh.start (h : Fresh text skip pos) : (if skip then skipBlanks text pos else pos) = skipBlanks text pos := by
  split
  · rfl
  · exact (h.resolve_left ‹_›).symm

theorem Fresh.seat {p : Syn} (h : Fresh text skip pos) (hp : p.skips = true) : seat text p skip pos = skipBlanks text pos := by
  rw [Grammar.seat, hp, Bool.and_true]
  exact h.start

@[simp] theorem markEnd?_skipBlanks : markEnd? text s (skipBlanks text pos) = markEnd? text s pos := by simp [markEnd?]

@[simp] theorem nameAt?_skipBlanks : nameAt? text (skipBlanks text pos) = nameAt? text pos := by simp [nameAt?]

@[simp] theorem bracketed?_skipBlanks : bracketed? text (skipBlanks text pos) = bracketed? text pos := by simp [bracketed?]

@[simp] theorem listedEnd?_skipBlanks : listedEnd? text (skipBlanks text pos) = listedEnd? text pos := by simp [listedEnd?]

@[simp] theorem labelEnd_skipBlanks : labelEnd text (skipBlanks text pos) = labelEnd text pos := by simp [labelEnd]

@[simp] theorem headEnd_skipBlanks : headEnd text (skipBlanks text pos) = headEnd text pos := by simp [headEnd]

@[simp] theorem headLabel_skipBlanks : headLabel text (skipBlanks text pos) = headLabel text pos := by simp [headLabel]

@[simp] theorem atHead_skipBlanks : atHead text (skipBlanks text pos) = atHead text pos := by simp [atHead]

/-! ### Fixed text -/

theorem readAtom_literal (s : String) (t : Assembler) : readAtom text (skipBlanks text pos) (.literal s : Syn) t
    = (markEnd? text s pos).map fun stop => (stop, .own (.single (.word s))) := by
  rw [readAtom, markEnd?]
  split <;> rfl

theorem triple_literal (h : Fresh text skip pos) : Triple P (read (rules v legacy) text (fuel + 1) (.literal s) acting skip pos)
    (fun r t => markEnd? text s pos = some r.1 ∧ r.2 = .own (.single (.word s)) ∧ P t)
    (fun t => markEnd? text s pos = none ∧ P t) := by
  refine triple_atom rfl (fun t r ht hr => ?_) fun t ht hr => ?_
  all_goals rw [h.seat rfl, readAtom_literal] at hr
  · obtain ⟨stop, hstop, rfl⟩ := Option.map_eq_some_iff.1 hr
    exact ⟨hstop, rfl, ht⟩
  · exact ⟨Option.map_eq_none_iff.1 hr, ht⟩

theorem triple_mark (h : Fresh text skip pos) : Triple P (read (rules v legacy) text (fuel + 2) (mark s) acting skip pos)
    (fun r t => markEnd? text s pos = some r.1 ∧ r.2 = .nothing ∧ P t) (fun t => markEnd? text s pos = none ∧ P t) := by
  refine triple_drop ?_
  rw [h.seat rfl]
  refine triple_conseq (triple_literal fresh_skipBlanks) ?_ ?_
  · simp only [markEnd?_skipBlanks]
    exact fun r t ht => ⟨ht.1, trivial, ht.2.2⟩
  · simp

theorem readAtom_label : readAtom text (skipBlanks text pos) label t
    = (nameAt? text pos).map fun r => (r.2, .own (.single (.word r.1.text))) := by
  have hhead : (slice text (skipBlanks text pos)
      (runEnd text isName (skipBlanks text pos + 1))).toList.head? = text[skipBlanks text pos]? := by
    rw [slice, String.toList_ofList, List.head?_eq_getElem?, Array.getElem?_toList, Array.getElem?_extract]
    split <;> grind
  rw [label, readAtom, nameAt?]
  split
  · rename_i hc
    rw [hc] at hhead
    split
    · rename_i hn
      rw [dif_pos (by rw [hhead]; exact hn)]
      rfl
    · rename_i hn
      rw [dif_neg (by rw [hhead]; exact hn)]
      rfl
  · rename_i hc
    rw [hc] at hhead
    rw [dif_neg (by simp [hhead])]
    rfl

theorem triple_label (h : Fresh text skip pos) : Triple P (read (rules v legacy) text (fuel + 1) label acting skip pos)
    (fun r t => ∃ name, nameAt? text pos = some (name, r.1) ∧ r.2 = .own (.single (.word name.text)) ∧ P t)
    (fun t => nameAt? text pos = none ∧ P t) := by
  refine triple_atom rfl (fun t r ht hr => ?_) fun t ht hr => ?_
  all_goals rw [h.seat rfl, readAtom_label] at hr
  · obtain ⟨⟨name, stop⟩, hname, rfl⟩ := Option.map_eq_some_iff.1 hr
    exact ⟨name, hname, rfl, ht⟩
  · exact ⟨Option.map_eq_none_iff.1 hr, ht⟩

theorem triple_items_mark (hE : ∀ t, markEnd? text s pos = none → P t → E t) (h : ∀ stop, markEnd? text s pos = some stop →
    Triple P (readItems (rules v legacy) text (fuel + 2) acting items (stop, .own c)) Q E) :
    Triple P (readItems (rules v legacy) text (fuel + 2) acting (mark s :: items) (pos, .own c)) Q E := by
  refine triple_items_next (triple_fails (triple_mark fresh_true) fun t ht => hE t ht.1 ht.2) ?_
  rintro next _ t ⟨hnext, rfl, ht⟩
  exact ⟨_, rfl, triple_pre (h next hnext) fun s hs => hs ▸ ht⟩

theorem triple_seq_mark (hfresh : Fresh text skip pos) (hE : ∀ t, markEnd? text s pos = none → P t → E t)
    (h : ∀ stop, markEnd? text s pos = some stop →
    Triple P (readItems (rules v legacy) text (fuel + 2) acting items (stop, .own .empty)) Q E) :
    Triple P (read (rules v legacy) text (fuel + 3) (.seq (mark s :: items)) acting skip pos) Q E := by
  refine triple_seq_then ?_
  rw [hfresh.start]
  refine triple_conseq (triple_mark fresh_skipBlanks) ?_ ?_
  all_goals simp only [markEnd?_skipBlanks]
  · rintro ⟨stop, _⟩ t ⟨hstop, rfl, ht⟩
    exact triple_pre (h stop hstop) fun s hs => hs ▸ ht
  · exact fun t ht => hE t ht.1 ht.2

theorem triple_items_name {key : String} (hE : ∀ t, nameAt? text pos = none → P t → E t)
    (h : ∀ name stop, nameAt? text pos = some (name, stop) → Triple P (readItems (rules v legacy) text (fuel + 2) acting items
    (stop, .own (c ++ ⟨[.word name.text], [(key, .word name.text)]⟩))) Q E) :
    Triple P (readItems (rules v legacy) text (fuel + 2) acting (.named key label :: items) (pos, .own c)) Q E := by
  refine triple_items_next (R := fun r t => ∃ name, nameAt? text pos = some (name, r.1) ∧
      r.2 = .own ⟨[.word name.text], [(key, .word name.text)]⟩ ∧ P t)
    (triple_named_then (triple_conseq (triple_label fresh_true) ?_ fun t ht => hE t ht.1 ht.2)) ?_
  · rintro ⟨stop, _⟩ t ⟨name, hname, rfl, ht⟩ m hm
    exact ⟨name, hname, rfl, hm ▸ ht⟩
  · rintro next _ t ⟨name, hname, rfl, ht⟩
    exact ⟨_, rfl, triple_pre (h name next hname) fun s hs => hs ▸ ht⟩

/-! ### Listed bytes and comments -/

theorem readAtom_exactly : readAtom text (skipBlanks text pos) (.exactly 2 isHex : Syn) t
    = if skipBlanks text pos + 2 ≤ runEnd text isHex (skipBlanks text pos) then
    some (skipBlanks text pos + 2, .own (.single (.word (slice text (skipBlanks text pos) (skipBlanks text pos + 2)))))
    else none := by
  rw [readAtom]
  split
  · rename_i hmin
    rw [if_pos (by omega), hmin]
  · rw [if_neg (by omega)]

def IsWord (found : Found) : Prop := ∃ w, found = .own (.single (.word w))

theorem triple_byte : Triple P (read (rules v legacy) text (fuel + 2)
    (.first [.exactly 2 isHex, label, .literal "**"]) acting skip pos)
    (fun r t => byteEnd? text pos = some r.1 ∧ IsWord r.2 ∧ P t) (fun t => byteEnd? text pos = none ∧ P t) := by
  have hexact : Triple P (read (rules v legacy) text (fuel + 1) (.exactly 2 isHex) acting true pos)
      (fun r t => byteEnd? text pos = some r.1 ∧ IsWord r.2 ∧ P t)
      (fun t => ¬skipBlanks text pos + 2 ≤ runEnd text isHex (skipBlanks text pos) ∧ P t) := by
    refine triple_atom rfl (fun t r ht hr => ?_) fun t ht hr => ?_
    all_goals rw [fresh_true.seat rfl, readAtom_exactly] at hr
    · obtain ⟨hlt, hr⟩ := Option.ite_none_right_eq_some.1 hr
      cases hr
      exact ⟨by simp [byteEnd?, hlt], ⟨_, rfl⟩, ht⟩
    · exact ⟨by simpa using hr, ht⟩
  refine triple_first (triple_orElse hexact (triple_given fun hhex => ?_))
  have hor : byteEnd? text pos = ((nameAt? text pos).map Prod.snd).or (markEnd? text "**" pos) := by
    simp [byteEnd?, hhex]
  rw [hor]
  refine triple_orElse (triple_post (triple_label fresh_true) ?_) (triple_given fun hname => ?_)
  · rintro r t ⟨name, hname, hfound, ht⟩
    exact ⟨by simp [hname], ⟨_, hfound⟩, ht⟩
  · rw [hname]
    refine triple_orElse (triple_post (triple_literal fresh_true) fun r t ht => ?_) (triple_mismatch fun t ht => ht)
    exact ⟨ht.1, ⟨_, ht.2.1⟩, ht.2.2⟩

def IsOwn (found : Found) : Prop := ∃ c, found = .own c

theorem triple_listedByte (h : Fresh text skip pos) : Triple P (read (rules v legacy) text (fuel + 4) listedByte acting skip pos)
    (fun r t => listedEnd? text pos = some r.1 ∧ IsOwn r.2 ∧ P t) (fun t => listedEnd? text pos = none ∧ P t) := by
  refine triple_seq_mark h (fun t hnone ht => ⟨by simp [listedEnd?, hnone], ht⟩) fun a ha => ?_
  refine triple_items_next (R := fun r t => byteEnd? text a = some r.1 ∧ IsOwn r.2 ∧ P t)
    (triple_named_then (triple_conseq triple_byte ?_ fun t ht => ?_)) ?_
  · rintro ⟨b, _⟩ t ⟨hb, ⟨w, rfl⟩, ht⟩ m hm
    exact ⟨hb, ⟨_, rfl⟩, hm ▸ ht⟩
  · exact ⟨by simp [listedEnd?, ha, ht.1], ht.2⟩
  · rintro b _ t ⟨hb, ⟨c, rfl⟩, ht⟩
    refine ⟨_, rfl, triple_items_mark (fun s hnone hs => ?_) fun stop hstop => triple_items_nil fun s hs => ?_⟩
    · exact ⟨by simp [listedEnd?, ha, hb, hnone], hs ▸ ht⟩
    · exact ⟨by simp [listedEnd?, ha, hb, hstop], ⟨_, rfl⟩, hs ▸ ht⟩

theorem readAtom_comment : (readAtom text (skipBlanks text pos) (.comment : Syn) t).map Prod.fst = remarkEnd? text pos := by
  rw [readAtom, remarkEnd?]
  split
  · rw [Option.map_map]
    exact Option.map_id'
  · rfl

theorem triple_comment (h : Fresh text skip pos) : Triple P (read (rules v legacy) text (fuel + 1) .comment acting skip pos)
    (fun r t => remarkEnd? text pos = some r.1 ∧ P t) (fun t => remarkEnd? text pos = none ∧ P t) := by
  refine triple_atom rfl (fun t r ht hr => ?_) fun t ht hr => ?_
  all_goals rw [h.seat rfl] at hr
  · exact ⟨by rw [← readAtom_comment t, hr]; rfl, ht⟩
  · exact ⟨by rw [← readAtom_comment t, hr]; rfl, ht⟩

theorem remarkEnd?_skipBlanks : remarkEnd? text (skipBlanks text pos) = remarkEnd? text pos := by simp [remarkEnd?]

theorem triple_lineTail : Triple P (read (rules v legacy) text (fuel + 3) lineTail acting true pos)
    (fun r t => r.1 = tailEnd text pos ∧ r.2 = .nothing ∧ P t) (fun _ => False) := by
  refine triple_drop ?_
  rw [fresh_true.seat rfl]
  refine triple_opt ?_
  rw [fresh_skipBlanks.seat rfl]
  refine triple_conseq (triple_comment fresh_skipBlanks) ?_ ?_
  all_goals simp only [remarkEnd?_skipBlanks]
  · exact fun r t ht => ⟨by simp [tailEnd, ht.1], trivial, ht.2⟩
  · exact fun t ht => ⟨by simp [tailEnd, ht.1], trivial, ht.2⟩

theorem triple_optional : Triple P (read (rules v legacy) text (fuel + 3) (.opt (mark s)) acting true pos)
    (fun r t => r.1 = optionalEnd text s pos ∧ r.2 = .nothing ∧ P t) (fun _ => False) := by
  refine triple_opt ?_
  rw [fresh_true.seat rfl]
  refine triple_conseq (triple_mark fresh_skipBlanks) ?_ ?_
  all_goals simp only [markEnd?_skipBlanks]
  · exact fun r t ht => ⟨by simp [optionalEnd, ht.1], ht.2⟩
  · exact fun t ht => ⟨by simp [optionalEnd, ht.1], trivial, ht.2⟩

/-! ### Labels -/

theorem after_label (u : Assembler) (name : Name) :
    u.after (.label name) = { u with labels := Table.put name.text u.line u.labels } := rfl

theorem takes_label {u : Assembler} : u.Takes (.label name) ↔ ∀ n, Table.find? name.text u.labels = some n → n = u.line := by
  simp [Assembler.Takes, Outline.notes, Ledger.allowsAll, Ledger.allows, Assembler.ledger]

theorem after_skip (u : Assembler) : u.after .skip = u := rfl

theorem takes_skip (u : Assembler) : u.Takes .skip := trivial

theorem run_labelAction (hc : Build.textUnder c "label" = name.text) (site : Site) (m : Machine Assembler) :
    (∀ n, Table.find? name.text m.user.labels = some n → n = m.user.line) ∧ (labelAction site c).run.run m
    = (.ok (.tokens []), { m with user := m.user.after (.label name) }) ∨
    ∃ f m', (labelAction site c).run.run m = (.error (.fault (.script f)), m') := by
  unfold labelAction
  rw [hc, run_state_bind]
  cases hfind : Table.find? name.text m.user.labels with
  | none => exact .inl ⟨by simp, rfl⟩
  | some n =>
    dsimp only
    by_cases hn : n = m.user.line
    · refine .inl ⟨fun k hk => by cases hk; exact hn, ?_⟩
      rw [if_pos hn, after_label, Table.put_of_find? (hn ▸ hfind)]
      rfl
    · refine .inr ?_
      rw [if_neg hn]
      change ∃ f m', (if site.start + name.text.length + 2 ≠ m.furthest then fail _
        else fail _).run.run m = (.error (.fault (.script f)), m')
      split
      · exact ⟨_, m, rfl⟩
      · exact ⟨_, m, rfl⟩

/-- The state `u`, or the state after the label in front of the line at `pos` was noted in it. -/
def Peeked (text : Array Char) (pos : Nat) (u t : Assembler) : Prop :=
  t = u ∨ u.Takes (atHead text pos) ∧ t = u.after (atHead text pos)

theorem peeked_skipBlanks : Peeked text (skipBlanks text pos) u = Peeked text pos u := by
  funext t
  simp [Peeked]

theorem atHead_of_bracketed? {stop : Nat} (h : bracketed? text pos = some (name, stop)) : atHead text pos = .label name := by
  simp [atHead, headLabel, h]

theorem atHead_of_none (h : bracketed? text pos = none) : atHead text pos = .skip := by simp [atHead, headLabel, h]

theorem labelEnd_of_bracketed? {stop : Nat} (h : bracketed? text pos = some (name, stop)) : labelEnd text pos = stop := by
  simp [labelEnd, h]

theorem labelEnd_of_none (h : bracketed? text pos = none) : labelEnd text pos = skipBlanks text pos := by
  simp [labelEnd, h]

theorem triple_perform_label {site : Site} (hc : Build.textUnder c "label" = name.text) (hlabel : atHead text pos = .label name) :
    Triple (Peeked text pos u) (perform labelAction site (.own c))
    (fun found t => found = .own .empty ∧ u.Takes (.label name) ∧ t = u.after (.label name)) (fun _ => False) := by
  intro m hm
  rw [run_perform]
  have hrun := run_labelAction hc site m
  change _ ∨ ∃ f m', (labelAction site (Found.seen m (.own c))).run.run m = _ at hrun
  rcases hrun with ⟨hfind, hrun⟩ | ⟨f, m', hrun⟩
  · change (labelAction site (Found.seen m (.own c))).run.run m = _ at hrun
    rw [hrun]
    refine ⟨rfl, ?_⟩
    rcases hm with hm | ⟨htakes, hm⟩
    · rw [hm] at hfind
      exact ⟨takes_label.2 hfind, by rw [hm]⟩
    · rw [hlabel] at htakes hm
      refine ⟨htakes, ?_⟩
      -- the label was noted before, at the same line
      rw [hm]
      have hput : Table.find? name.text (u.after (.label name)).labels = some (u.after (.label name)).line := by
        rw [after_label, Table.find?_put, if_pos rfl]
      rw [after_label (u.after (.label name)), Table.put_of_find? hput]
  · rw [hrun]
    trivial

theorem triple_jumpLabel (h : Fresh text skip pos) : Triple (Peeked text pos u) (scan v legacy text (fuel + 4) jumpLabel skip pos)
    (fun r t => r.1 = labelEnd text pos ∧ r.2.settle = .own .empty ∧ u.Takes (atHead text pos) ∧ t = u.after (atHead text pos))
    (fun t => bracketed? text pos = none ∧ Peeked text pos u t) := by
  refine triple_act_then (triple_seq_mark h (fun t hnone ht => ⟨by simp [bracketed?, hnone], ht⟩) fun a ha => ?_)
  refine triple_items_name (fun t hnone ht => ⟨by simp [bracketed?, ha, hnone], ht⟩) fun name b hname => ?_
  refine triple_items_mark (fun t hnone ht => ⟨by simp [bracketed?, ha, hname, hnone], ht⟩)
    fun stop hstop => triple_items_nil fun t ht => ?_
  have hlabel : bracketed? text pos = some (name, stop) := by simp [bracketed?, ha, hname, hstop]
  rw [atHead_of_bracketed? hlabel]
  refine triple_mono (triple_perform_label rfl (atHead_of_bracketed? hlabel)) (fun s hs => hs ▸ ht) ?_ nofun
  exact fun found s hs => ⟨(labelEnd_of_bracketed? hlabel).symm, by rw [hs.1]; rfl, hs.2⟩

theorem triple_optLabel (h : Fresh text skip pos) :
    Triple (Peeked text pos u) (scan v legacy text (fuel + 5) (.opt jumpLabel) skip pos)
    (fun r t => r.1 = labelEnd text pos ∧ r.2.settle = .own .empty ∧ u.Takes (atHead text pos) ∧
    t = u.after (atHead text pos)) (fun _ => False) := by
  refine triple_opt ?_
  rw [h.seat rfl]
  refine triple_mono (triple_jumpLabel (u := u) fresh_skipBlanks) ?_ ?_ ?_
  · rw [peeked_skipBlanks]
    exact fun _ => id
  · simp [labelEnd]
  · rintro t ⟨hnone, ht⟩
    rw [bracketed?_skipBlanks] at hnone
    rw [peeked_skipBlanks, Peeked, atHead_of_none hnone] at ht
    rw [labelEnd_of_none hnone, atHead_of_none hnone]
    exact ⟨rfl, rfl, takes_skip u, ht.elim id And.right⟩

theorem triple_seq_label (hfresh : Fresh text skip pos) (h : u.Takes (atHead text pos) → Triple (· = u.after (atHead text pos))
    (readItems (rules v legacy) text (fuel + 5) true items (labelEnd text pos, .own .empty)) Q E) :
    Triple (Peeked text pos u) (scan v legacy text (fuel + 6) (.seq (.opt jumpLabel :: items)) skip pos) Q E := by
  refine triple_seq_then ?_
  rw [hfresh.start, ← peeked_skipBlanks]
  refine triple_never (triple_post (triple_optLabel fresh_skipBlanks) ?_)
  rintro ⟨_, found⟩ _ ⟨rfl, hfound, htakes, rfl⟩
  rw [atHead_skipBlanks] at htakes ⊢
  rw [labelEnd_skipBlanks, hfound]
  exact h htakes

theorem triple_lineHead (h : Fresh text skip pos) : Triple (Peeked text pos u) (scan v legacy text (fuel + 7) lineHead skip pos)
    (fun r t => r.1 = headEnd text pos ∧ r.2 = .own .empty ∧ u.Takes (atHead text pos) ∧
    t = u.after (atHead text pos)) (fun _ => False) := by
  refine triple_seq_label h fun htakes => ?_
  refine triple_items_next (R := fun r t => r.1 = headEnd text pos ∧ r.2 = .nothing ∧ t = u.after (atHead text pos)) ?_ ?_
  · refine triple_drop ?_
    rw [fresh_true.seat rfl]
    refine triple_opt ?_
    rw [fresh_skipBlanks.seat rfl]
    refine triple_conseq (triple_listedByte fresh_skipBlanks) ?_ ?_
    all_goals simp only [listedEnd?_skipBlanks]
    · exact fun r t ht => ⟨by simp [headEnd, ht.1], trivial, ht.2.2⟩
    · exact fun t ht => ⟨by simp [headEnd, ht.1], trivial, ht.2⟩
  · rintro _ _ _ ⟨rfl, rfl, rfl⟩
    exact ⟨_, rfl, triple_items_nil fun s hs => ⟨rfl, rfl, htakes, hs⟩⟩

theorem triple_seq_head (hfresh : Fresh text skip pos) (h : u.Takes (atHead text pos) → Triple (· = u.after (atHead text pos))
    (readItems (rules v legacy) text (fuel + 7) true items (headEnd text pos, .own .empty)) Q E) :
    Triple (Peeked text pos u) (scan v legacy text (fuel + 8) (.seq (lineHead :: items)) skip pos) Q E := by
  refine triple_seq_then ?_
  rw [hfresh.start, ← peeked_skipBlanks]
  refine triple_never (triple_post (triple_lineHead fresh_skipBlanks) ?_)
  rintro ⟨_, _⟩ _ ⟨rfl, rfl, htakes, rfl⟩
  rw [atHead_skipBlanks] at htakes ⊢
  rw [headEnd_skipBlanks]
  exact h htakes

end ScummKit.Script
