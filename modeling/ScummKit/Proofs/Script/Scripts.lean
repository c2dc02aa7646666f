import ScummKit.Proofs.Script.Conditionals

/-!
# Reading whole scripts

A block is one of a few kinds, told apart by their first words, so at most one kind can go wrong
half-way. With this, blocks are read as outlines say (`blocksFrom`), by induction on the text that is
left, and so are whole scripts (`script_read`).
-/

namespace ScummKit.Script

open Grammar Build Lexicon Special Statement List

variable {v : Version} {legacy : Bool} {text : Array Char} {fuel pos : Nat} {skip : Bool}
variable {u w : Assembler} {P E : Assembler → Prop}

theorem not_present_of_ne {k k' : String} (hk : k ∈ keywords) (hk' : k' ∈ keywords) (hne : k ≠ k')
    (h : Present text k pos) : ¬Present text k' pos := by
  have hclash : ∀ a ∈ keywords, ∀ b ∈ keywords, a ≠ b → ¬(a.toList <+: b.toList) ∧ ¬(b.toList <+: a.toList) := by decide
  rw [Present, markEnd?_eq_none h (hclash k hk k' hk' hne)]
  simp

/-- A kind of block with its keyword: it is read as an outline says, it is given up with at most its
label noted or at its keyword, and it does not match where its keyword does not stand. -/
structure Kind (v : Version) (legacy : Bool) (text : Array Char) (fuel pos : Nat) (u : Assembler) (a : String × Syn) : Prop where
  keyword : a.1 ∈ keywords
  good : Triple (Peeked text pos u) (read (rules v legacy) text fuel a.2 true true pos)
    (Good v legacy text pos u) (fun t => Peeked text pos u t ∨ Present text a.1 pos)
  absent : ¬Present text a.1 pos → Refused (read (rules v legacy) text fuel a.2 true true pos)

theorem refused_kinds {k : String} {kinds : List (String × Syn)}
    (h : ∀ a ∈ kinds, Kind v legacy text fuel pos u a) (hk : k ∈ keywords)
    (hne : k ∉ kinds.map Prod.fst) (hpresent : Present text k pos) :
    Refused (firstOf (fun q => scan v legacy text fuel q true pos) (kinds.map Prod.snd)) := by
  refine triple_firstOf (fun q hq => ?_) fun _ => id
  obtain ⟨a, ha, rfl⟩ := mem_map.1 hq
  refine (h a ha).absent (not_present_of_ne hk (h a ha).keyword ?_ hpresent)
  rintro rfl
  exact hne (mem_map_of_mem ha)

theorem triple_kinds {kinds : List (String × Syn)}
    (h : ∀ a ∈ kinds, Kind v legacy text fuel pos u a) (hnodup : (kinds.map Prod.fst).Nodup) :
    Triple (Peeked text pos u) (firstOf (fun q => scan v legacy text fuel q true pos) (kinds.map Prod.snd))
    (Good v legacy text pos u) (Tried text pos u) := by
  induction kinds with
  | nil => exact triple_mismatch fun _ => .inl
  | cons a kinds ih =>
    obtain ⟨ha, hkinds⟩ := forall_mem_cons.1 h
    rw [map_cons, nodup_cons] at hnodup
    refine triple_orElse ha.good (triple_intro fun t ht => ?_)
    rcases ht with hpeeked | hpresent
    · exact triple_pre (ih hkinds hnodup.2) fun s hs => hs ▸ hpeeked
    · exact (refused_kinds hkinds ha.keyword hnodup.1 hpresent).triple fun _ => .inr ⟨a.1, ha.keyword, hpresent⟩

theorem refused_seqLine {k : String} {p : Syn} {items : List Syn} (hp : Opens k p) (h : ¬Present text k pos) :
    Refused (scan v legacy text (fuel + 9) (.seq (blockLine p :: items)) true pos) := by
  refine triple_seq_then (triple_none ?_)
  refine refused_blockLine hp fresh_skipBlanks ?_
  simpa [Present] using h

theorem refused_ifBlock (h : ¬Present text "if" pos) : Refused (scan v legacy text (fuel + 10) (ifBlock v legacy) true pos) := by
  refine triple_seq_then (triple_none ?_)
  refine triple_act_then (triple_none ?_)
  refine refused_blockLine (.seq (opens_mark "if")) fresh_skipBlanks ?_
  simpa [Present] using h

/-- The kinds of lines and blocks that begin with a keyword. -/
def kinds (v : Version) (legacy : Bool) : List (String × Syn) :=
  [("startScript", startLine legacy), ("if", ifBlock v legacy), ("do", doBlock v legacy),
    ("while", whileBlock v legacy), ("for", forBlock v legacy)]

section

variable (hblocks : ∀ n ≤ 5, pos < text.size → BlocksFrom v legacy text (fuel + 8 + n) (pos + 1))

include hblocks

theorem kind_of_mem : ∀ a ∈ kinds v legacy, Kind v legacy text (fuel + 13) pos u a := by
  simp only [kinds, forall_mem_singleton, forall_mem_cons]
  refine ⟨⟨by simp [keywords], triple_startLine, refused_startLine⟩,
    ⟨by simp [keywords], triple_ifBlock (hblocks 0 (by decide)) (hblocks 2 (by decide)), refused_ifBlock⟩,
    ⟨by simp [keywords], triple_doBlock (hblocks 3 (by decide)), refused_seqLine (.act (.seq (opens_mark "do")))⟩,
    ⟨by simp [keywords], triple_whileBlock (hblocks 3 (by decide)), refused_seqLine (.act (.seq (opens_mark "while")))⟩,
    ⟨by simp [keywords], triple_forBlock (hblocks 3 (by decide)), refused_seqLine (.act (.seq (opens_mark "for")))⟩⟩

theorem triple_block : Triple (· = u) (firstOf (fun q => scan v legacy text (fuel + 13) q true pos)
    (plainLine v legacy :: (kinds v legacy).map Prod.snd)) (Good v legacy text pos u) (Tried text pos u) := by
  refine triple_orElse (triple_pre triple_plainLine fun s hs => .inl hs) ?_
  exact triple_kinds (kind_of_mem hblocks) (by simp [kinds])

end

theorem triple_blockRef (hblocks : ∀ n ≤ 5, ∀ here, pos ≤ here → here < text.size →
    BlocksFrom v legacy text (fuel + 8 + n) (here + 1)) : Triple (· = u) (scan v legacy text (fuel + 16) blockRef skip pos)
    (Good v legacy text pos u) (Tried text pos u) := by
  refine triple_rule (triple_apart (triple_first ?_))
  generalize hhere : (if skip then skipBlanks text pos else pos) = here
  have hblanks : skipBlanks text here = skipBlanks text pos := by
    rw [← hhere]
    split
    · exact skipBlanks_skipBlanks
    · rfl
  have hle : pos ≤ here := by
    rw [← hhere]
    split
    · exact le_skipBlanks text pos
    · exact Nat.le_refl pos
  exact triple_conseq (triple_block fun n hn => hblocks n hn here hle)
    (fun _ _ => good_of_blanks hblanks hle) fun _ => tried_of_blanks hblanks

theorem blocksFrom (v : Version) (legacy : Bool) (text : Array Char) :
    ∀ n low fuel, text.size ≤ low + n → 8 * n + 16 ≤ fuel → BlocksFrom v legacy text fuel low := by
  intro n
  induction n with
  | zero =>
    intro low fuel hlow hfuel pos u skip hpos
    obtain ⟨fuel, rfl⟩ := Nat.exists_eq_add_of_le' hfuel
    exact triple_blockRef fun n _ here hhere hsize => by omega
  | succ n ih =>
    intro low fuel hlow hfuel pos u skip hpos
    obtain ⟨fuel, rfl⟩ : ∃ rest, fuel = rest + 16 := ⟨fuel - 16, by omega⟩
    exact triple_blockRef fun m _ here hhere hsize => ih (here + 1) _ (by omega) (by omega)

/-! ### Directives -/

/-- Two states of a compilation at the same line and with the same notes. -/
def SameNotes (s t : Assembler) : Prop := t.line = s.line ∧ t.ledger = s.ledger

/-- A step that keeps to `P` and of whose result `Q` holds. -/
def Spares {α : Type} (P : Assembler → Prop) (x : Build α) (Q : α → Prop) : Prop := Invariant (fun m => P m.user) x Q

section Steps

variable {α β : Type} {Q : β → Prop} {x : Build α}

theorem spares_of_silent (h : Silent x) : Spares P x fun _ => True :=
  fun m hm => ⟨(h m).symm ▸ hm, fun _ _ => trivial⟩

theorem spares_gets (h : Silent x) : Spares P x fun a => ∃ m, Gets x m a m :=
  fun m hm => ⟨(h m).symm ▸ hm, fun _ ha => ⟨m, Prod.ext ha (h m)⟩⟩

theorem spares_pure {a : β} (h : Q a) : Spares P (pure a) Q := invariant_pure h

theorem spares_fail (f : Fault) : Spares P (fail f) Q := invariant_throw _

theorem spares_update {f : Assembler → Assembler} (h : ∀ a, P a → P (f a)) : Spares P (update f) fun _ => True :=
  fun m hm => ⟨h m.user hm, fun _ _ => trivial⟩

theorem spares_bind {S : α → Prop} {f : α → Build β} (hx : Spares P x S)
    (hf : ∀ a, S a → Spares P (f a) Q) : Spares P (x >>= f) Q := invariant_bind hx hf

theorem spares_state {f : Assembler → Build β} (h : ∀ m : Machine Assembler, P m.user →
    P ((f m.user).run.run m).2.user ∧ ∀ b, ((f m.user).run.run m).1 = .ok b → Q b) : Spares P (state >>= f) Q := h

theorem spares_forIn {xs : List α} {f : α → PUnit → Build (ForInStep PUnit)}
    (hf : ∀ x ∈ xs, ∀ b, Spares P (f x b) fun _ => True) (b : PUnit) : Spares P (forIn xs b f) fun _ => True := by
  induction xs generalizing b with
  | nil => exact spares_pure trivial
  | cons x xs ih =>
    rw [forIn_cons]
    refine spares_bind (hf x mem_cons_self b) fun step _ => ?_
    cases step with
    | done b => exact spares_pure trivial
    | yield b => exact ih (fun y hy => hf y (mem_cons_of_mem _ hy)) b

/-- A fact that holds also when a directive has declared something else than events. -/
structure Declared (P : Assembler → Prop) : Prop where
  kind : ∀ a kind, a.kind = none ∨ a.kind = some kind → P a → P { a with kind := some kind }
  number : ∀ a number, P a → P { a with number }
  define : ∀ a definitions words, P a → P { a with definitions, words }
  object : ∀ a key value, Table.find? key a.objectData = none → P a → P { a with objectData := Table.put key value a.objectData }

theorem spares_setKind (h : Declared P) (kind : ScriptKind) : Spares P (setKind kind) fun _ => True := by
  refine spares_state fun m hm => ?_
  rcases hkind : m.user.kind with _ | old
  · exact ⟨h.kind m.user kind (.inl hkind) hm, fun _ _ => trivial⟩
  · by_cases hold : old = kind
    · subst hold
      simp only [ne_eq]
      exact ⟨h.kind m.user old (.inr hkind) hm, fun _ _ => trivial⟩
    · simp only [ne_eq, hold]
      exact ⟨hm, fun _ _ => trivial⟩

end Steps

section Directives

variable {site : Site} {c : Capture} {f : Action Assembler}

theorem spares_number (h : Declared P) : Spares P (numberAction site c) (· = .tokens []) := by
  refine spares_bind (spares_setKind h _) fun _ _ => ?_
  refine spares_bind (spares_of_silent (silent_lift _)) fun n _ => ?_
  have hrest : Spares P (do
      let code ← lift (Field.byte n)
      update fun a => { a with number := some code }
      return Reply.tokens []) (· = .tokens []) :=
    spares_bind (spares_of_silent (silent_lift _)) fun code _ =>
      spares_bind (spares_update fun a => h.number a _) fun _ _ => spares_pure rfl
  split
  · exact spares_bind (spares_fail (Q := fun _ => True) _) fun _ _ => hrest
  · exact hrest

theorem spares_kind (h : Declared P) : Spares P (kindAction site c) (· = .tokens []) := by
  unfold kindAction
  split
  · exact spares_bind (spares_setKind h _) fun _ _ => spares_pure rfl
  · exact spares_fail _

/-- Every event that a capture lists has a label with `L`. -/
def Lists (L : String → Prop) (c : Capture) : Prop :=
  ∀ m entries m', Gets (capture? (c.find? "entries")) m entries m' →
    ∀ t ∈ (entries.getD .empty).tokens, ∀ m entry m', Gets (capture? (some t)) m entry m' →
      L (Build.textUnder (entry.getD .empty) "value")

theorem spares_events {L : String → Prop} (h : Declared P) (hevents : ∀ a key label, L label → P a →
    P { a with events := Table.put key label a.events }) (hc : Lists L c) :
    Spares P (eventsAction site c) (· = .tokens []) := by
  refine spares_bind (spares_setKind h _) fun _ _ => ?_
  refine spares_bind (spares_gets (silent_capture? _)) fun entries hentries => ?_
  obtain ⟨m, hentries⟩ := hentries
  refine spares_bind (spares_forIn (fun t ht _ => ?_) _) fun _ _ => spares_pure rfl
  refine spares_bind (spares_gets (silent_capture? _)) fun entry hentry => ?_
  obtain ⟨m₁, hentry⟩ := hentry
  refine spares_bind (spares_of_silent (silent_lift _)) fun key _ => ?_
  exact spares_bind (spares_update fun a => hevents a _ _ (hc _ _ _ hentries t ht _ _ _ hentry)) fun _ _ => spares_pure trivial

theorem spares_define (h : Declared P) : Spares P (defineAction site c) (· = .tokens []) := by
  have hrest : ∀ (name : String) (index : Nat), Spares P (do
      update fun a =>
        let table := Table.put name index a.definitions
        { a with definitions := table, words := table.map Prod.fst }
      return Reply.tokens []) (· = .tokens []) := fun name index =>
    spares_bind (spares_update fun a => h.define a _ _) fun _ _ => spares_pure rfl
  unfold defineAction
  split
  · split
    · exact spares_bind (spares_pure (Q := fun _ => True) trivial) fun index _ => hrest _ index
    · refine spares_bind (spares_of_silent silent_get) fun m _ => ?_
      refine spares_bind (fun m hm => ⟨hm, fun _ _ => trivial⟩) fun _ _ => ?_
      exact spares_bind (spares_pure (Q := fun _ => True) trivial) fun index _ => hrest _ index
    · exact spares_bind (spares_fail (Q := fun _ => True) _) fun index _ => hrest _ index
  · exact spares_fail _

theorem spares_object (h : Declared P) : Spares P (objectAction site c) (· = .tokens []) := by
  refine spares_bind (spares_setKind h _) fun _ _ => ?_
  refine spares_bind (spares_of_silent (silent_capture? _)) fun fields _ => ?_
  refine spares_bind (spares_forIn (fun t _ _ => ?_) _) fun _ _ => ?_
  · refine spares_bind (spares_of_silent (silent_capture? _)) fun entry _ => ?_
    refine spares_state fun m hm => ?_
    split
    · exact ⟨hm, nofun⟩
    · rename_i hnone
      exact ⟨h.object m.user _ _ hnone hm, fun _ _ => trivial⟩
  · refine spares_bind (spares_of_silent silent_state) fun a _ => ?_
    dsimp only
    split
    · exact spares_bind (spares_fail (Q := fun _ => True) _) fun _ _ => spares_pure rfl
    · exact spares_pure rfl


theorem triple_perform_spares {found : Found} (hf : ∀ m : Machine Assembler, Spares P (f site (found.seen m)) (· = .tokens [])) :
    Triple P (perform f site found) (fun found t => HasCodes found [] ∧ P t) P := by
  refine triple_perform (fun m r m' hm hr => ?_) fun m e m' hm hr => ?_
  · obtain ⟨hkept, rfl⟩ := Invariant.gets (hf m) hm hr
    exact ⟨rfl, hkept⟩
  · have hkept := (hf m m hm).1
    rwa [hr] at hkept

theorem triple_kept {q : Syn} (hq : Inert q) : Triple P (scan v legacy text fuel q skip pos) (fun _ => P) P :=
  triple_intro fun _ ht => triple_conseq (triple_inert hq) (fun _ _ hs => hs.2 ▸ ht) fun _ hs => hs ▸ ht

theorem triple_directs {q : Syn} (hf : ∀ site c, Spares P (f site c) (· = .tokens [])) (hq : Inert q) :
    Triple P (scan v legacy text fuel (.act f q) skip pos) (fun r t => HasCodes r.2 [] ∧ P t) P := by
  rcases fuel with _ | fuel
  · exact triple_empty fun _ => id
  exact triple_act (triple_kept hq) fun _ _ => triple_perform_spares fun _ => hf _ _

def eventsLine : Syn :=
  .act eventsAction (.seq [mark "Events:", .named "entries" (.some (.group
    (.seq [.named "key" (.atMost 2 isHex), mark "-", .named "value" label])))])

theorem triple_eventsLine (h : Declared P) (hevents : ∀ a key label, P a → P { a with events := Table.put key label a.events }) :
    Triple P (scan v legacy text fuel eventsLine skip pos) (fun r t => HasCodes r.2 [] ∧ P t) P :=
  triple_directs (fun _ _ => spares_events (L := fun _ => True) h (fun a key label _ => hevents a key label)
    fun _ _ _ _ _ _ _ _ _ _ => trivial) (by simp [label])

theorem triple_directive (h : Declared P) (hevents : Triple P (scan v legacy text fuel eventsLine true pos) (fun r t => HasCodes r.2 [] ∧ P t) P) :
    Triple P (scan v legacy text (fuel + 1) (directive v legacy) skip pos) (fun r t => HasCodes r.2 [] ∧ P t) P := by
  refine triple_first (triple_firstOf ?_ fun _ => id)
  simp only [forall_mem_singleton, forall_mem_cons]
  refine ⟨triple_directs (fun _ _ => spares_number h) (by simp [unsigned]),
    triple_directs (fun _ _ => spares_define h) (by simp [label]), hevents,
    triple_directs (fun _ _ => spares_kind h) (by simp [choice]),
    triple_directs ?_ (by simp [objectFields])⟩
  split
  · exact fun _ _ => spares_fail _
  · exact fun _ _ => spares_object h

theorem triple_moreDirectives (h : ∀ pos, Triple P (scan v legacy text fuel
    (directive v legacy) true pos) (fun r t => HasCodes r.2 [] ∧ P t) P) :
    ∀ rounds pos found, Triple (fun t => HasCodes found [] ∧ P t)
    (repeated (scan v legacy text fuel (directive v legacy) true) rounds pos found) (fun r t => HasCodes r.2 [] ∧ P t) E := by
  refine triple_repeated
    (S := fun _ found _ more t => HasCodes found [] ∧ HasCodes more [] ∧ P t) ?_ ?_ fun _ _ _ => id
  · intro here found
    refine triple_given fun hfound => ?_
    exact triple_conseq (h here) (fun r t ht => ⟨hfound, ht⟩) fun t ht => ⟨hfound, ht⟩
  · intro here found next more
    refine triple_given fun hfound => triple_given fun hmore => ?_
    exact triple_extend_codes hfound hmore

end Directives

/-! ### The end of a script -/

section Ends

variable {found : Found} {codes : List Code} {trailing : Bool}

/-- Only blanks and perhaps a closing word follow a place. -/
def Ended (text : Array Char) (pos : Nat) : Prop := text.size ≤ skipBlanks text (optionalEnd text "END" pos)

section

variable (h : Ended text pos)

include h

theorem Ended.markEnd? {s : String} (hclash : ¬("END".toList <+: s.toList) ∧ ¬(s.toList <+: "END".toList)) :
    markEnd? text s pos = none := by
  cases hend : Script.markEnd? text "END" pos with
  | some stop => exact markEnd?_eq_none (Option.isSome_iff_exists.2 ⟨stop, hend⟩) hclash
  | none =>
    rw [Ended, optionalEnd, hend, Option.getD_none, skipBlanks_skipBlanks] at h
    cases hmark : Script.markEnd? text s pos with
    | none => rfl
    | some stop =>
      rw [← markEnd?_skipBlanks] at hmark
      have hs : s ≠ "" := fun hs => hclash.2 (by simp [hs])
      grind

theorem Ended.headLabel : headLabel text pos = none := by
  rw [Script.headLabel, bracketed?, h.markEnd? (by decide)]
  rfl

theorem Ended.headEnd : headEnd text pos = skipBlanks text pos := by
  have hlabel : bracketed? text pos = none := by
    rw [bracketed?, h.markEnd? (by decide)]
    rfl
  have hlisted : listedEnd? text pos = none := by
    rw [listedEnd?, h.markEnd? (by decide)]
    rfl
  rw [Script.headEnd, labelEnd_of_none hlabel, listedEnd?_skipBlanks, hlisted, Option.getD_none, skipBlanks_skipBlanks]

theorem Ended.not_doomed : ¬Doomed text pos := by
  rintro ⟨k, hk, hpresent⟩
  have hclash : ∀ k ∈ keywords, ¬("END".toList <+: k.toList) ∧ ¬(k.toList <+: "END".toList) := by decide
  rw [Present, h.headEnd, markEnd?_skipBlanks, h.markEnd? (hclash k hk)] at hpresent
  exact absurd hpresent (by simp)

end

theorem triple_textEnd : Triple P (scan v legacy text (fuel + 1) .textEnd true pos)
    (fun r t => text.size ≤ skipBlanks text pos ∧ r.2 = .nothing ∧ P t) P := by
  refine triple_atom rfl (fun t r ht hr => ?_) fun t ht _ => ht
  rw [fresh_true.seat rfl, readAtom] at hr
  split at hr
  · cases hr
  · split at hr
    all_goals
      cases hr
      exact ⟨by omega, rfl, ht⟩

theorem triple_scriptEnd {G : Found → Assembler → Prop}
    (hG : ∀ found, Triple (G found) (found.extend .nothing) G E) (hE : ∀ t, E t) :
    Triple (G found) (readItems (rules v legacy) text (fuel + 3) true [.opt (mark "END"), .textEnd]
    (pos, found)) (fun r t => Ended text pos ∧ G r.2 t) E := by
  refine triple_items_then (triple_post (triple_never triple_optional) ?_)
  rintro ⟨_, _⟩ _ ⟨rfl, rfl, ht⟩
  refine triple_mono (hG found) (fun s hs => hs ▸ ht) (fun joined s hs => ?_) fun _ => id
  refine triple_items_then (triple_conseq triple_textEnd ?_ fun _ _ => hE _)
  rintro ⟨last, _⟩ _ ⟨hended, rfl, rfl⟩
  refine triple_mono (hG joined) (fun s' hs' => hs' ▸ hs) (fun r s' hs' => ?_) fun _ => id
  exact triple_items_nil fun _ h => h ▸ ⟨hended, hs'⟩

theorem triple_scriptEnd_codes (hfound : HasCodes found codes) (hE : ∀ t, E t) :
    Triple P (readItems (rules v legacy) text (fuel + 3) true [.opt (mark "END"), .textEnd]
    (pos, found)) (fun r t => Ended text pos ∧ HasCodes r.2 codes ∧ P t) E := by
  refine triple_pre (triple_scriptEnd (G := fun found t => HasCodes found codes ∧ P t)
    (fun found => triple_given fun hfound => ?_) hE) fun t ht => ⟨hfound, ht⟩
  exact triple_post (triple_extend_codes hfound hasCodes_nothing) fun r t ht => ⟨by simpa using ht.1, ht.2⟩

theorem triple_scriptEnd_doomed {Q : Nat × Found → Assembler → Prop} (h : Doomed text pos)
    (hE : ∀ t, E t) : Triple (fun _ => True) (readItems (rules v legacy) text (fuel + 3) true
    [.opt (mark "END"), .textEnd] (pos, found)) Q E :=
  triple_post (triple_scriptEnd (G := fun _ _ => True) (fun _ => triple_extend) hE) fun _ _ ht => absurd h ht.1.not_doomed

theorem triple_optStop : Triple (Peeked text pos w) (scan v legacy text (fuel + 9) (.opt stopLine) true pos)
    (fun r t => (∃ stop code, Yields v legacy text stopObjectCode (headEnd text pos) stop code ∧
    r.1 = tailEnd text stop ∧ HasCodes r.2 [code] ∧ w.Takes (atHead text pos) ∧ t = w.after (atHead text pos)) ∨
    r.1 = skipBlanks text pos ∧ r.2 = .nothing ∧ Peeked text pos w t) E := by
  refine triple_opt ?_
  rw [fresh_true.seat rfl]
  refine triple_mono (triple_blockLine (u := w) (Q := fun stop codes t => ∃ code, codes = [code] ∧
      Yields v legacy text stopObjectCode (headEnd text pos) stop code ∧
      w.Takes (atHead text pos) ∧ t = w.after (atHead text pos)) fresh_skipBlanks fun htakes => ?_)
    ?_ ?_ fun t ht => .inr ⟨rfl, rfl, ht⟩
  · simp only [headEnd_skipBlanks, atHead_skipBlanks] at htakes ⊢
    refine triple_conseq (triple_emitter emitter_stopObjectCode) ?_ fun t ht => .inr ⟨htakes, ht⟩
    rintro r t ⟨-, ⟨code, hfound, hyields⟩, ht⟩
    exact ⟨[code], by rw [hfound]; rfl, code, rfl, hyields, htakes, ht⟩
  · rw [peeked_skipBlanks]
    exact fun _ => id
  · rintro r t ⟨stop, codes, hr, hcodes, code, rfl, hyields, htakes, ht⟩
    exact .inl ⟨stop, code, hyields, hr, hcodes, htakes, ht⟩

theorem triple_optStop_doomed (h : Doomed text pos) :
    Triple (fun _ => True) (scan v legacy text (fuel + 9) (.opt stopLine) true pos) (fun r _ => Doomed text r.1) E := by
  have hdoomed : Doomed text (skipBlanks text pos) := by
    simpa only [Doomed, Present, headEnd_skipBlanks] using h
  refine triple_opt ?_
  exact (refused_blockLine (.act (.seq (.named .literal)))
    fresh_skipBlanks (doomed_markEnd? hdoomed (by decide))).triple fun _ => hdoomed

theorem triple_scriptTail (hfound : HasCodes found codes) (hE : ∀ t, E t) :
    Triple (Peeked text pos w) (readItems (rules v legacy) text (fuel + 9) true
    ((if trailing then [.opt stopLine] else []) ++ [.opt (mark "END"), .textEnd]) (pos, found))
    (fun r t => ∃ last stop, SpellsLast v legacy text trailing pos stop last ∧ Ended text stop ∧
    HasCodes r.2 (codes ++ last.lines) ∧ w.Takes last ∧ ∃ n, t = w.moved n (w.after last).ledger) E := by
  -- when the text ends here, there is no label to peek at
  have hnone : ∀ {t}, Ended text pos → Peeked text pos w t → t = w := by
    intro t hended hpeeked
    rw [Peeked, atHead, hended.headLabel] at hpeeked
    exact hpeeked.elim id fun h => h.2
  cases trailing with
  | false =>
    refine triple_post (triple_scriptEnd_codes hfound hE) ?_
    rintro r t ⟨hended, hcodes, hpeeked⟩
    exact ⟨.skip, pos, .nothing, hended, by simpa [Outline.lines] using hcodes, takes_skip w, w.line, hnone hended hpeeked⟩
  | true =>
    refine triple_items_codes triple_optStop hfound ?_
    rintro stop more t (⟨mid, code, hyields, rfl, hmore, htakes, rfl⟩ | ⟨hstop, rfl, hpeeked⟩)
    · refine ⟨[code], hmore, fun found hfound => triple_post (triple_scriptEnd_codes hfound hE) ?_⟩
      rintro r s ⟨hended, hcodes, rfl⟩
      refine ⟨.seq (atHead text pos) (.plain code), _, .stop rfl hyields, hended, ?_,
        takes_seq.2 ⟨htakes, trivial⟩, (w.after (atHead text pos)).line, ?_⟩
      · simpa [Outline.lines, lines_atHead] using hcodes
      · rw [after_seq]
        rfl
    · refine ⟨[], hasCodes_nothing, fun found hfound => triple_post (triple_scriptEnd_codes hfound hE) ?_⟩
      rintro r s ⟨hended, hcodes, rfl⟩
      have hended' : Ended text pos := by
        rwa [show stop = skipBlanks text pos from hstop, Ended, optionalEnd, markEnd?_skipBlanks, skipBlanks_skipBlanks] at hended
      exact ⟨.skip, pos, .nothing, hended', by simpa [Outline.lines] using hcodes, takes_skip w, w.line, hnone hended' hpeeked⟩

theorem triple_scriptTail_doomed {Q : Nat × Found → Assembler → Prop} (h : Doomed text pos) (hE : ∀ t, E t) :
    Triple (fun _ => True) (readItems (rules v legacy) text (fuel + 9) true
    ((if trailing then [.opt stopLine] else []) ++ [.opt (mark "END"), .textEnd]) (pos, found)) Q E := by
  cases trailing with
  | false => exact triple_scriptEnd_doomed h hE
  | true =>
    refine triple_items_cons (S := fun stop _ _ => Doomed text stop) (triple_optStop_doomed h)
      (fun _ _ => triple_extend) fun stop found => triple_intro fun t ht => ?_
    exact triple_pre (triple_scriptEnd_doomed ht hE) fun _ _ => trivial

end Ends

/-! ### Scripts -/

section Scripts

variable {trailing : Bool} {t : Assembler}

theorem SameNotes.takes (h : SameNotes u t) {o : Outline} : t.Takes o ↔ u.Takes o := by
  rw [Assembler.Takes, Assembler.Takes, h.1, h.2]

theorem SameNotes.ledger_after (h : SameNotes u t) (o : Outline) : (t.after o).ledger = (u.after o).ledger := by
  change t.ledger.noteAll (o.notes t.line) = u.ledger.noteAll (o.notes u.line)
  rw [h.1, h.2]

theorem triple_textStart {P E : Assembler → Prop} : Triple P (scan v legacy text (fuel + 1) .textStart false (skipBlanks text 0))
    (fun r t => r.1 = skipBlanks text 0 ∧ r.2 = .nothing ∧ P t) E := by
  have hread : ∀ t, readAtom text (skipBlanks text 0) (.textStart : Syn) t
      = some (skipBlanks text 0, .nothing) := fun t => if_pos (.inr rfl)
  refine triple_atom rfl (fun t r ht hr => ?_) fun t _ hr => ?_
  · cases (hread t).symm.trans hr
    exact ⟨rfl, rfl, ht⟩
  · exact absurd ((hread t).symm.trans hr) nofun

theorem triple_script {P : Assembler → Prop} (hfuel : 8 * text.size + 31 ≤ fuel)
    (hdirectives : Triple (· = u) (scan v legacy text fuel (.many (directive v legacy))
    true (skipBlanks text 0)) (fun r t => HasCodes r.2 [] ∧ P t) (fun _ => True)) :
    Triple (· = u) (scan v legacy text (fuel + 1) (script v legacy trailing) true 0)
    (fun r s => ∃ o t n, P t ∧ SpellsScript v legacy text trailing o ∧ HasCodes r.2 o.lines ∧
    t.Takes o ∧ s = t.moved n (t.after o).ledger) (fun _ => True) := by
  obtain ⟨fuel, rfl⟩ : ∃ rest, fuel = rest + 9 := ⟨fuel - 9, by omega⟩
  have hblocks : BlocksFrom v legacy text (fuel + 8) 0 :=
    blocksFrom v legacy text text.size 0 (fuel + 8) (by omega) (by omega)
  refine triple_seq_then ?_
  refine triple_post triple_textStart ?_
  rintro ⟨_, _⟩ _ ⟨rfl, rfl, rfl⟩
  -- the directives
  refine triple_items_codes (triple_run hdirectives) hasCodes_nothing.settle ?_
  rintro start more t ⟨⟨m, m', hrun⟩, hmore, ht⟩
  refine ⟨[], hmore, fun found hfound => ?_⟩
  -- the blocks
  refine triple_items_blocks (triple_manyBlocks hblocks (Nat.zero_le start)) hfound
    (fun mid found body s hbody _ htakes hfound hpeeked => ?_) fun mid found hdoomed => ?_
  · refine triple_mono (triple_scriptTail hfound fun _ => trivial)
      (fun s' hs' => hs' ▸ hpeeked) ?_ fun _ => id
    rintro r _ ⟨last, stop, hlast, hended, hcodes, htakesLast, n, rfl⟩
    refine ⟨.seq body last, t, n, ht, .mk hrun hbody hlast hended, by simpa [Outline.lines] using hcodes,
      takes_seq.2 ⟨htakes, htakesLast⟩, ?_⟩
    rw [after_seq]
    rfl
  · exact triple_pre (triple_scriptTail_doomed hdoomed fun _ => trivial) fun _ _ => trivial

theorem HasCodes.seen {found : Found} {codes : List Code} (h : HasCodes found codes)
    (m : Machine Assembler) : (found.seen m).tokens = codes.map .code := by
  cases found with
  | nothing =>
    rw [h]
    rfl
  | own c => exact h
  | stored i => exact h.elim

/-- What reading a script gives: the lines of an outline that the text spells and its notes, behind
directives that keep to `P`. -/
theorem readText_spelled {P : Assembler → Prop} {s : String} {c : Capture} {m : Machine Assembler}
    (hu : P u) (hdirective : ∀ fuel skip pos, Triple P (scan v legacy (expandTabs s) (fuel + 9)
    (directive v legacy) skip pos) (fun r t => HasCodes r.2 [] ∧ P t) P)
    (h : readText (rules v legacy) (script v legacy trailing) s u = (.ok c, m)) :
    ∃ o t n, P t ∧ SpellsScript v legacy (expandTabs s) trailing o ∧ c.tokens = o.lines.map .code ∧
    t.Takes o ∧ m.user = t.moved n (t.after o).ledger := by
  obtain ⟨fuel, hfuel⟩ : ∃ rest, depthFor (expandTabs s) = rest + 11 :=
    ⟨depthFor (expandTabs s) - 11, by rw [depthFor]; omega⟩
  have hread : Triple (· = u) (do
      let r ← scan v legacy (expandTabs s) (depthFor (expandTabs s)) (script v legacy trailing) true 0
      r.2.view) (fun c s' => ∃ o t n, P t ∧ SpellsScript v legacy (expandTabs s) trailing o ∧
        c.tokens = o.lines.map .code ∧ t.Takes o ∧ s' = t.moved n (t.after o).ledger) fun _ => True := by
    have hlong : 8 * (expandTabs s).size + 31 ≤ fuel + 10 := by
      rw [depthFor] at hfuel
      omega
    rw [hfuel]
    refine triple_bind (triple_script hlong (triple_pre (triple_many
      (triple_fails (hdirective fuel _ _) fun _ ht => ⟨rfl, ht⟩) fun _ _ => triple_moreDirectives (hdirective fuel true) _ _ _)
      fun _ ht => ht ▸ hu)) ?_
    rintro ⟨_, found⟩ m ⟨o, t, n, ht, hspells, hcodes, hrest⟩
    rw [run_view]
    exact ⟨o, t, n, ht, hspells, hcodes.seen m, hrest⟩
  exact hread.gets rfl h

end Scripts

end ScummKit.Script
