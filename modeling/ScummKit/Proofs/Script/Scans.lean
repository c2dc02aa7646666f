import ScummKit.Proofs.Script.Outcomes

/-!
# Texts read from the front

When it is known what stands at a place of a text, so is what a pattern finds there. A place is named
by the rest of the text from there on, so that reading goes from one rest to a shorter one. `Ends`
says how a reading ends, and there is a rule for it for each kind of pattern.
-/

namespace ScummKit.Grammar

open List

variable {ρ σ α β : Type}

/-! ### Places -/

/-- The place of a text from which on the rest of it is `ahead`. -/
def place (text : Array Char) (ahead : List Char) : Nat := text.size - ahead.length

section Places

variable {text : Array Char} {c : Char} {s cs l : List Char}

theorem suffix_of_append (h : s ++ cs <:+ l) : cs <:+ l := (suffix_append s cs).trans h

theorem suffix_of_cons (h : c :: cs <:+ l) : cs <:+ l := (suffix_cons c cs).trans h

theorem drop_place (h : cs <:+ text.toList) : text.toList.drop (place text cs) = cs := by
  exact (suffix_iff_eq_drop.1 h).symm

theorem place_toList (text : Array Char) : place text text.toList = 0 := by
  rw [place, Array.length_toList, Nat.sub_self]

theorem place_append (h : s ++ cs <:+ text.toList) : place text (s ++ cs) + s.length = place text cs := by
  have hlength : (s ++ cs).length ≤ text.size := h.length_le
  rw [length_append] at hlength
  rw [place, place, length_append]
  omega

theorem place_cons (h : c :: cs <:+ text.toList) : place text (c :: cs) + 1 = place text cs := place_append (s := [c]) h

theorem getElem?_place (h : cs <:+ text.toList) (i : Nat) : text[place text cs + i]? = cs[i]? := by
  rw [← Array.getElem?_toList, ← getElem?_drop, drop_place h]

theorem place_lt_size (h : c :: cs <:+ text.toList) : place text (c :: cs) < text.size := by
  have hcons := place_cons h
  have hle : place text cs ≤ text.size := Nat.sub_le _ _
  omega

theorem getElem_place (h : c :: cs <:+ text.toList) (hlt : place text (c :: cs) < text.size) :
    text[place text (c :: cs)] = c := by
  have hget := getElem?_place h 0
  rw [Nat.add_zero, Array.getElem?_eq_getElem hlt] at hget
  exact Option.some.inj hget

theorem standsAt_place (h : cs <:+ text.toList) : standsAt text s (place text cs) = s.isPrefixOf cs := by
  induction s generalizing cs with
  | nil => rfl
  | cons d s ih =>
    have hget := getElem?_place h 0
    rw [Nat.add_zero] at hget
    cases cs with
    | nil => simp [standsAt, hget]
    | cons c cs =>
      rw [standsAt, hget, place_cons h, ih (suffix_of_cons h)]
      simp [List.isPrefixOf, Bool.beq_comm]

theorem skipBlanks_place (h : c :: cs <:+ text.toList) (hc : isBlank c = false) :
    skipBlanks text (place text (c :: cs)) = place text (c :: cs) := by
  rw [skipBlanks, dif_pos (place_lt_size h), getElem_place h, hc]
  rfl

theorem skipBlanks_place_blank (h : c :: cs <:+ text.toList) (hc : isBlank c = true) :
    skipBlanks text (place text (c :: cs)) = skipBlanks text (place text cs) := by
  rw [skipBlanks, dif_pos (place_lt_size h), getElem_place h, hc, place_cons h]
  rfl

theorem runEnd_place {kind : Char → Bool} (h : s ++ c :: cs <:+ text.toList) (hs : s.all kind)
    (hc : kind c = false) : runEnd text kind (place text (s ++ c :: cs)) = place text (c :: cs) := by
  induction s with
  | nil =>
    rw [nil_append, runEnd, dif_pos (place_lt_size h), getElem_place h, hc]
    rfl
  | cons d s ih =>
    rw [all_cons, Bool.and_eq_true] at hs
    rw [cons_append] at h ⊢
    rw [runEnd, dif_pos (place_lt_size h), getElem_place h, hs.1, place_cons h]
    exact ih (suffix_of_cons h) hs.2

theorem slice_place (h : s ++ cs <:+ text.toList) : slice text (place text (s ++ cs)) (place text cs) = String.ofList s := by
  rw [slice, Array.toList_extract, extract_eq_take_drop, drop_place h, ← place_append h, Nat.add_sub_cancel_left, take_left]

theorem quoteEnd_place {quote : Char} {doubled : Option Nat} (h : s ++ quote :: c :: cs <:+ text.toList) (hc : c ≠ quote)
    (hs : ∀ d ∈ s, d ≠ quote ∧ d ≠ '\\' ∧ d ≠ '\n' ∧ d ≠ '\r') :
    quoteEnd text quote (place text (s ++ quote :: c :: cs)) doubled = some (place text (c :: cs)) := by
  induction s with
  | nil =>
    rw [nil_append] at h ⊢
    have hnext : text[place text (quote :: c :: cs) + 1]? = some c := getElem?_place h 1
    rw [quoteEnd, dif_pos (place_lt_size h), getElem_place h, hnext, place_cons h]
    simp [hc]
  | cons d s ih =>
    obtain ⟨⟨h₁, h₂, h₃, h₄⟩, hs⟩ := forall_mem_cons.1 hs
    rw [cons_append] at h ⊢
    rw [quoteEnd, dif_pos (place_lt_size h), getElem_place h]
    simp only [h₁, h₂, h₃, h₄, place_cons h]
    exact ih (suffix_of_cons h) hs

end Places

/-! ### Tabs -/

section Tabs

/-- One character of a text being filled up, with the column it comes to. -/
def tabbed (acc : Array Char × Nat) (c : Char) : Array Char × Nat :=
  if c = '\t' then (acc.1 ++ Array.replicate (8 - acc.2 % 8) ' ', acc.2 + (8 - acc.2 % 8))
  else if c = '\n' ∨ c = '\r' then (acc.1.push c, 0)
  else (acc.1.push c, acc.2 + 1)

theorem expandTabs_eq (s : String) : expandTabs s = (s.toList.foldl tabbed (#[], 0)).1 := by
  rw [expandTabs, String.foldl_eq_foldl_toList]
  rfl

theorem foldl_tabbed_of_not_mem {cs : List Char} (h : '\t' ∉ cs) (acc : Array Char × Nat) :
    (cs.foldl tabbed acc).1.toList = acc.1.toList ++ cs := by
  induction cs generalizing acc with
  | nil => simp
  | cons c cs ih =>
    rw [mem_cons, not_or] at h
    have htabbed : (tabbed acc c).1 = acc.1.push c := by
      rw [tabbed, if_neg fun hc => h.1 hc.symm]
      split <;> rfl
    rw [foldl_cons, ih h.2, htabbed, Array.toList_push, append_assoc, singleton_append]

theorem prefix_foldl_tabbed (cs : List Char) (acc : Array Char × Nat) : acc.1.toList <+: (cs.foldl tabbed acc).1.toList := by
  induction cs generalizing acc with
  | nil => exact prefix_rfl
  | cons c cs ih =>
    refine List.IsPrefix.trans ?_ (ih (tabbed acc c))
    unfold tabbed
    split
    · simp
    · split <;> simp

theorem expandTabs_ofList {cs : List Char} (h : '\t' ∉ cs) : expandTabs (String.ofList cs) = cs.toArray := by
  apply Array.toList_inj.1
  rw [expandTabs_eq, String.toList_ofList, foldl_tabbed_of_not_mem h]
  rfl

theorem prefix_expandTabs {s : String} (h : '\t' ∉ s.toList) (rest : String) : s.toList <+: (expandTabs (s ++ rest)).toList := by
  have hprefix := prefix_foldl_tabbed rest.toList (s.toList.foldl tabbed (#[], 0))
  rw [foldl_tabbed_of_not_mem h] at hprefix
  rw [expandTabs_eq, String.toList_append, foldl_append]
  exact hprefix

end Tabs

/-! ### Readings with a known end -/

/-- From a state of the actions a reading ends in one way and leaves a state. Nothing else changes but
how far the text was read. -/
def Ends (x : Run σ α) (u : σ) (out : Except Stop α) (u' : σ) : Prop :=
  ∀ m, m.user = u → ∃ far, x.run.run m = (out, { m with furthest := far, user := u' })

/-- A reading gives a value and leaves the state as it is. -/
abbrev Scans (x : Run σ α) (u : σ) (a : α) : Prop := Ends x u (.ok a) u

/-- The text does not match, and the state stays as it is. -/
abbrev Lacks (x : Run σ α) (u : σ) : Prop := Ends x u (.error .mismatch) u

section Steps

variable {x : Run σ α} {f : α → Run σ β} {a : α} {u u₁ u' : σ} {out : Except Stop α}
variable {y : Unit → Run σ α}

theorem ends_of_gets (h : ∀ m, m.user = u → Gets x m a { m with user := u' }) : Ends x u (.ok a) u' :=
  fun m hm => ⟨m.furthest, h m hm⟩

theorem scans_pure : Scans (pure a : Run σ α) u a := ends_of_gets fun _ hm => hm ▸ rfl

theorem Ends.bind {out : Except Stop β} (hx : Ends x u (.ok a) u₁) (hf : Ends (f a) u₁ out u') : Ends (x >>= f) u out u' := by
  intro m hm
  obtain ⟨far, hread⟩ := hx m hm
  obtain ⟨far', hrun⟩ := hf { m with furthest := far, user := u₁ } rfl
  refine ⟨far', ?_⟩
  rw [ExceptT.run_bind, StateT.run_bind, hread]
  exact hrun

theorem Ends.stop {e : Stop} (hx : Ends x u (.error e) u') : Ends (x >>= f) u (.error e) u' := by
  intro m hm
  obtain ⟨far, hrun⟩ := hx m hm
  rw [ExceptT.run_bind, StateT.run_bind, hrun]
  exact ⟨far, rfl⟩

theorem Ends.map {g : α → β} (hx : Ends x u out u') (hf : ∀ a, Scans (f a) u' (g a)) : Ends (x >>= f) u (out.map g) u' := by
  cases out with
  | error e => exact hx.stop
  | ok a => exact hx.bind (hf a)

theorem Ends.triple {Q : α → σ → Prop} {E : σ → Prop} (h : Ends x u (.ok a) u') (hQ : Q a u') : Triple (· = u) x Q E := by
  intro m hm
  obtain ⟨far, hrun⟩ := h m hm
  rw [hrun]
  exact hQ

theorem scans_reach (pos : Nat) (found : Found) : Scans (reach pos found) u (pos, found) :=
  fun m hm => ⟨max m.furthest pos, by rw [← hm]; rfl⟩

theorem Ends.orElse (hx : Ends x u out u') (hout : out ≠ .error .mismatch) : Ends (Grammar.orElse x y) u out u' := by
  intro m hm
  obtain ⟨far, hrun⟩ := hx m hm
  refine ⟨far, ?_⟩
  rw [run_orElse, hrun]
  rcases out with (_ | _) | _
  · exact absurd rfl hout
  · rfl
  · rfl

theorem Ends.orElse_of_lacks (hx : Lacks x u) (hy : Ends (y ()) u out u') : Ends (Grammar.orElse x y) u out u' := by
  intro m hm
  obtain ⟨far, hmiss⟩ := hx m hm
  rw [run_orElse, hmiss]
  exact hy { m with furthest := far, user := u } rfl

theorem ends_firstOf {step : β → Run σ α} {before after : List β} {q : β}
    (hbefore : ∀ p ∈ before, Lacks (step p) u) (hq : Ends (step q) u out u')
    (hout : out ≠ .error .mismatch) : Ends (firstOf step (before ++ q :: after)) u out u' := by
  induction before with
  | nil => exact hq.orElse hout
  | cons p before ih =>
    obtain ⟨hp, hbefore⟩ := forall_mem_cons.1 hbefore
    exact hp.orElse_of_lacks (ih hbefore)

end Steps

section Repeated

variable {step : Nat → Run σ (Nat × Found)} {rounds pos next : Nat} {found : Found} {a b : Capture}
variable {u : σ} {r : Nat × Found}

theorem scans_extend : Scans ((Found.own a).extend (.own b) : Run σ Found) u (.own (a ++ b)) :=
  ends_of_gets fun _ hm => hm ▸ rfl

theorem scans_repeated_stop (h : Lacks (step pos) u) : Scans (repeated step rounds pos found) u (pos, found) := by
  cases rounds with
  | zero => exact scans_pure
  | succ rounds => exact Ends.bind (Ends.orElse_of_lacks h.stop scans_pure) scans_pure

end Repeated

/-! ### Patterns -/

/-- Reading from a place, behind blanks if they may be skipped, comes to a rest of the text. -/
structure At (text : Array Char) (skip : Bool) (pos : Nat) (cs : List Char) : Prop where
  start : (if skip then skipBlanks text pos else pos) = place text cs
  rest : cs <:+ text.toList

section At

variable {text : Array Char} {skip : Bool} {pos : Nat} {c : Char} {cs : List Char}

theorem at_place (h : cs <:+ text.toList) : At text false (place text cs) cs := ⟨rfl, h⟩

theorem at_solid (h : c :: cs <:+ text.toList) (hc : isBlank c = false) : At text skip (place text (c :: cs)) (c :: cs) := by
  refine ⟨?_, h⟩
  split
  · exact skipBlanks_place h hc
  · rfl

theorem at_space (h : ' ' :: c :: cs <:+ text.toList) (hc : isBlank c = false) :
    At text true (place text (' ' :: c :: cs)) (c :: cs) :=
  ⟨(skipBlanks_place_blank h rfl).trans (skipBlanks_place (suffix_of_cons h) hc), suffix_of_cons h⟩

theorem At.again (h : At text skip pos cs) : At text false (place text cs) cs := at_place h.rest

theorem At.seat (h : At text skip pos cs) {p : Pattern ρ σ} (hp : p.skips = true) : seat text p skip pos = place text cs := by
  rw [Grammar.seat, hp, Bool.and_true, h.start]

end At

section Patterns

variable {rules : ρ → Pattern ρ σ} {text : Array Char} {fuel pos next stop : Nat} {acting skip : Bool}
variable {q : Pattern ρ σ} {items : List (Pattern ρ σ)} {inner found : Found} {a b : Capture}
variable {s : String} {c : Char} {cs : List Char} {r : Nat × Found} {u u' : σ} {e : Stop}
variable {out : Except Stop (Nat × Found)}
variable {name : String} {f : Action σ}

theorem scans_atom (hq : q.isAtom) (h : readAtom text (seat text q skip pos) q u = some (stop, found)) :
    Scans (read rules text (fuel + 1) q acting skip pos) u (stop, found) := by
  rintro m rfl
  exact ⟨_, (gets_atom hq).2 ⟨h, rfl⟩⟩

theorem lacks_atom (hq : q.isAtom) (h : readAtom text (seat text q skip pos) q u = none) :
    Lacks (read rules text (fuel + 1) q acting skip pos) u := by
  rintro m rfl
  refine ⟨m.furthest, ?_⟩
  rw [run_atom hq, h]
  rfl

theorem scans_literal (h : At text skip pos (s.toList ++ cs)) : Scans (read rules text (fuel + 1) (.literal s) acting skip pos) u
    (place text cs, .own (.single (.word s))) := by
  refine scans_atom rfl ?_
  rw [h.seat rfl, readAtom, standsAt_place h.rest, if_pos (by simp), ← place_append h.rest, String.length_toList]

theorem lacks_literal (h : At text skip pos cs) (hs : ¬s.toList <+: cs) :
    Lacks (read rules text (fuel + 1) (.literal s) acting skip pos) u := by
  refine lacks_atom rfl ?_
  rw [h.seat rfl, readAtom, standsAt_place h.rest, if_neg (by simpa using hs)]

theorem scans_word {first rest : Char → Bool} {ds : List Char} {d : Char}
    (h : At text skip pos (d :: (ds ++ c :: cs))) (hd : first d) (hds : ds.all rest)
    (hc : rest c = false) : Scans (read rules text (fuel + 1) (.word first rest) acting skip pos) u
    (place text (c :: cs), .own (.single (.word (String.ofList (d :: ds))))) := by
  refine scans_atom rfl ?_
  have hget := getElem?_place h.rest 0
  rw [Nat.add_zero] at hget
  have hslice := slice_place (s := d :: ds) h.rest
  rw [h.seat rfl, readAtom, hget]
  simp only [getElem?_cons_zero, hd, if_true, place_cons h.rest, runEnd_place (suffix_of_cons h.rest) hds hc]
  rw [cons_append] at hslice
  rw [hslice]

theorem scans_quoted {inner : List Char} (h : At text skip pos ('"' :: (inner ++ '"' :: c :: cs)))
    (hc : c ≠ '"') (hinner : ∀ d ∈ inner, d ≠ '"' ∧ d ≠ '\\' ∧ d ≠ '\n' ∧ d ≠ '\r') :
    Scans (read rules text (fuel + 1) .quoted acting skip pos) u
    (place text (c :: cs), .own (.single (.word (String.ofList ('"' :: (inner ++ ['"'])))))) := by
  refine scans_atom rfl ?_
  have hget := getElem?_place h.rest 0
  rw [Nat.add_zero] at hget
  have hslice : slice text (place text ('"' :: (inner ++ '"' :: c :: cs))) (place text (c :: cs)) = _ :=
    (congrArg (slice text · _) (by simp)).trans (slice_place (s := '"' :: (inner ++ ['"'])) (by simpa using h.rest))
  rw [h.seat rfl, readAtom, hget]
  simp only [getElem?_cons_zero, true_or, if_true, place_cons h.rest,
    quoteEnd_place (suffix_of_cons h.rest) hc hinner, Option.map_some, hslice]

theorem scans_named (hq : Scans (read rules text fuel q acting skip pos) u (stop, inner))
    (hfile : Scans (inner.file name q.filesAll : Run σ Found) u found) :
    Scans (read rules text (fuel + 1) (.named name q) acting skip pos) u (stop, found) := by
  rw [read_named]
  exact hq.bind (hfile.bind scans_pure)

theorem ends_perform {site : Site} {out : Except Stop Reply}
    (h : Ends (f site a) u out u') (hrange : out ≠ .error (.fault .outOfRange)) :
    Ends (perform f site (.own a)) u (out.map (Reply.onto (.own a))) u' := by
  intro m hm
  obtain ⟨far, hrun⟩ := h m hm
  refine ⟨far, ?_⟩
  rw [run_perform, show (f site (Found.seen m (.own a))).run.run m = _ from hrun]
  rcases out with (_ | e) | reply
  · rfl
  · cases e <;> first | rfl | exact absurd rfl hrange
  · cases reply <;> rfl

theorem ends_act {out : Except Stop Found} (hq : Scans (read rules text fuel q true skip pos) u (stop, inner))
    (hf : Ends (perform f ⟨text, pos⟩ inner) u out u') :
    Ends (read rules text (fuel + 1) (.act f q) true skip pos) u (out.map (stop, ·)) u' :=
  hq.bind (hf.map fun _ => scans_pure)

theorem lacks_act (hq : Lacks (read rules text fuel q acting skip pos) u) :
    Lacks (read rules text (fuel + 1) (.act f q) acting skip pos) u := hq.stop

theorem Ends.reach {x : Run σ (Nat × Found)} {out : Except Stop (Nat × Found)} (hx : Ends x u out u') :
    Ends (do let r ← x; reach r.1 r.2) u out u' := by
  have hread := hx.map (g := id) fun r => scans_reach r.1 r.2
  rwa [show out.map id = out by cases out <;> rfl] at hread

theorem ends_first {before after : List (Pattern ρ σ)} (hbefore : ∀ p ∈ before, Lacks (read rules text fuel p acting true pos) u)
    (hq : Ends (read rules text fuel q acting true pos) u out u') (hout : out ≠ .error .mismatch) :
    Ends (read rules text (fuel + 1) (.first (before ++ q :: after)) acting skip pos) u out u' := by
  change Ends (_ >>= _) u out u'
  simp only [Pattern.skips, Bool.and_false]
  exact (ends_firstOf hbefore hq hout).reach

theorem scans_group (hq : Scans (read rules text fuel q acting false (seat text q skip pos)) u (stop, inner)) :
    Scans (read rules text (fuel + 1) (.group q) acting skip pos) u (stop, .own (.single inner.toToken)) :=
  hq.bind (scans_reach _ _)

section

variable (h : At text skip pos cs)

include h

theorem scans_opt (hskips : q.skips = true) (hq : Scans (read rules text fuel q acting false (place text cs)) u (stop, found)) :
    Scans (read rules text (fuel + 1) (.opt q) acting skip pos) u (stop, found) := by
  rw [← h.seat hskips] at hq
  exact Ends.bind (hq.orElse nofun) (scans_reach _ _)

theorem scans_opt_none (hskips : q.skips = true) (hq : Lacks (read rules text fuel q acting false (place text cs)) u) :
    Scans (read rules text (fuel + 1) (.opt q) acting skip pos) u (place text cs, .nothing) := by
  rw [← h.seat hskips] at hq ⊢
  exact Ends.bind (hq.orElse_of_lacks scans_pure) (scans_reach _ _)

theorem ends_seq (hq : Scans (read rules text fuel q acting false (place text cs)) u (next, inner))
    (hitems : Ends (readItems rules text fuel acting items (next, inner.settle)) u out u') :
    Ends (read rules text (fuel + 1) (.seq (q :: items)) acting skip pos) u out u' := by
  rw [← h.start] at hq
  change Ends (_ >>= _) u out u'
  simp only [Pattern.skips, Bool.and_true]
  exact hq.bind hitems.reach

theorem lacks_seq (hq : Lacks (read rules text fuel q acting false (place text cs)) u) :
    Lacks (read rules text (fuel + 1) (.seq (q :: items)) acting skip pos) u := by
  rw [← h.start] at hq
  change Lacks (_ >>= _) u
  simp only [Pattern.skips, Bool.and_true]
  exact hq.stop

theorem scans_many (hskips : q.skips = true) (hq : Scans (read rules text fuel q acting false (place text cs)) u (next, inner))
    (hmore : Scans (repeated (read rules text fuel q acting true) (text.size + 1) next inner) u (stop, found)) :
    Scans (read rules text (fuel + 1) (.many q) acting skip pos) u (stop, found) := by
  rw [← h.seat hskips] at hq
  exact Ends.bind (Ends.orElse (hq.bind scans_pure) nofun) (hmore.bind (scans_reach _ _))

theorem scans_many_none (hskips : q.skips = true) (hq : Lacks (read rules text fuel q acting false (place text cs)) u) :
    Scans (read rules text (fuel + 1) (.many q) acting skip pos) u (place text cs, .nothing) := by
  rw [← h.seat hskips] at hq ⊢
  exact Ends.bind (Ends.orElse_of_lacks hq.stop scans_pure) (scans_reach _ _)

end

theorem ends_items (hq : Scans (read rules text fuel q acting true pos) u (next, .own b))
    (hitems : Ends (readItems rules text fuel acting items (next, .own (a ++ b))) u out u') :
    Ends (readItems rules text fuel acting (q :: items) (pos, .own a)) u out u' := by
  exact Ends.bind (hq.bind (scans_extend.bind scans_pure)) hitems

theorem ends_items_nothing (hq : Scans (read rules text fuel q acting true pos) u (next, .nothing))
    (hitems : Ends (readItems rules text fuel acting items (next, .own a)) u out u') :
    Ends (readItems rules text fuel acting (q :: items) (pos, .own a)) u out u' := by
  have hextend : Scans ((Found.own a).extend .nothing) u (.own a) := by
    have h := scans_extend (u := u) (a := a) (b := .empty)
    rwa [capture_append_empty] at h
  exact Ends.bind (hq.bind (hextend.bind scans_pure)) hitems

theorem ends_items_stop (hq : Ends (read rules text fuel q acting true pos) u (.error e) u') :
    Ends (readItems rules text fuel acting (q :: items) (pos, found)) u (.error e) u' := by
  exact hq.stop.stop

theorem scans_mark (h : At text skip pos (s.toList ++ cs)) :
    Scans (read rules text (fuel + 2) (.drop (.literal s)) acting skip pos) u (place text cs, .nothing) := by
  refine Ends.bind (a := (_, .own (.single (.word s)))) ?_ (scans_reach _ _)
  rw [show (if skip && (Pattern.drop (.literal s)).skips then skipBlanks text pos else pos)
    = _ from h.seat rfl]
  exact scans_literal h.again

theorem lacks_mark (h : At text skip pos cs) (hs : ¬s.toList <+: cs) :
    Lacks (read rules text (fuel + 2) (.drop (.literal s)) acting skip pos) u := by
  refine Ends.stop ?_
  rw [show (if skip && (Pattern.drop (.literal s)).skips then skipBlanks text pos else pos)
    = place text cs from h.seat rfl]
  exact lacks_literal h.again hs

end Patterns

end ScummKit.Grammar
