import ScummKit.Grammar.Matcher

/-!
# Reasoning about readings

A reading ends in one of three ways: it succeeds, the text does not match, or the work has failed for
good. After a failure nothing more is read, so what is worth saying of a reading is what holds of the
state of the actions when it succeeds and when the text does not match. `Triple` says that. Its rules
follow the patterns one by one, and the fuel of the reader shows in none of them but the rule that
there is nothing to read without any.
-/

namespace ScummKit.Grammar

open List

variable {ρ σ α β : Type}
variable {found : Found} {name : String}
variable {P E : σ → Prop} {rules : ρ → Pattern ρ σ} {text : Array Char}

/-- From a state with `P` a reading ends with `Q` if it succeeds and with `E` if the text does not
match. -/
def Triple (P : σ → Prop) (x : Run σ α) (Q : α → σ → Prop) (E : σ → Prop) : Prop :=
  ∀ m : Machine σ, P m.user →
    match x.run.run m with
    | (.ok a, m') => Q a m'.user
    | (.error .mismatch, m') => E m'.user
    | (.error (.fault _), _) => True

/-! ### Steps -/

section Steps

variable {P' R : σ → Prop} {x : Run σ α} {Q Q' : α → σ → Prop} {E' : σ → Prop}

theorem triple_pure {a : α} (h : ∀ s, P s → Q a s) : Triple P (pure a) Q E := fun m hm => h m.user hm

theorem triple_mismatch (h : ∀ s, P s → E s) : Triple P (throw .mismatch) Q E := fun m hm => h m.user hm

theorem triple_bind {R : α → σ → Prop} {f : α → Run σ β} {Q : β → σ → Prop}
    (hx : Triple P x R E) (hf : ∀ a, Triple (R a) (f a) Q E) : Triple P (x >>= f) Q E := by
  intro m hm
  have h := hx m hm
  simp only [ExceptT.run_bind, StateT.run_bind]
  rcases hr : x.run.run m with ⟨e | a, m'⟩
  all_goals rw [hr] at h
  · cases e <;> exact h
  · exact hf a m' h

section

variable (h : Triple P x Q E)

include h

theorem triple_mono (hP : ∀ s, P' s → P s) (hQ : ∀ a s, Q a s → Q' a s) (hE : ∀ s, E s → E' s) : Triple P' x Q' E' := by
  intro m hm
  have h := h m (hP _ hm)
  revert h
  split
  · exact hQ _ _
  · exact hE _
  · exact id

theorem triple_conseq (hQ : ∀ a s, Q a s → Q' a s) (hE : ∀ s, E s → E' s) : Triple P x Q' E' :=
  triple_mono h (fun _ => id) hQ hE

theorem triple_pre (hP : ∀ s, P' s → P s) : Triple P' x Q E :=
  triple_mono h hP (fun _ _ => id) (fun _ => id)

theorem triple_post (hQ : ∀ a s, Q a s → Q' a s) : Triple P x Q' E :=
  triple_conseq h hQ fun _ => id

theorem triple_fails (hE : ∀ s, E s → E' s) : Triple P x Q E' :=
  triple_conseq h (fun _ _ => id) hE

end

theorem triple_never (h : Triple P x Q fun _ => False) : Triple P x Q E := triple_fails h fun _ => False.elim

theorem run_orElse (x : Run σ α) (y : Unit → Run σ α) (m : Machine σ) : (orElse x y).run.run m = match x.run.run m with
      | (.ok a, m') => (.ok a, m')
      | (.error .mismatch, m') => (y ()).run.run m'
      | (.error (.fault f), m') => (.error (.fault f), m') := by
  simp only [orElse, tryCatch, tryCatchThe, MonadExceptOf.tryCatch, ExceptT.tryCatch, ExceptT.run, ExceptT.mk, StateT.run_bind]
  simp only [StateT.run]
  rcases x m with ⟨(_ | f) | a, m'⟩ <;> rfl

theorem triple_orElse {y : Unit → Run σ α} (hx : Triple P x Q R) (hy : Triple R (y ()) Q E) : Triple P (orElse x y) Q E := by
  intro m hm
  have h := hx m hm
  rw [run_orElse]
  rcases hr : x.run.run m with ⟨(_ | f) | a, m'⟩
  all_goals rw [hr] at h
  · exact hy m' h
  · trivial
  · exact h

theorem triple_reach {pos : Nat} {Q : Nat × Found → σ → Prop}
    (h : ∀ s, P s → Q (pos, found) s) : Triple P (reach pos found) Q E := fun m hm => h m.user hm

theorem triple_reached {stop : α → Nat} {found : α → Found} {Q : Nat × Found → σ → Prop}
    (h : Triple P x (fun a s => Q (stop a, found a) s) E) : Triple P (x >>= fun a => reach (stop a) (found a)) Q E :=
  triple_bind h fun _ => triple_reach fun _ hs => hs

theorem triple_intro (h : ∀ s, P s → Triple (· = s) x Q E) : Triple P x Q E := fun m hm => h m.user hm m rfl

theorem triple_given {a : Prop} (h : a → Triple P x Q E) : Triple (fun s => a ∧ P s) x Q E := fun m hm => h hm.1 m hm.2

theorem triple_run (h : Triple P x Q E) : Triple P x (fun a s => (∃ m m', x.run.run m = (.ok a, m')) ∧ Q a s) E := by
  intro m hm
  have h := h m hm
  rcases hr : x.run.run m with ⟨(_ | f) | a, m'⟩
  all_goals rw [hr] at h
  · exact h
  · trivial
  · exact ⟨⟨m, m', hr⟩, h⟩

theorem triple_true : Triple P x (fun _ _ => True) (fun _ => True) := by
  intro m _
  split <;> trivial

/-- A reading that never succeeds. -/
abbrev Refused (x : Run σ α) : Prop := Triple (fun _ => True) x (fun _ _ => False) fun _ => True

theorem Refused.triple (h : Refused x) (hE : ∀ s, E s) : Triple P x Q E :=
  triple_mono h (fun _ _ => trivial) (fun _ _ => False.elim) fun s _ => hE s

theorem triple_false (h : ∀ s, ¬P s) : Triple P x Q E := fun m hm => absurd hm (h m.user)

theorem triple_none (h : Triple P x (fun _ _ => False) E) : Triple P x Q E := triple_post h fun _ _ => False.elim

theorem triple_look {f : Machine σ → Run σ β} {Q : β → σ → Prop}
    (h : ∀ m : Machine σ, P m.user → Triple (· = m.user) (f m) Q E) : Triple P (get >>= f) Q E :=
  fun m hm => h m hm m rfl

end Steps

/-! ### Patterns -/

section Patterns

variable {fuel pos : Nat} {acting skip : Bool}
variable {R Q : Nat × Found → σ → Prop}
variable {q p : Pattern ρ σ} {items : List (Pattern ρ σ)} {f : Action σ}

@[grind! .] theorem le_skipBlanks (text : Array Char) (pos : Nat) : pos ≤ skipBlanks text pos := by
  fun_induction skipBlanks text pos with
  | case1 pos _ _ ih => omega
  | case2 => exact Nat.le_refl _
  | case3 => exact Nat.le_refl _

@[grind! .] theorem le_runEnd (text : Array Char) (kind : Char → Bool) (pos : Nat) : pos ≤ runEnd text kind pos := by
  fun_induction runEnd text kind pos with
  | case1 pos _ _ ih => omega
  | case2 => exact Nat.le_refl _
  | case3 => exact Nat.le_refl _

theorem le_quoteEnd {text : Array Char} {quote : Char} {pos low : Nat} {doubled : Option Nat}
    {stop : Nat} (hpos : low ≤ pos) (hdoubled : ∀ d, doubled = some d → low ≤ d)
    (h : quoteEnd text quote pos doubled = some stop) : low ≤ stop := by
  fun_induction quoteEnd text quote pos doubled <;> grind

@[grind →] theorem le_commentEnd {text : Array Char} {pos stop : Nat} (h : commentEnd text pos = some stop) : pos ≤ stop := by
  fun_induction commentEnd text pos <;> grind

/-- Where a pattern starts: behind the blanks, if it may skip them. -/
def seat (text : Array Char) (p : Pattern ρ σ) (skip : Bool) (pos : Nat) : Nat :=
  if skip && p.skips then skipBlanks text pos else pos

@[grind! .] theorem le_seat (text : Array Char) (p : Pattern ρ σ) (skip : Bool) (pos : Nat) : pos ≤ seat text p skip pos := by
  unfold seat
  split
  · exact le_skipBlanks text pos
  · exact Nat.le_refl _

theorem le_readAtom {s : σ} {pos : Nat} {r : Nat × Found} (h : readAtom text pos p s = some r) : pos ≤ r.1 := by
  unfold readAtom at h
  split at h
  case h_6 =>
    have hquote : ∀ c stop, quoteEnd text c (pos + 1) none = some stop → pos ≤ stop :=
      fun c stop => le_quoteEnd (Nat.le_succ pos) nofun
    grind [Option.map_eq_some_iff]
  all_goals grind [Option.map_eq_some_iff]

theorem triple_empty (h : ∀ s, P s → E s) : Triple P (read rules text 0 p acting skip pos) Q E := by
  exact triple_mismatch h

theorem triple_rule {r : ρ} {b : Bool} (h : Triple P (read rules text fuel (rules r) acting skip pos) Q E) :
    Triple P (read rules text (fuel + 1) (.rule r b) acting skip pos) Q E := by exact h

theorem triple_act (hq : Triple P (read rules text fuel q true skip pos) R E)
    (hf : ∀ stop found, Triple (R (stop, found)) (perform f ⟨text, pos⟩ found) (fun found s => Q (stop, found) s) E) :
    Triple P (read rules text (fuel + 1) (.act f q) true skip pos) Q E := by
  refine triple_bind hq fun r => ?_
  exact triple_bind (hf r.1 r.2) fun found => triple_pure fun s hs => hs

theorem triple_act_then (h : Triple P (read rules text fuel q true skip pos) (fun r s => Triple (· = s)
    (perform f ⟨text, pos⟩ r.2) (fun found t => Q (r.1, found) t) E) E) :
    Triple P (read rules text (fuel + 1) (.act f q) true skip pos) Q E :=
  triple_act h fun _ _ => triple_intro fun _ => id

/-- Whether a name on a pattern is given to all that it found. -/
def Pattern.filesAll : Pattern ρ σ → Bool
  | .act _ _ => false
  | .group _ => false
  | q => q.isList

theorem read_named : read rules text (fuel + 1) (.named name q) acting skip pos = (do
      let r ← read rules text fuel q acting skip pos
      return (r.1, ← r.2.file name q.filesAll)) := by cases q <;> rfl

theorem triple_named (hq : Triple P (read rules text fuel q acting skip pos) R E)
    (hf : ∀ stop found, Triple (R (stop, found)) (found.file name q.filesAll) (fun found s => Q (stop, found) s) E) :
    Triple P (read rules text (fuel + 1) (.named name q) acting skip pos) Q E := by
  rw [read_named]
  refine triple_bind hq fun r => ?_
  exact triple_bind (hf r.1 r.2) fun found => triple_pure fun s hs => hs

theorem triple_named_then (h : Triple P (read rules text fuel q acting skip pos) (fun r s => Triple (· = s)
    (r.2.file name q.filesAll) (fun found t => Q (r.1, found) t) E) E) :
    Triple P (read rules text (fuel + 1) (.named name q) acting skip pos) Q E :=
  triple_named h fun _ _ => triple_intro fun _ => id

theorem triple_opt (hq : Triple P (read rules text fuel q acting false (seat text q skip pos)) Q
    (fun s => Q (seat text q skip pos, .nothing) s)) : Triple P (read rules text (fuel + 1) (.opt q) acting skip pos) Q E := by
  exact triple_reached (triple_orElse hq (triple_pure fun s hs => hs))

theorem triple_drop (hq : Triple P (read rules text fuel q acting false (seat text q skip pos))
    (fun r s => Q (r.1, .nothing) s) E) : Triple P (read rules text (fuel + 1) (.drop q) acting skip pos) Q E := by
  exact triple_reached hq

theorem triple_apart (hq : Triple P (read rules text fuel q acting false (if skip then skipBlanks text pos else pos)) Q E) :
    Triple P (read rules text (fuel + 1) (.apart q) acting skip pos) Q E := by
  change Triple P (_ >>= _) Q E
  simp only [Pattern.skips, Bool.and_true]
  exact triple_reached hq

theorem triple_group (hq : Triple P (read rules text fuel q acting false (seat text q skip pos))
    (fun r s => Q (r.1, .own (.single r.2.toToken)) s) E) :
    Triple P (read rules text (fuel + 1) (.group q) acting skip pos) Q E := by
  exact triple_reached hq

/-- The items of a sequence behind the first one, from a place and what was found before it. -/
def readItems (rules : ρ → Pattern ρ σ) (text : Array Char) (fuel : Nat) (acting : Bool)
    (items : List (Pattern ρ σ)) (start : Nat × Found) : Run σ (Nat × Found) :=
  items.foldlM (fun (pos, found) q => do
    let (next, more) ← read rules text fuel q acting true pos
    return (next, ← found.extend more)) start

theorem triple_seq (hq : Triple P (read rules text fuel q acting false (if skip then skipBlanks text pos else pos)) R E)
    (hitems : ∀ stop found, Triple (R (stop, found)) (readItems rules text fuel acting items (stop, found.settle)) Q E) :
    Triple P (read rules text (fuel + 1) (.seq (q :: items)) acting skip pos) Q E := by
  change Triple P (_ >>= _) Q E
  simp only [Pattern.skips, Bool.and_true]
  refine triple_bind hq fun r => ?_
  exact triple_reached (hitems r.1 r.2)

theorem triple_seq_then (h : Triple P (read rules text fuel q acting false (if skip then skipBlanks text pos else pos))
    (fun r s => Triple (· = s) (readItems rules text fuel acting items (r.1, r.2.settle)) Q E) E) :
    Triple P (read rules text (fuel + 1) (.seq (q :: items)) acting skip pos) Q E :=
  triple_seq h fun _ _ => triple_intro fun _ => id

theorem triple_items_nil {start : Nat × Found} (h : ∀ s, P s → Q start s) :
    Triple P (readItems rules text fuel acting [] start) Q E := triple_pure h

theorem triple_items_cons {S : Nat → Found → σ → Prop} (hq : Triple P (read rules text fuel q acting true pos) R E)
    (hmore : ∀ next more, Triple (R (next, more)) (found.extend more) (S next) E)
    (hitems : ∀ next found, Triple (S next found) (readItems rules text fuel acting items (next, found)) Q E) :
    Triple P (readItems rules text fuel acting (q :: items) (pos, found)) Q E := by
  refine triple_bind ?_ fun r => hitems r.1 r.2
  refine triple_bind hq fun r => ?_
  exact triple_bind (hmore r.1 r.2) fun found => triple_pure fun s hs => hs

theorem triple_items_then (h : Triple P (read rules text fuel q acting true pos) (fun r s => Triple (· = s)
    (found.extend r.2) (fun joined t => Triple (· = t) (readItems rules text fuel acting items (r.1, joined)) Q E) E) E) :
    Triple P (readItems rules text fuel acting (q :: items) (pos, found)) Q E :=
  triple_items_cons h (fun _ _ => triple_intro fun _ => id) fun _ _ => triple_intro fun _ => id

theorem triple_firstOf {step : β → Run σ α} {Q : α → σ → Prop} {qs : List β}
    (h : ∀ q ∈ qs, Triple P (step q) Q P) (hE : ∀ s, P s → E s) : Triple P (firstOf step qs) Q E := by
  induction qs with
  | nil => exact triple_mismatch hE
  | cons q qs ih =>
    refine triple_orElse (h q mem_cons_self) ?_
    exact ih fun p hp => h p (mem_cons_of_mem _ hp)

theorem triple_first {qs : List (Pattern ρ σ)} (h : Triple P (firstOf (fun q => read rules text fuel q acting true pos) qs) Q E) :
    Triple P (read rules text (fuel + 1) (.first qs) acting skip pos) Q E := by
  change Triple P (_ >>= _) Q E
  simp only [Pattern.skips, Bool.and_false]
  exact triple_reached h

theorem triple_repeated {step : Nat → Run σ (Nat × Found)} {R : Nat → Found → σ → Prop} {S : Nat → Found → Nat → Found → σ → Prop}
    (hstep : ∀ pos found, Triple (R pos found) (step pos) (fun r s => S pos found r.1 r.2 s) (fun s => Q (pos, found) s))
    (hmore : ∀ pos found next more, Triple (S pos found next more) (found.extend more) (R next) E)
    (hstop : ∀ pos found s, R pos found s → Q (pos, found) s) :
    ∀ rounds pos found, Triple (R pos found) (repeated step rounds pos found) Q E := by
  intro rounds
  induction rounds with
  | zero => exact fun pos found => triple_pure (hstop pos found)
  | succ rounds ih =>
    intro pos found
    refine triple_bind (R := fun r s => match r with
      | none => Q (pos, found) s
      | some r => S pos found r.1 r.2 s) ?_ ?_
    · refine triple_orElse ?_ (triple_pure fun s hs => hs)
      exact triple_bind (hstep pos found) fun r => triple_pure fun s hs => hs
    · rintro (_ | r)
      · exact triple_pure fun s hs => hs
      · exact triple_bind (hmore pos found r.1 r.2) fun found => ih r.1 found

theorem triple_some (hq : Triple P (read rules text fuel q acting false (seat text q skip pos)) R E)
    (hmore : ∀ stop found, Triple (R (stop, found))
    (repeated (read rules text fuel q acting true) (text.size + 1) stop found) Q E) :
    Triple P (read rules text (fuel + 1) (.some q) acting skip pos) Q E := by
  refine triple_bind hq fun r => ?_
  exact triple_reached (hmore r.1 r.2)

theorem triple_many (hq : Triple P (read rules text fuel q acting false (seat text q skip pos)) R
    (fun s => Q (seat text q skip pos, .nothing) s)) (hmore : ∀ stop found, Triple (R (stop, found))
    (repeated (read rules text fuel q acting true) (text.size + 1) stop found) Q E) :
    Triple P (read rules text (fuel + 1) (.many q) acting skip pos) Q E := by
  refine triple_bind (R := fun r s => match r with
    | none => Q (seat text q skip pos, .nothing) s
    | some r => R r s) ?_ ?_
  · refine triple_orElse ?_ (triple_pure fun s hs => hs)
    exact triple_bind hq fun r => triple_pure fun s hs => hs
  · rintro (_ | r)
    · exact triple_reach fun s hs => hs
    · exact triple_reached (hmore r.1 r.2)

def Pattern.isAtom : Pattern ρ σ → Bool
  | .seq _ | .first _ | .longest _ | .opt _ | .many _ | .some _ | .group _ | .drop _ | .apart _
  | .named _ _ | .act _ _ | .rule _ _ => false
  | _ => true

theorem read_atom (hp : p.isAtom) : read rules text (fuel + 1) p acting skip pos = (do
      match readAtom text (seat text p skip pos) p (← get).user with
      | some (stop, found) => reach stop found
      | none => throw .mismatch) := by
  rw [read]
  · rfl
  all_goals (intros; subst p; simp [Pattern.isAtom] at hp)

theorem run_atom (hp : p.isAtom) (m : Machine σ) : (read rules text (fuel + 1) p acting skip pos).run.run m
    = (match readAtom text (seat text p skip pos) p m.user with
        | some (stop, found) => reach stop found
        | none => throw .mismatch : Run σ (Nat × Found)).run.run m := by
  rw [read_atom hp]
  rfl

theorem triple_atom (hp : p.isAtom) (h : ∀ s r, P s → readAtom text (seat text p skip pos) p s = some r → Q r s)
    (hE : ∀ s, P s → readAtom text (seat text p skip pos) p s = none → E s) :
    Triple P (read rules text (fuel + 1) p acting skip pos) Q E := by
  rw [read_atom hp]
  refine triple_look fun m hm => ?_
  rcases hr : readAtom text (seat text p skip pos) p m.user with _ | r
  · exact triple_mismatch fun s hs => hs ▸ hE m.user hm hr
  · exact triple_reach fun s hs => hs ▸ h m.user r hm hr

end Patterns

/-! ### What was found -/

section Founds

variable {R : σ → Prop}
variable {c : Capture} {f : Action σ} {site : Site}

@[simp] theorem capture_append_empty (c : Capture) : c ++ Capture.empty = c := by
  change Capture.append c .empty = c
  simp [Capture.append, Capture.empty]

def Found.seen (m : Machine σ) : Found → Capture
  | .nothing => .empty
  | .own c => c
  | .stored i => m.store.fetch i

theorem run_view (found : Found) (m : Machine σ) : (found.view : Run σ Capture).run.run m = (.ok (found.seen m), m) := by
  cases found <;> rfl

theorem triple_extend {a b : Found} : Triple P (a.extend b) (fun _ s => P s) E := by
  intro m hm
  cases a <;> cases b <;> exact hm

theorem triple_extend_own {d : Capture} :
    Triple P ((Found.own c).extend (.own d)) (fun found s => P s ∧ found = .own (c ++ d)) E := fun _ hm => ⟨hm, rfl⟩

theorem triple_extend_nothing : Triple P ((Found.own c).extend .nothing) (fun found s => P s ∧ found = .own c) E :=
  fun _ hm => ⟨hm, congrArg Found.own (capture_append_empty c)⟩

/-- What was found, put behind a capture, if it can be told without looking into the store. -/
def Found.behind (c : Capture) : Found → Option Found
  | .nothing => some (.own c)
  | .own d => some (.own (c ++ d))
  | .stored _ => none

section Items

variable {rules : ρ → Pattern ρ σ} {text : Array Char} {fuel pos : Nat} {acting : Bool}
variable {q : Pattern ρ σ} {items : List (Pattern ρ σ)} {Q : Nat × Found → σ → Prop}

theorem triple_items_next {R : Nat × Found → σ → Prop} (hq : Triple P (read rules text fuel q acting true pos) R E)
    (hitems : ∀ next more s, R (next, more) s → ∃ joined, more.behind c = some joined ∧
    Triple (· = s) (readItems rules text fuel acting items (next, joined)) Q E) :
    Triple P (readItems rules text fuel acting (q :: items) (pos, .own c)) Q E := by
  refine triple_items_then (triple_post hq ?_)
  rintro ⟨next, more⟩ s hs
  obtain ⟨joined, hjoined, hrest⟩ := hitems next more s hs
  cases more with
  | nothing =>
    refine triple_post triple_extend_nothing ?_
    rintro _ _ ⟨rfl, rfl⟩
    cases hjoined
    exact hrest
  | own d =>
    refine triple_post triple_extend_own ?_
    rintro _ _ ⟨rfl, rfl⟩
    cases hjoined
    exact hrest
  | stored i => cases hjoined

theorem triple_items_none (hq : Triple P (read rules text fuel q acting true pos) (fun _ _ => False) E) :
    Triple P (readItems rules text fuel acting (q :: items) (pos, found)) Q E := triple_items_then (triple_none hq)

end Items

theorem triple_view : Triple P found.view (fun _ s => P s) E := by
  intro m hm
  rw [run_view]
  exact hm

theorem triple_file_whole : Triple P (found.file name true) (fun _ s => P s) E := by
  intro m hm
  cases found <;> exact hm

theorem run_perform (f : Action σ) (site : Site) (found : Found) (m : Machine σ) :
    (perform f site found).run.run m = match (f site (found.seen m)).run.run m with
      | (.ok .keep, m') => (.ok found, m')
      | (.ok (.tokens ts), m') => (.ok (.own ⟨ts, []⟩), m')
      | (.ok (.capture c), m') => (.ok (.own c), m')
      | (.ok (.shared i), m') => (.ok (.stored i), m')
      | (.error (.fault .outOfRange), m') => (.error .mismatch, m')
      | (.error e, m') => (.error e, m') := by
  rw [perform, ExceptT.run_bind, StateT.run_bind, run_view]
  change ((tryCatch (f site (found.seen m)) _ >>= _)).run.run m = _
  rw [ExceptT.run_bind]
  simp only [tryCatch, tryCatchThe, MonadExceptOf.tryCatch, ExceptT.tryCatch, ExceptT.run, ExceptT.mk, StateT.run_bind]
  simp only [StateT.run]
  rcases f site (found.seen m) m with ⟨(_ | f) | reply, m'⟩
  · rfl
  · cases f <;> rfl
  · cases reply <;> rfl

def Reply.onto (found : Found) : Reply → Found
  | .keep => found
  | .tokens ts => .own ⟨ts, []⟩
  | .capture c => .own c
  | .shared i => .stored i

theorem triple_perform {Q : Found → σ → Prop}
    (hok : ∀ m r m', P m.user → (f site (found.seen m)).run.run m = (.ok r, m') → Q (r.onto found) m'.user)
    (herror : ∀ m e m', P m.user → (f site (found.seen m)).run.run m = (.error e, m') → E m'.user) :
    Triple P (perform f site found) Q E := by
  intro m hm
  rw [run_perform]
  rcases hr : (f site (found.seen m)).run.run m with ⟨(_ | e) | reply, m'⟩
  · exact herror m _ m' hm hr
  · cases e <;> first | exact herror m _ m' hm hr | trivial
  · cases reply <;> exact hok m _ m' hm hr

theorem triple_perform_run {r : Reply} {g : σ → σ} {Q : Found → σ → Prop}
    (hrun : ∀ m, P m.user → (f site (found.seen m)).run.run m = (.ok r, { m with user := g m.user }))
    (hQ : ∀ s, P s → Q (r.onto found) (g s)) : Triple P (perform f site found) Q E := by
  intro m hm
  rw [run_perform, hrun m hm]
  cases r <;> exact hQ m.user hm

end Founds

/-! ### What a pattern leaves alone -/

namespace Pattern

mutual

/-- Every action in a pattern is of a kind, and so is every rule it refers to. -/
def Within (A : Action σ → Prop) (B : ρ → Prop) : Pattern ρ σ → Prop
  | .seq items => WithinAll A B items
  | .first items => WithinAll A B items
  | .longest items => WithinAll A B items
  | .opt p => p.Within A B
  | .many p => p.Within A B
  | .some p => p.Within A B
  | .group p => p.Within A B
  | .drop p => p.Within A B
  | .apart p => p.Within A B
  | .named _ p => p.Within A B
  | .act f p => A f ∧ p.Within A B
  | .rule r _ => B r
  | _ => True

def WithinAll (A : Action σ → Prop) (B : ρ → Prop) : List (Pattern ρ σ) → Prop
  | [] => True
  | p :: rest => p.Within A B ∧ WithinAll A B rest

end

theorem withinAll_iff {A : Action σ → Prop} {B : ρ → Prop} {items : List (Pattern ρ σ)} :
    WithinAll A B items ↔ ∀ p ∈ items, p.Within A B := by
  induction items with
  | nil => simp [WithinAll]
  | cons p rest ih => simp [WithinAll, ih]

end Pattern

section Frame

variable {A : Action σ → Prop} {B : ρ → Prop}
variable {R : σ → σ → Prop}

/-- Tries one more of several patterns, and keeps the one that has reached furthest so far. -/
def measure (rules : ρ → Pattern ρ σ) (text : Array Char) (fuel pos : Nat)
    (best : Option (Nat × Pattern ρ σ)) (q : Pattern ρ σ) : Run σ (Option (Nat × Pattern ρ σ)) := do
  let stop ← orElse (do return some (← read rules text fuel q false true pos).1) (fun _ => return none)
  match stop, best with
  | none, _ => return best
  | some s, none => return some (s, q)
  | some s, some (b, _) => return if b < s then some (s, q) else best

section Longest

variable {fuel pos : Nat} {qs before : List (Pattern ρ σ)} {q : Pattern ρ σ} {E : σ → Prop}
variable {M N : Pattern ρ σ → Prop}
variable {best : Option (Nat × Pattern ρ σ)}

/-- The best of some patterns so far is one that fits, and where there is none, none of those tried
did. -/
def Measured (qs before : List (Pattern ρ σ)) (M N : Pattern ρ σ → Prop) (best : Option (Nat × Pattern ρ σ)) : Prop :=
  (∀ b ∈ best, b.2 ∈ qs ∧ M b.2) ∧ (best = none → ∀ q ∈ before, N q)

theorem triple_measure (hq : q ∈ qs) (hmeasure : Triple P (read rules text fuel q false true pos)
    (fun _ s => M q ∧ P s) (fun s => N q ∧ P s)) (hbest : Measured qs before M N best) :
    Triple P (measure rules text fuel pos best q) (fun best s => Measured qs (before ++ [q]) M N best ∧ P s) E := by
  obtain ⟨hfits, hnone⟩ := hbest
  refine triple_bind (R := fun stop s => (stop.isSome → M q) ∧ (stop = none → N q) ∧ P s) ?_ fun stop => ?_
  · refine triple_orElse (R := fun s => N q ∧ P s) ?_ (triple_pure fun s hs => ⟨by simp, fun _ => hs.1, hs.2⟩)
    exact triple_bind hmeasure fun r => triple_pure fun s hs => ⟨fun _ => hs.1, by simp, hs.2⟩
  · refine triple_given fun hM => triple_given fun hN => ?_
    cases stop with
    | none =>
      refine triple_pure fun s hs => ⟨⟨hfits, fun hb p hp => ?_⟩, hs⟩
      rcases mem_append.1 hp with hp | hp
      · exact hnone hb p hp
      · exact mem_singleton.1 hp ▸ hN rfl
    | some stop =>
      have hnew : ∀ b ∈ some (stop, q), b.2 ∈ qs ∧ M b.2 := by
        simpa using ⟨hq, hM rfl⟩
      cases best with
      | none => exact triple_pure fun s hs => ⟨⟨hnew, by simp⟩, hs⟩
      | some best =>
        refine triple_pure fun s hs => ⟨?_, hs⟩
        split
        · exact ⟨hnew, by simp⟩
        · exact ⟨hfits, by simp⟩

section

variable (hmeasure : ∀ q ∈ qs, Triple P (read rules text fuel q false true pos) (fun _ s => M q ∧ P s) (fun s => N q ∧ P s))

include hmeasure

theorem triple_measured {items : List (Pattern ρ σ)} (hqs : before ++ items = qs) (hbest : Measured qs before M N best) :
    Triple P (items.foldlM (measure rules text fuel pos) best) (fun best s => Measured qs qs M N best ∧ P s) E := by
  induction items generalizing before best with
  | nil =>
    rw [append_nil] at hqs
    subst hqs
    exact triple_pure fun s hs => ⟨hbest, hs⟩
  | cons q items ih =>
    have hq : q ∈ qs := hqs ▸ mem_append_right before mem_cons_self
    refine triple_bind (triple_measure hq (hmeasure q hq) hbest) fun best => ?_
    refine triple_given fun hbest => ih ?_ hbest
    rw [append_assoc]
    exact hqs

theorem triple_longest {acting skip : Bool} {Q : Nat × Found → σ → Prop}
    (hread : ∀ q ∈ qs, M q → Triple P (read rules text fuel q acting true pos) Q E) (hE : (∀ q ∈ qs, N q) → ∀ s, P s → E s) :
    Triple P (read rules text (fuel + 1) (.longest qs) acting skip pos) Q E := by
  change Triple P (_ >>= _) Q E
  simp only [Pattern.skips, Bool.and_false]
  have hstart : Measured qs [] M N none := ⟨by simp, by simp⟩
  refine triple_bind (triple_measured hmeasure rfl hstart) fun best => ?_
  refine triple_given fun hbest => ?_
  cases best with
  | none => exact triple_mismatch (hE (hbest.2 rfl))
  | some best =>
    obtain ⟨hmem, hfits⟩ := hbest.1 best rfl
    exact triple_reached (hread best.2 hmem hfits)

end

end Longest

end Frame

end ScummKit.Grammar
