import ScummKit.Proofs.Script.Reading

/-!
# Readings followed run by run

`Triple` speaks of the state of the actions and forgets the stored captures. Where these matter too, a
reading is followed as one run between two machines: `Gets` says that it succeeds, `Misses` that the
text does not match, and both take the patterns apart one by one. `Invariant` says what every run keeps
to, and `Frame.read` that it is enough to look at the few steps that change a machine at all.
-/

namespace ScummKit.Grammar

open List

variable {ρ σ α β : Type}
variable {x : Run σ α} {m m' : Machine σ} {a : α} {stop : Nat} {found : Found}
variable {qs : List (Pattern ρ σ)} {y : Unit → Run σ α} {acting skip : Bool} {r : Nat × Found} {name : String}

/-- A reading succeeds with a value and leaves a machine. -/
def Gets (x : Run σ α) (m : Machine σ) (a : α) (m' : Machine σ) : Prop := x.run.run m = (.ok a, m')

/-- The text does not match, and a machine is left. -/
def Misses (x : Run σ α) (m m' : Machine σ) : Prop := x.run.run m = (.error .mismatch, m')

/-! ### Steps -/

section Steps

variable {f : α → Run σ β} {c : α} {b : β}
variable {step : β → Run σ α} {Q : α → σ → Prop}

@[simp] theorem gets_pure : Gets (pure a : Run σ α) m c m' ↔ c = a ∧ m' = m := by
  change (Except.ok a, m) = (Except.ok c, m') ↔ _
  simp [eq_comm]

theorem not_gets_throw {e : Stop} : ¬Gets (throw e : Run σ α) m a m' := nofun

theorem gets_bind : Gets (x >>= f) m b m' ↔ ∃ a m₁, Gets x m a m₁ ∧ Gets (f a) m₁ b m' := by
  simp only [Gets, ExceptT.run_bind, StateT.run_bind]
  constructor
  · intro h
    rcases hx : x.run.run m with ⟨e | a, m₁⟩
    all_goals rw [hx] at h
    · cases h
    · exact ⟨a, m₁, rfl, h⟩
  · rintro ⟨a, m₁, hx, hf⟩
    rw [hx]
    exact hf

theorem misses_bind_left (h : Misses x m m') : Misses (x >>= f) m m' := by
  rw [Misses, ExceptT.run_bind, StateT.run_bind, h]
  rfl

theorem gets_orElse : Gets (orElse x y) m a m' ↔ Gets x m a m' ∨ ∃ m₁, Misses x m m₁ ∧ Gets (y ()) m₁ a m' := by
  simp only [Gets, Misses, run_orElse]
  rcases x.run.run m with ⟨(_ | f) | b, m₁⟩
  · refine ⟨fun h => .inr ⟨m₁, rfl, h⟩, ?_⟩
    rintro (h | ⟨m₁, h, hy⟩)
    · cases h
    · cases h
      exact hy
  all_goals exact ⟨.inl, fun h => h.elim id fun ⟨_, h, _⟩ => absurd h nofun⟩

theorem not_gets_firstOf_nil : ¬Gets (firstOf step []) m a m' := nofun

theorem gets_firstOf {q : β} {qs : List β} : Gets (firstOf step (q :: qs)) m a m' ↔
    Gets (step q) m a m' ∨ ∃ m₁, Misses (step q) m m₁ ∧ Gets (firstOf step qs) m₁ a m' := gets_orElse

theorem Misses.unique {m₁ m₂ : Machine σ} (h₁ : Misses x m m₁) (h₂ : Misses x m m₂) : m₁ = m₂ :=
  congrArg Prod.snd (h₁.symm.trans h₂)

theorem Triple.gets {P E : σ → Prop} (hx : Triple P x Q E) (hm : P m.user) (h : Gets x m a m') : Q a m'.user := by
  have hrun := hx m hm
  rw [h] at hrun
  exact hrun

theorem Triple.misses {P E : σ → Prop} (hx : Triple P x Q E) (hm : P m.user) (h : Misses x m m') : E m'.user := by
  have hrun := hx m hm
  rw [h] at hrun
  exact hrun

def Machine.reached (m : Machine σ) (pos : Nat) : Machine σ := { m with furthest := max m.furthest pos }

theorem gets_reach {pos : Nat} {found : Found} : Gets (reach pos found) m r m' ↔ r = (pos, found) ∧ m' = m.reached pos := by
  change (Except.ok (pos, found), m.reached pos) = (Except.ok r, m') ↔ _
  simp [eq_comm]

variable {y : Run σ (Nat × Found)}

theorem gets_bind_reach {g : Found → Found} : Gets (y >>= fun r => reach r.1 (g r.2)) m (stop, found) m' ↔
    ∃ inner m₁, Gets y m (stop, inner) m₁ ∧ found = g inner ∧ m' = m₁.reached stop := by
  simp only [gets_bind, gets_reach]
  grind

theorem gets_bind_same : Gets (y >>= fun r => reach r.1 r.2) m (stop, found) m' ↔
    ∃ m₁, Gets y m (stop, found) m₁ ∧ m' = m₁.reached stop := by
  refine (gets_bind_reach (g := id)).trans ?_
  grind

theorem gets_bind_found {g : Found → Run σ Found} : Gets (y >>= fun r => do return (r.1, ← g r.2)) m (stop, found) m' ↔
      ∃ inner m₁, Gets y m (stop, inner) m₁ ∧ Gets (g inner) m₁ found m' := by
  simp only [gets_bind, gets_pure, Prod.mk.injEq]
  grind

end Steps

/-! ### Patterns -/

section Patterns

variable {rules : ρ → Pattern ρ σ} {text : Array Char} {fuel pos : Nat} {acting skip : Bool}
variable {q : Pattern ρ σ} {items : List (Pattern ρ σ)}

theorem fuel_of_gets (h : Gets (read rules text fuel q acting skip pos) m r m') : ∃ n, fuel = n + 1 := by
  cases fuel with
  | zero => cases h
  | succ n => exact ⟨n, rfl⟩

theorem gets_named : Gets (read rules text (fuel + 1) (.named name q) acting skip pos) m (stop, found) m' ↔
    ∃ inner m₁, Gets (read rules text fuel q acting skip pos) m (stop, inner) m₁ ∧
    Gets (inner.file name q.filesAll) m₁ found m' := by
  rw [read_named]
  exact gets_bind_found

theorem gets_group : Gets (read rules text (fuel + 1) (.group q) acting skip pos) m (stop, found) m' ↔
    ∃ inner m₁, Gets (read rules text fuel q acting false (seat text q skip pos)) m (stop, inner) m₁ ∧
    found = .own (.single inner.toToken) ∧ m' = m₁.reached stop :=
  gets_bind_reach (g := fun inner => .own (.single inner.toToken))

theorem gets_drop : Gets (read rules text (fuel + 1) (.drop q) acting skip pos) m (stop, found) m' ↔
    ∃ inner m₁, Gets (read rules text fuel q acting false (seat text q skip pos)) m (stop, inner) m₁ ∧
    found = .nothing ∧ m' = m₁.reached stop := gets_bind_reach (g := fun _ => .nothing)

theorem gets_seq : Gets (read rules text (fuel + 1) (.seq (q :: items)) acting skip pos) m (stop, found) m' ↔
    ∃ start inner m₁ m₂, Gets (read rules text fuel q acting false
    (if skip then skipBlanks text pos else pos)) m (start, inner) m₁ ∧
    Gets (readItems rules text fuel acting items (start, inner.settle)) m₁ (stop, found) m₂ ∧ m' = m₂.reached stop := by
  change Gets (read rules text fuel q acting false _ >>= fun r =>
    readItems rules text fuel acting items (r.1, r.2.settle) >>= fun r => reach r.1 r.2) m (stop, found) m' ↔ _
  rw [gets_bind]
  simp [gets_bind_same, Pattern.skips]

theorem gets_items_nil {start r : Nat × Found} : Gets (readItems rules text fuel acting [] start) m r m' ↔ r = start ∧ m' = m :=
  gets_pure

theorem gets_items_cons {before : Found} : Gets (readItems rules text fuel acting (q :: items) (pos, before)) m (stop, found) m' ↔
    ∃ next more m₁ joined m₂, Gets (read rules text fuel q acting true pos) m (next, more) m₁ ∧
    Gets (before.extend more) m₁ joined m₂ ∧
    Gets (readItems rules text fuel acting items (next, joined)) m₂ (stop, found) m' := by
  simp only [readItems, foldlM_cons, gets_bind, gets_pure, Prod.exists]
  grind

theorem gets_first : Gets (read rules text (fuel + 1) (.first qs) acting skip pos) m (stop, found) m' ↔
    ∃ m₁, Gets (firstOf (fun q => read rules text fuel q acting true pos) qs) m (stop, found) m₁ ∧ m' = m₁.reached stop := by
  refine gets_bind_same.trans ?_
  simp [Pattern.skips]

theorem gets_opt : Gets (read rules text (fuel + 1) (.opt q) acting skip pos) m (stop, found) m' ↔
    ∃ m₁, (Gets (read rules text fuel q acting false (seat text q skip pos)) m (stop, found) m₁ ∨
    Misses (read rules text fuel q acting false (seat text q skip pos)) m m₁ ∧
    stop = seat text q skip pos ∧ found = .nothing) ∧ m' = m₁.reached stop := by
  change Gets (orElse (read rules text fuel q acting false (seat text q skip pos))
    (fun _ => return (seat text q skip pos, .nothing)) >>= fun r => reach r.1 r.2) m (stop, found) m' ↔ _
  rw [gets_bind_same]
  simp only [gets_orElse, gets_pure]
  grind

theorem gets_atom (hq : q.isAtom) : Gets (read rules text (fuel + 1) q acting skip pos) m (stop, found) m' ↔
    readAtom text (seat text q skip pos) q m.user = some (stop, found) ∧ m' = m.reached stop := by
  rw [Gets, run_atom hq]
  change Gets _ m (stop, found) m' ↔ _
  rcases readAtom text (seat text q skip pos) q m.user with _ | ⟨stop, found⟩
  · simpa using not_gets_throw
  · rw [gets_reach]
    grind

theorem gets_perform {f : Action σ} {site : Site} {out : Found} : Gets (perform f site found) m out m' ↔
    ∃ reply, Gets (f site (found.seen m)) m reply m' ∧ out = reply.onto found := by
  rw [Gets, run_perform]
  rcases hf : (f site (found.seen m)).run.run m with ⟨(_ | e) | reply, m₁⟩
  · simp only [Gets, hf]
    exact ⟨nofun, fun ⟨_, h, _⟩ => absurd h nofun⟩
  · simp only [Gets, hf]
    cases e <;> exact ⟨nofun, fun ⟨_, h, _⟩ => absurd h nofun⟩
  · simp only [Gets, hf]
    constructor
    · intro h
      cases reply <;> cases h <;> exact ⟨_, rfl, rfl⟩
    · rintro ⟨_, h, rfl⟩
      cases h
      cases reply <;> rfl

end Patterns

/-! ### What every run keeps to -/

/-- Every run from a machine with `P` ends in one with `P`, and what it gives has `Q`. -/
def Invariant (P : Machine σ → Prop) (x : Run σ α) (Q : α → Prop) : Prop :=
  ∀ m, P m → P (x.run.run m).2 ∧ ∀ a, (x.run.run m).1 = .ok a → Q a

section Invariants

variable {P : Machine σ → Prop} {Q R : α → Prop}

theorem invariant_pure {a : α} (h : Q a) : Invariant P (pure a) Q := by
  refine fun m hm => ⟨hm, fun b hb => ?_⟩
  cases hb
  exact h

theorem invariant_throw (e : Stop) : Invariant P (throw e) Q := fun _ hm => ⟨hm, nofun⟩

theorem invariant_bind {f : α → Run σ β} {Q : β → Prop} (hx : Invariant P x R)
    (hf : ∀ a, R a → Invariant P (f a) Q) : Invariant P (x >>= f) Q := by
  intro m hm
  have h := hx m hm
  rw [ExceptT.run_bind, StateT.run_bind]
  rcases hr : x.run.run m with ⟨e | a, m'⟩
  all_goals rw [hr] at h
  · exact ⟨h.1, nofun⟩
  · exact hf a (h.2 a rfl) m' h.1

theorem invariant_look {f : Machine σ → Run σ α} (h : ∀ m, P m → Invariant P (f m) Q) : Invariant P (get >>= f) Q :=
  fun m hm => h m hm m hm

theorem invariant_orElse (hx : Invariant P x Q) (hy : Invariant P (y ()) Q) : Invariant P (orElse x y) Q := by
  intro m hm
  have h := hx m hm
  rw [run_orElse]
  rcases hr : x.run.run m with ⟨(_ | f) | a, m'⟩
  all_goals rw [hr] at h
  · exact hy m' h.1
  · exact ⟨h.1, nofun⟩
  · exact ⟨h.1, h.2⟩

theorem invariant_firstOf {step : β → Run σ α} {qs : List β}
    (h : ∀ q ∈ qs, Invariant P (step q) Q) : Invariant P (firstOf step qs) Q := by
  induction qs with
  | nil => exact invariant_throw _
  | cons q qs ih =>
    refine invariant_orElse (h q mem_cons_self) ?_
    exact ih fun p hp => h p (mem_cons_of_mem _ hp)

theorem invariant_foldlM {step : α → β → Run σ α} {items : List β}
    (h : ∀ b ∈ items, ∀ a, Q a → Invariant P (step a b) Q) : ∀ a, Q a → Invariant P (items.foldlM step a) Q := by
  induction items with
  | nil => exact fun a ha => invariant_pure ha
  | cons b items ih =>
    intro a ha
    exact invariant_bind (h b mem_cons_self a ha) (ih fun b hb => h b (mem_cons_of_mem _ hb))

theorem invariant_attempt (hx : Invariant P x Q) :
    Invariant P (orElse (do return some (← x)) (fun _ => return none)) fun r => ∀ a, r = some a → Q a := by
  refine invariant_orElse (invariant_bind hx fun a ha => invariant_pure ?_) (invariant_pure nofun)
  rintro _ ⟨⟩
  exact ha

theorem invariant_file {F : Found → Prop} {C : Capture → Prop} {found : Found}
    {whole : Bool} (hfound : F found) (hview : Invariant P found.view C) (hown : ∀ c t, C c → F (.own (c.file name t)))
    (hstored : ∀ i t, found = .stored i → Invariant P (changeStored i (·.file name t)) fun _ => True) :
    Invariant P (found.file name whole) F := by
  have hpure (filed : Option Token) : Invariant P (pure filed) fun _ => True := invariant_pure trivial
  have hthrow (e : Stop) : Invariant P (throw e) fun _ : Option Token => True := invariant_throw e
  unfold Found.file
  split
  · exact invariant_pure hfound
  refine invariant_bind hview fun c hc => ?_
  dsimp only
  split
  rotate_left
  split
  -- the last step is the same, whatever there is to be filed
  all_goals
    refine invariant_bind (by first | exact hpure _ | exact hthrow _) fun filed _ => ?_
    split
    · exact invariant_pure hfound
    · exact invariant_bind (hstored _ _ rfl) fun _ _ => invariant_pure hfound
    · exact invariant_pure (hown c _ hc)

theorem Invariant.gets (hx : Invariant P x Q) (hm : P m) (h : Gets x m a m') : P m' ∧ Q a := by
  have hrun := hx m hm
  rw [h] at hrun
  exact ⟨hrun.1, hrun.2 a rfl⟩

theorem Invariant.triple {P : σ → Prop} (hx : Invariant (fun m => P m.user) x Q) : Triple P x (fun a s => Q a ∧ P s) P := by
  intro m hm
  have h := hx m hm
  rcases hr : x.run.run m with ⟨(_ | f) | a, m'⟩
  all_goals rw [hr] at h
  · exact h.1
  · trivial
  · exact ⟨h.2 a rfl, h.1⟩

theorem Invariant.misses (hx : Invariant P x Q) (hm : P m) (h : Misses x m m') : P m' := by
  have hrun := hx m hm
  rw [h] at hrun
  exact hrun.1

end Invariants

/-! ### Frames -/

namespace Pattern

mutual

/-- The names under which a pattern files what it finds, and the rules it refers to. -/
def mentions : Pattern ρ σ → List (String ⊕ ρ)
  | .seq items => mentionsAll items
  | .first items => mentionsAll items
  | .longest items => mentionsAll items
  | .opt p => p.mentions
  | .many p => p.mentions
  | .some p => p.mentions
  | .group p => p.mentions
  | .drop p => p.mentions
  | .apart p => p.mentions
  | .named name p => .inl name :: p.mentions
  | .act _ p => p.mentions
  | .rule r _ => [.inr r]
  | _ => []

def mentionsAll : List (Pattern ρ σ) → List (String ⊕ ρ)
  | [] => []
  | p :: rest => p.mentions ++ mentionsAll rest

end

theorem mentions_subset {p : Pattern ρ σ} {items : List (Pattern ρ σ)} (hp : p ∈ items) : p.mentions ⊆ mentionsAll items := by
  induction items with
  | nil => exact absurd hp not_mem_nil
  | cons q items ih =>
    rcases mem_cons.1 hp with rfl | hp
    · exact subset_append_left _ _
    · exact subset_append_of_subset_right _ (ih hp)

end Pattern

/-- What is kept, of machines and of what is found, by the steps in which a reading changes a machine:
filing under the names in `N`, extending what was found, and the actions `A`. -/
structure Frame (P : Machine σ → Prop) (F : Found → Prop) (N : String ⊕ ρ → Prop) (A : Action σ → Prop) : Prop where
  reach : ∀ {m : Machine σ} (pos : Nat), P m → P (m.reached pos)
  nothing : F .nothing
  empty : F (.own .empty)
  single : ∀ t, F (.own (.single t))
  extend : ∀ {a b : Found}, F a → F b → Invariant P (a.extend b) F
  file : ∀ {name : String} {whole : Bool} {a : Found}, N (.inl name) → F a → Invariant P (a.file name whole) F
  perform : ∀ {f : Action σ} {site : Site} {a : Found}, A f → F a → Invariant P (perform f site a) F

namespace Frame

variable {rules : ρ → Pattern ρ σ} {text : Array Char} {P : Machine σ → Prop} {F : Found → Prop}
variable {N : String ⊕ ρ → Prop} {A : Action σ → Prop} {B : ρ → Prop} {fuel : Nat}

/-- With some fuel, reading patterns of a kind keeps to a frame. -/
def Holds (rules : ρ → Pattern ρ σ) (text : Array Char) (P : Machine σ → Prop) (F : Found → Prop)
    (N : String ⊕ ρ → Prop) (A : Action σ → Prop) (B : ρ → Prop) (fuel : Nat) : Prop :=
  ∀ p acting skip pos, p.Within A B → (∀ l ∈ p.mentions, N l) →
    Invariant P (read rules text fuel p acting skip pos) fun r => pos ≤ r.1 ∧ F r.2

variable {low pos : Nat}

section

variable (h : Frame P F N A) {found : Found}

include h

theorem invariant_reach (hlow : low ≤ pos) (hfound : F found) :
    Invariant P (Grammar.reach pos found) fun r => low ≤ r.1 ∧ F r.2 := by
  refine fun m hm => ⟨h.reach pos hm, fun r hr => ?_⟩
  cases hr
  exact ⟨hlow, hfound⟩

theorem atom {p : Pattern ρ σ} (hp : p.isAtom) :
    Invariant P (Grammar.read rules text (fuel + 1) p acting skip pos) fun r => pos ≤ r.1 ∧ F r.2 := by
  rw [read_atom hp]
  refine invariant_look fun m _ => ?_
  have hfound : ∀ r, readAtom text (seat text p skip pos) p m.user = some r → F r.2 := by
    intro r hr
    have hnothing := h.nothing
    have hsingle := h.single
    unfold readAtom at hr
    split at hr <;> grind [Option.map_eq_some_iff]
  rcases hr : readAtom text (seat text p skip pos) p m.user with _ | r
  · exact invariant_throw _
  · exact h.invariant_reach (Nat.le_trans (le_seat text p skip pos) (le_readAtom hr)) (hfound r hr)

theorem settle (hfound : F found) : F found.settle := by
  cases found
  · exact h.empty
  · exact hfound
  · exact hfound

theorem repeated {step : Nat → Run σ (Nat × Found)} (hstep : ∀ pos, Invariant P (step pos) fun r => pos ≤ r.1 ∧ F r.2) :
    ∀ rounds pos found, low ≤ pos → F found →
    Invariant P (Grammar.repeated step rounds pos found) fun r => low ≤ r.1 ∧ F r.2 := by
  intro rounds
  induction rounds with
  | zero => exact fun pos found hlow hfound => invariant_pure ⟨hlow, hfound⟩
  | succ rounds ih =>
    intro pos found hlow hfound
    refine invariant_bind (invariant_attempt (hstep pos)) fun r hr => ?_
    cases r with
    | none => exact invariant_pure ⟨hlow, hfound⟩
    | some r =>
      obtain ⟨hnext, hmore⟩ := hr r rfl
      exact invariant_bind (h.extend hfound hmore) fun found => ih r.1 found (Nat.le_trans hlow hnext)

theorem items {acting : Bool} {items : List (Pattern ρ σ)}
    (hitems : ∀ q ∈ items, ∀ pos, Invariant P (read rules text fuel q acting true pos)
    fun r => pos ≤ r.1 ∧ F r.2) : ∀ start : Nat × Found, low ≤ start.1 ∧ F start.2 →
    Invariant P (readItems rules text fuel acting items start) fun r => low ≤ r.1 ∧ F r.2 := by
  refine invariant_foldlM fun q hq start hstart => ?_
  refine invariant_bind (hitems q hq start.1) fun r hr => ?_
  exact invariant_bind (h.extend hstart.2 hr.2) fun found hfound =>
    invariant_pure ⟨Nat.le_trans hstart.1 hr.1, hfound⟩

theorem longest (hqs : ∀ q ∈ qs, ∀ acting, Invariant P (read rules text fuel q acting true pos) fun r => pos ≤ r.1 ∧ F r.2) :
    Invariant P (read rules text (fuel + 1) (.longest qs) acting skip pos) fun r => pos ≤ r.1 ∧ F r.2 := by
  change Invariant P (_ >>= _) _
  simp only [Pattern.skips, Bool.and_false]
  have hbest : ∀ best : Option (Nat × Pattern ρ σ), (∀ b ∈ best, b.2 ∈ qs) →
      Invariant P (qs.foldlM (measure rules text fuel pos) best) fun best => ∀ b ∈ best, b.2 ∈ qs := by
    refine invariant_foldlM fun q hq best hbest => ?_
    refine invariant_bind (R := fun _ => True) ?_ fun stop _ => ?_
    · exact invariant_orElse (invariant_bind (hqs q hq false) fun _ _ => invariant_pure trivial) (invariant_pure trivial)
    · have hnew : ∀ s : Nat, ∀ b ∈ some (s, q), b.2 ∈ qs := by simpa using hq
      cases stop with
      | none => exact invariant_pure hbest
      | some stop =>
        cases best with
        | none => exact invariant_pure (hnew stop)
        | some best =>
          refine invariant_pure ?_
          split
          · exact hnew stop
          · exact hbest
  refine invariant_bind (hbest none (by simp)) fun best hmem => ?_
  cases best with
  | none => exact invariant_throw _
  | some best =>
    exact invariant_bind (hqs best.2 (hmem best rfl) acting) fun r hr => h.invariant_reach hr.1 hr.2

/-- What the few steps that change a machine keep to, every reading keeps to, and none goes backwards. -/
theorem read (text : Array Char) (hrules : ∀ r, B r → N (.inr r) → (rules r).Within A B ∧ ∀ l ∈ (rules r).mentions, N l) :
    ∀ fuel, Holds rules text P F N A B fuel := by
  intro fuel
  induction fuel with
  | zero => exact fun p acting skip pos _ _ => invariant_throw _
  | succ fuel hread =>
    intro p acting skip pos hp hmentions
    have hseat := fun q : Pattern ρ σ => le_seat text q skip pos
    cases p with
    | seq items =>
      cases items with
      | nil => exact h.invariant_reach (hseat (.seq [])) h.nothing
      | cons q items =>
        have hall := Pattern.withinAll_iff.1 hp
        have hall' : ∀ q' ∈ q :: items, ∀ l ∈ q'.mentions, N l := fun q' hq' l hl =>
          hmentions l (Pattern.mentions_subset hq' hl)
        refine invariant_bind (hread q acting false _ (hall q mem_cons_self) (hall' q mem_cons_self)) fun r hr => ?_
        refine invariant_bind (h.items (fun q' hq' pos => hread q' acting true pos
          (hall q' (mem_cons_of_mem _ hq')) (hall' q' (mem_cons_of_mem _ hq'))) (r.1, r.2.settle)
          ⟨Nat.le_trans (hseat (.seq _)) hr.1, h.settle hr.2⟩) fun r hr => h.invariant_reach hr.1 hr.2
    | first qs =>
      have hall := Pattern.withinAll_iff.1 hp
      refine invariant_bind (invariant_firstOf fun q hq => hread q acting true _ (hall q hq) fun l hl =>
        hmentions l (Pattern.mentions_subset hq hl)) fun r hr => ?_
      exact h.invariant_reach (Nat.le_trans (hseat (.first qs)) hr.1) hr.2
    | longest qs =>
      have hall := Pattern.withinAll_iff.1 hp
      exact h.longest fun q hq acting => hread q acting true pos (hall q hq) fun l hl =>
        hmentions l (Pattern.mentions_subset hq hl)
    | opt q =>
      refine invariant_bind (invariant_orElse (hread q acting false _ hp hmentions)
        (invariant_pure ⟨Nat.le_refl _, h.nothing⟩)) fun r hr => ?_
      exact h.invariant_reach (Nat.le_trans (hseat q) hr.1) hr.2
    | many q =>
      refine invariant_bind (invariant_attempt (hread q acting false _ hp hmentions)) fun r hr => ?_
      cases r with
      | none => exact h.invariant_reach (hseat q) h.nothing
      | some r =>
        obtain ⟨hstop, hfound⟩ := hr r rfl
        refine invariant_bind (h.repeated (fun pos => hread q acting true pos hp hmentions) _ _ _
          (Nat.le_trans (hseat q) hstop) hfound) fun r hr => h.invariant_reach hr.1 hr.2
    | some q =>
      refine invariant_bind (hread q acting false _ hp hmentions) fun r hr => ?_
      refine invariant_bind (h.repeated (fun pos => hread q acting true pos hp hmentions) _ _ _
        (Nat.le_trans (hseat q) hr.1) hr.2) fun r hr => h.invariant_reach hr.1 hr.2
    | group q =>
      exact invariant_bind (hread q acting false _ hp hmentions) fun r hr =>
        h.invariant_reach (Nat.le_trans (hseat q) hr.1) (h.single _)
    | drop q =>
      exact invariant_bind (hread q acting false _ hp hmentions) fun r hr =>
        h.invariant_reach (Nat.le_trans (hseat q) hr.1) h.nothing
    | apart q =>
      exact invariant_bind (hread q acting false _ hp hmentions) fun r hr =>
        h.invariant_reach (Nat.le_trans (hseat (.apart q)) hr.1) hr.2
    | named name q =>
      have hinner := hread q acting skip pos hp fun l hl => hmentions l (mem_cons_of_mem _ hl)
      refine invariant_bind hinner fun r hr => ?_
      refine invariant_bind (h.file (hmentions _ mem_cons_self) hr.2) fun found hfound => ?_
      exact invariant_pure ⟨hr.1, hfound⟩
    | act f q =>
      refine invariant_bind (hread q acting skip pos hp.2 hmentions) fun r hr => ?_
      cases acting with
      | false => exact invariant_pure hr
      | true =>
        refine invariant_bind (h.perform hp.1 hr.2) fun found hfound => ?_
        exact invariant_pure ⟨hr.1, hfound⟩
    | rule r b =>
      obtain ⟨hwithin, hall⟩ := hrules r hp (hmentions _ mem_cons_self)
      exact hread (rules r) acting skip pos hwithin hall
    | _ => exact h.atom rfl

end

end Frame

end ScummKit.Grammar
