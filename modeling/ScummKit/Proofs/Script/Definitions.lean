import ScummKit.Proofs.Script.Lines

/-!
# What defined names stand for

A name that was given a meaning stands for a stored capture, and reading on can change that capture: a
name filed on it, or what follows it in a sequence, is added to it. Whatever is added, the capture of a
defined name goes on describing an operand: a variable or a value.
-/

namespace ScummKit.Script

open Grammar Build Lexicon Special Statement List

variable {name : String} {found : Found} {i : Nat} {c : Capture}

def Describes (c : Capture) : Prop := (isVariable c = true ∨ c.has "value" = true) ∧ c.has "expop" = false

/-- Every defined name stands for an operand. -/
def Defined (m : Machine Assembler) : Prop :=
  ∀ name i, Table.find? name m.user.definitions = some i → Describes (m.store.fetch i)

/-! ### Captures that grow -/

theorem has_file (c : Capture) (name k : String) (t : Token) : (c.file name t).has k = (name == k || c.has k) := by
  change (Table.find? k (Table.put name t c.names)).isSome = _
  rw [Table.find?_put]
  by_cases h : name = k
  · simp [h]
  · simp [h, Capture.has, Capture.find?]

theorem isVariable_append (c d : Capture) : isVariable (c ++ d) = (isVariable c || isVariable d) := by
  simp only [isVariable, has_append]
  cases c.has "kind" <;> cases c.has "known" <;> simp

theorem Describes.append {c d : Capture} (hc : Describes c) (hd : d.has "expop" = false) : Describes (c ++ d) := by
  refine ⟨?_, by rw [has_append, hc.2, hd]; rfl⟩
  rw [isVariable_append, has_append]
  rcases hc.1 with h | h <;> simp [h]

theorem Describes.file (hc : Describes c) (hname : name ≠ "expop") (t : Token) : Describes (c.file name t) := by
  refine ⟨?_, ?_⟩
  · simp only [isVariable, has_file]
    rcases hc.1 with h | h
    · rcases Bool.or_eq_true_iff.1 h with h | h <;> simp [h]
    · simp [h]
  · rw [has_file, hc.2, Bool.or_false, beq_eq_false_iff_ne]
    exact hname

theorem fetch_modify (s : Store) (i j : Nat) (f : Capture → Capture) :
    Store.fetch (s.modify i f) j = if i = j ∧ j < s.size then f (s.fetch j) else s.fetch j := by
  simp only [Store.fetch, Array.getElem?_modify]
  by_cases hij : i = j <;> by_cases hj : j < s.size <;> simp [hij, hj]

/-! ### Readings keep definitions -/

section Frames

variable {u : Assembler}
variable {m : Machine Assembler} {f : Capture → Capture}

/-- A machine in the state `u` in which every defined name stands for an operand. -/
def Fit (u : Assembler) (m : Machine Assembler) : Prop := m.user = u ∧ Defined m

theorem Fit.reached (hm : Fit u m) {pos : Nat} : Fit u (m.reached pos) := hm

/-- What was found holds no instruction of an expression; if it is stored, a defined name stands for
it. -/
def Tame (u : Assembler) : Found → Prop
  | .nothing => True
  | .own c => c.has "expop" = false
  | .stored i => ∃ name, Table.find? name u.definitions = some i

theorem Tame.seen (h : Tame u found) (hm : Fit u m) : (found.seen m).has "expop" = false := by
  cases found with
  | nothing => rfl
  | own c => exact h
  | stored i =>
    obtain ⟨name, hname⟩ := h
    obtain ⟨rfl, hdefined⟩ := hm
    exact (hdefined name i hname).2

theorem fit_changeStored (hm : Fit u m) (hf : ∀ c, Describes c → Describes (f c)) :
    Fit u { m with store := m.store.modify i f } := by
  refine ⟨hm.1, fun name j hj => ?_⟩
  have hdescribes := hm.2 name j hj
  rw [fetch_modify]
  split
  · exact hf _ hdescribes
  · exact hdescribes

theorem invariant_view (h : Tame u found) : Invariant (Fit u) found.view fun c => c.has "expop" = false := by
  intro m hm
  rw [run_view]
  refine ⟨hm, fun c hc => ?_⟩
  cases hc
  exact h.seen hm

theorem invariant_changeStored (hf : ∀ c, Describes c → Describes (f c)) : Invariant (Fit u) (changeStored i f) fun _ => True :=
  fun _ hm => ⟨fit_changeStored hm hf, fun _ _ => trivial⟩

theorem invariant_extend {a b : Found} (ha : Tame u a) (hb : Tame u b) : Invariant (Fit u) (a.extend b) (Tame u) := by
  refine invariant_bind (invariant_view hb) fun more hmore => ?_
  cases a with
  | nothing => exact invariant_pure ((has_append _ _ _).trans hmore)
  | own c =>
    refine invariant_pure ((has_append _ _ _).trans ?_)
    rw [ha, hmore]
    rfl
  | stored i =>
    exact invariant_bind (invariant_changeStored fun c hc => hc.append hmore) fun _ _ =>
      invariant_pure ha

theorem invariant_perform {f : Action Assembler} (hf : Quiet f) {site : Site} {a : Found}
    (ha : Tame u a) : Invariant (Fit u) (perform f site a) (Tame u) := by
  intro m hm
  have hreplies := hf site (a.seen m)
  have hkeep := hreplies.1 m
  rw [run_perform]
  rcases hr : (f site (a.seen m)).run.run m with ⟨(_ | e) | reply, m'⟩
  all_goals
    rw [hr] at hkeep
    obtain rfl : m' = m := hkeep
  · exact ⟨hm, nofun⟩
  · cases e <;> exact ⟨hm, nofun⟩
  · have hmodest := hreplies.2 m' reply m' hr
    rw [hm.1] at hmodest
    cases reply with
    | keep => exact ⟨hm, by rintro _ ⟨⟩; exact ha⟩
    | tokens ts => exact ⟨hm, by rintro _ ⟨⟩; rfl⟩
    | capture c => exact hmodest.elim
    | shared i => exact ⟨hm, by rintro _ ⟨⟩; exact hmodest⟩

/-- A pattern may file under any name but that of an instruction of an expression, and refer to
variables only. -/
def plain : String ⊕ Rule → Bool
  | .inl name => name ≠ "expop"
  | .inr r => r = .variable

theorem frame_fit (u : Assembler) : Frame (Fit u) (Tame u) (plain · = true) Quiet where
  reach _ hm := hm.reached
  nothing := trivial
  empty := rfl
  single _ := rfl
  extend := invariant_extend
  file := by
    intro name whole a hname ha
    have hne : name ≠ "expop" := of_decide_eq_true hname
    refine invariant_file ha (invariant_view ha) (fun c t hc => (has_file _ _ _ _).trans ?_)
      fun _ _ _ => invariant_changeStored fun c hc => hc.file hne _
    rw [hc, Bool.or_false, beq_eq_false_iff_ne]
    exact hne
  perform hf ha := invariant_perform hf ha

end Frames

/-! ### Operands and instructions -/

section Patterns

variable {v : Version} {legacy : Bool} {text : Array Char} {u : Assembler} {fuel pos : Nat}
variable {acting skip : Bool} {p : Syn}

theorem invariant_plain (hp : Inert p) (hplain : p.mentions.all plain = true) :
    Invariant (Fit u) (read (rules v legacy) text fuel p acting skip pos) fun r => Tame u r.2 := by
  have hrules : ∀ r, r ≠ .block → plain (.inr r) = true →
      Inert (rules v legacy r) ∧ ∀ l ∈ (rules v legacy r).mentions, plain l = true := by
    intro r _ hr
    obtain rfl : r = .variable := of_decide_eq_true hr
    exact ⟨inert_variableRule, all_eq_true.1 (by decide +kernel : variableRule.mentions.all plain = true)⟩
  have hread := (frame_fit u).read text hrules fuel p acting skip pos hp (all_eq_true.1 hplain)
  exact fun m hm => ⟨(hread m hm).1, fun r hr => ((hread m hm).2 r hr).2⟩

def callee (v : Version) (legacy : Bool) : Syn := .first [.first (all v legacy), .first (functions v legacy)]

theorem emitter_callee (v : Version) (legacy : Bool) : Emitter (callee v legacy) := by
  simpa [callee] using ⟨emitter_all v legacy, emitter_functions v legacy⟩

theorem plain_callee (v : Version) (legacy : Bool) : (callee v legacy).mentions.all plain = true := by
  cases v <;> cases legacy <;> decide +kernel

/-- What was found is stored, or describes a variable or a value. -/
def Describing : Found → Prop
  | .nothing => False
  | .own c => isVariable c = true ∨ c.has "value" = true
  | .stored _ => True

theorem describing_of_own (hname : name ∈ ["kind", "known", "value"])
    (h : ∃ c, found = .own c ∧ c.has name = true) : Describing found := by
  obtain ⟨c, rfl, hc⟩ := h
  simp only [mem_cons, not_mem_nil, or_false] at hname
  rcases hname with rfl | rfl | rfl <;> simp [Describing, isVariable, hc]

variable {P : Assembler → Prop}

theorem triple_items_has {items : List Syn} (hc : c.has name = true) :
    Triple (fun _ => True) (readItems (rules v legacy) text fuel acting items (pos, .own c))
    (fun r _ => ∃ c, r.2 = .own c ∧ c.has name = true) (fun _ => True) := by
  induction items generalizing pos c with
  | nil => exact triple_items_nil fun _ _ => ⟨c, rfl, hc⟩
  | cons q items ih =>
    refine triple_items_cons (S := fun _ found _ => ∃ c, found = .own c ∧ c.has name = true)
      triple_true (fun next more => ?_) fun next found => ?_
    · intro m _
      cases more <;> exact ⟨_, rfl, by rw [has_append, hc]; rfl⟩
    · refine triple_intro fun t ht => ?_
      obtain ⟨c, rfl, hc⟩ := ht
      exact triple_pre (ih hc) fun _ _ => trivial

/-- All that a pattern finds is of one kind. -/
def Finds (v : Version) (legacy : Bool) (text : Array Char) (p : Syn) (Q : Found → Prop) : Prop :=
  ∀ fuel skip pos, Triple (fun _ => True) (scan v legacy text fuel p skip pos) (fun r _ => Q r.2) fun _ => True

section Finds

variable {Q R : Found → Prop}

theorem finds_succ (h : ∀ fuel skip pos, Triple (fun _ => True) (scan v legacy text (fuel + 1) p skip pos) (fun r _ => Q r.2)
    fun _ => True) : Finds v legacy text p Q := by
  intro fuel skip pos
  cases fuel with
  | zero => exact triple_empty fun _ _ => trivial
  | succ fuel => exact h fuel skip pos

theorem finds_mono (h : Finds v legacy text p R) (hQ : ∀ found, R found → Q found) : Finds v legacy text p Q :=
  fun fuel skip pos => triple_post (h fuel skip pos) fun r _ => hQ r.2

theorem finds_atom (hp : p.isAtom) (h : ∀ pos t r, readAtom text pos p t = some r → Q r.2) : Finds v legacy text p Q :=
  finds_succ fun _ _ _ => triple_atom hp (fun t r _ hr => h _ t r hr) fun _ _ _ => trivial

theorem finds_first {ps : List Syn} (h : ∀ p ∈ ps, Finds v legacy text p Q) : Finds v legacy text (.first ps) Q :=
  finds_succ fun _ _ _ => triple_first (triple_firstOf (fun p hp => h p hp _ _ _) fun _ => id)

theorem finds_named (h : Finds v legacy text p R) (hfile : ∀ found, R found →
    Triple (fun _ => True) (found.file name p.filesAll) (fun found (_ : Assembler) => Q found) fun _ => True) :
    Finds v legacy text (.named name p) Q :=
  finds_succ fun _ _ _ => triple_named (h _ _ _) fun _ found => triple_intro fun _ ht =>
    triple_pre (hfile found ht) fun _ _ => trivial

theorem finds_named_word (hlist : p.filesAll = false) (h : Finds v legacy text p IsWord) :
    Finds v legacy text (.named name p) fun found => ∃ c, found = .own c ∧ c.has name = true := by
  refine finds_named h ?_
  rintro _ ⟨w, rfl⟩ m _
  rw [hlist]
  exact ⟨_, rfl, by simp [has_file]⟩

end Finds

theorem finds_defined : Finds v legacy text defined fun found => ∃ i, found = .stored i := by
  refine finds_succ fun fuel skip pos => triple_act triple_true fun stop found =>
    triple_perform (fun m r m' _ hr => ?_) fun _ _ _ _ _ => trivial
  obtain ⟨_, i, -, rfl⟩ := defined_eq_ok hr
  exact ⟨i, rfl⟩

theorem finds_inScope (scope : String) : Finds v legacy text (inScope scope) Describing := by
  have hkind : Finds v legacy text (.named "kind" (.literal scope)) fun found => ∃ c, found = .own c ∧ c.has "kind" = true := by
    refine finds_named_word rfl (finds_atom rfl fun pos t r hr => ?_)
    obtain ⟨-, hr⟩ := Option.ite_none_right_eq_some.1 hr
    cases hr
    exact ⟨_, rfl⟩
  refine finds_succ fun fuel skip pos => triple_seq (hkind _ _ _) fun stop found => triple_intro fun t ht => ?_
  obtain ⟨c, hfound, hc⟩ := ht
  rw [show found = _ from hfound]
  exact triple_mono (triple_items_has hc) (fun _ _ => trivial) (fun r t hr => describing_of_own (by simp) hr) fun _ => id

theorem finds_known : Finds v legacy text known Describing := by
  refine finds_succ fun fuel skip pos => triple_apart (finds_mono (finds_named_word rfl (finds_atom rfl fun pos t r hr => ?_))
    (fun found hfound => describing_of_own (by simp) hfound) _ _ _)
  obtain ⟨w, -, rfl⟩ := Option.map_eq_some_iff.1 hr
  exact ⟨_, rfl⟩

theorem triple_file_stored {whole : Bool} : Triple (fun _ => True) ((Found.stored i).file name whole)
    (fun found (_ : Assembler) => found = .stored i) (fun _ => True) := by
  refine triple_bind triple_true fun c => ?_
  split
  rotate_left
  split
  all_goals
    refine triple_bind triple_true fun filed => ?_
    cases filed with
    | none => exact triple_pure fun _ _ => rfl
    | some t => exact triple_bind triple_true fun _ => triple_pure fun _ _ => rfl

theorem finds_constant : Finds v legacy text (constant "value") Describing := by
  refine finds_named (R := fun found => IsWord found ∨ ∃ i, found = .stored i) (finds_first ?_) ?_
  · simp only [forall_mem_singleton, forall_mem_cons]
    refine ⟨finds_atom rfl fun pos t r hr => .inl ?_, finds_mono finds_defined fun _ => .inr⟩
    rw [int, readAtom] at hr
    split at hr
    · obtain ⟨-, hr⟩ := Option.ite_none_right_eq_some.1 hr
      cases hr
      exact ⟨_, rfl⟩
    · cases hr
  · rintro _ (⟨w, rfl⟩ | ⟨i, rfl⟩)
    · intro m _
      exact .inr (by simp [has_file])
    · refine triple_post triple_file_stored fun found t ht => ?_
      rw [ht]
      trivial

theorem finds_operand : Finds v legacy text operand Describing := by
  refine finds_first ?_
  simp only [forall_mem_singleton, forall_mem_cons]
  refine ⟨finds_succ fun fuel skip pos => triple_rule (finds_first ?_ _ _ _), finds_constant⟩
  simp only [forall_mem_singleton, forall_mem_cons]
  refine ⟨finds_inScope _, finds_inScope _, finds_inScope _, finds_known, finds_mono finds_defined ?_⟩
  rintro _ ⟨i, rfl⟩
  trivial

end Patterns

end ScummKit.Script
