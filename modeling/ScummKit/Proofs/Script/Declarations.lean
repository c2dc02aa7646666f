import ScummKit.Proofs.Script.Scripts

/-!
# What directives declare

The directives in front of a script say what it is for: they give names a meaning, list the events of
an object and describe the object. Nothing behind them declares anything more, so the events of a script
are those of its directives (`readText_scheduled`): each has one label, which is a name.
-/

namespace ScummKit.Script

open Grammar Build Lexicon Special Statement List

/-- The engine is the one that was asked for, and every event has one label, which is a name. -/
structure Assembler.Scheduled (v : Version) (a : Assembler) : Prop where
  version : a.version = v
  keys : (a.events.map Prod.fst).Nodup
  names : ∀ e ∈ a.events, ∃ name : Name, name.text = e.2

theorem Assembler.Scheduled.put {v : Version} {a : Assembler} (h : a.Scheduled v) (key : Int)
    (name : Name) : Assembler.Scheduled v { a with events := Table.put key name.text a.events } where
  version := h.version
  keys := Table.nodup_put _ _ h.keys
  names := fun e he => (Table.mem_put he).elim (fun he => ⟨name, by rw [he]⟩) (h.names e)

theorem triple_both {α : Type} {P P' E E' : Assembler → Prop} {Q Q' : α → Assembler → Prop}
    {x : Build α} (h : Triple P x Q E) (h' : Triple P' x Q' E') :
    Triple (fun s => P s ∧ P' s) x (fun a s => Q a s ∧ Q' a s) (fun s => E s ∧ E' s) := by
  intro m hm
  have hrun := h m hm.1
  have hrun' := h' m hm.2
  rcases hr : x.run.run m with ⟨(_ | f) | a, m'⟩
  all_goals rw [hr] at hrun hrun'
  · exact ⟨hrun, hrun'⟩
  · trivial
  · exact ⟨hrun, hrun'⟩

section Events

variable {v : Version} {legacy : Bool} {text : Array Char} {fuel pos : Nat} {skip : Bool}

/-- A token that stands for an event with a name for its label. -/
def IsEntry (t : Token) : Prop := ∃ c : Capture, t = c.toToken ∧ ∃ name : Name, Build.textUnder c "value" = name.text

theorem triple_entry : Triple (fun _ => True) (scan v legacy text (fuel + 4) (.group (.seq
    [.named "key" (.atMost 2 isHex), mark "-", .named "value" label])) skip pos)
    (fun r _ => ∃ t, IsEntry t ∧ r.2 = .own (.single t)) (fun _ => True) := by
  refine triple_group (triple_seq_then (triple_named_then (triple_atom rfl ?_ fun _ _ _ => trivial)))
  intro t r _ hr
  obtain ⟨w, hw⟩ : IsWord r.2 := by
    generalize seat text _ _ _ = here at hr
    rw [readAtom] at hr
    split at hr
    · cases hr
      exact ⟨_, rfl⟩
    · cases hr
  rw [hw]
  intro m _
  refine triple_pre (triple_items_mark (fun _ _ _ => trivial) fun stop _ => ?_) fun _ _ => trivial
  refine triple_items_name (fun _ _ _ => trivial) fun name stop _ => triple_items_nil fun _ _ => ?_
  exact ⟨_, ⟨_, rfl, name, textUnder_append _ _ _ _⟩, rfl⟩

def IsEntries (found : Found) : Prop := ∃ ts, found = .own ⟨ts, []⟩ ∧ ∀ t ∈ ts, IsEntry t

theorem isEntries_single {found : Found} (h : ∃ t, IsEntry t ∧ found = .own (.single t)) : IsEntries found := by
  obtain ⟨t, ht, rfl⟩ := h
  exact ⟨[t], rfl, by simpa using ht⟩

theorem lists_entries {ts : List Token} (hts : ∀ t ∈ ts, IsEntry t) :
    Lists (fun label => ∃ name : Name, name.text = label) ⟨ts, [("entries", .group ts [])]⟩ := by
  intro m entries m' hentries t ht m₁ entry m₂ hentry
  obtain ⟨rfl, -⟩ := gets_pure.1 hentries
  obtain ⟨c, rfl, name, hname⟩ := hts t ht
  obtain ⟨rfl, -⟩ := gets_pure.1 hentry
  exact ⟨name, hname.symm⟩

theorem triple_entries (h : Fresh text skip pos) : Triple (fun _ => True) (scan v legacy text (fuel + 7) (.seq [mark "Events:",
    .named "entries" (.some (.group (.seq [.named "key" (.atMost 2 isHex), mark "-", .named "value" label])))]) skip pos)
    (fun r _ => ∃ c, r.2 = .own c ∧ Lists (fun label => ∃ name : Name, name.text = label) c) (fun _ => True) := by
  refine triple_seq_mark h (fun _ _ _ => trivial) fun start _ => ?_
  -- the entries one by one
  have hsome : Triple (fun _ => True) (scan v legacy text (fuel + 5) (.some (.group (.seq
      [.named "key" (.atMost 2 isHex), mark "-", .named "value" label]))) true start)
      (fun r _ => IsEntries r.2) (fun _ => True) := by
    refine triple_some (triple_post triple_entry fun _ _ =>
      isEntries_single) fun stop found => triple_repeated (R := fun _ found _ => IsEntries found)
        (S := fun _ found _ more _ => IsEntries found ∧ IsEntries more) ?_ ?_ (fun _ _ _ => id) _ _ _
    · intro here found
      refine triple_intro fun t ht => ?_
      exact triple_mono triple_entry (fun _ _ => trivial) (fun r s hs => ⟨ht, isEntries_single hs⟩) fun _ _ => ht
    · intro here found next more
      refine triple_intro fun t ht => ?_
      obtain ⟨⟨ts, rfl, hts⟩, ts', rfl, hts'⟩ := ht
      refine fun m _ => ⟨ts ++ ts', rfl, fun t ht => ?_⟩
      exact (mem_append.1 ht).elim (hts t) (hts' t)
  refine triple_items_then (triple_named_then (triple_post hsome ?_))
  rintro ⟨stop, _⟩ _ ⟨ts, rfl, hts⟩ m _ m' _
  exact triple_items_nil fun _ _ => ⟨⟨ts, [("entries", .group ts [])]⟩, rfl, lists_entries hts⟩

theorem Assembler.Scheduled.declared : Declared (Assembler.Scheduled v) where
  kind := fun _ _ _ h => ⟨h.version, h.keys, h.names⟩
  number := fun _ _ h => ⟨h.version, h.keys, h.names⟩
  define := fun _ _ _ h => ⟨h.version, h.keys, h.names⟩
  object := fun _ _ _ _ h => ⟨h.version, h.keys, h.names⟩

theorem triple_directive_scheduled : Triple (Assembler.Scheduled v) (scan v legacy text (fuel + 9) (directive v legacy) skip pos)
    (fun r t => HasCodes r.2 [] ∧ t.Scheduled v) (Assembler.Scheduled v) := by
  refine triple_directive Assembler.Scheduled.declared (triple_act_then (triple_mono (triple_both
    (triple_entries fresh_true) (triple_kept (by simp [label]))) (fun s hs => ⟨trivial, hs⟩) ?_
    fun _ hs => hs.2))
  rintro ⟨stop, _⟩ t ⟨⟨c, rfl, hlists⟩, ht⟩
  refine triple_pre (triple_perform_spares fun m => spares_events Assembler.Scheduled.declared ?_ hlists) fun s hs => hs ▸ ht
  rintro a key _ ⟨name, rfl⟩ ha
  exact ha.put key name

theorem readText_scheduled {trailing : Bool} {s : String} {words known : List String} {c : Capture}
    {m : Machine Assembler} (h : readText (rules v legacy) (script v legacy trailing) s
    (Assembler.start v words known) = (.ok c, m)) : m.user.Scheduled v := by
  have hstart : (Assembler.start v words known).Scheduled v :=
    ⟨rfl, nodup_nil, by simp [Assembler.start]⟩
  obtain ⟨o, t, n, ht, -, -, -, hm⟩ := readText_spelled hstart (fun _ _ _ => triple_directive_scheduled) h
  rw [hm]
  exact ⟨ht.version, ht.keys, ht.names⟩

end Events

end ScummKit.Script
