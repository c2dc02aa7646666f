import ScummKit.Proofs.Script.Offsets
import ScummKit.Proofs.Script.Scripts
import ScummKit.Script.Compiler

/-!
# Jumps land where they are meant to

The text of a script spells an outline, and the outline says where each jump goes. When a script is
compiled, either every jump holds the distance from behind it to that place, or one of them has no
place to go to or is too long, and then the script is refused (`compile_jumps`).

The jump in front of a branch without a test goes to the end of its block only where no further branch
follows: the jumps are those that one would aim at exactly when the outline is orderly.
-/

namespace ScummKit.Script

open Grammar Layout List

/-! ### Outlines and their tables -/

/-- The line at which a target of an outline stands. -/
def Outline.Places (o : Outline) : Target → Nat → Prop
  | .name name, t => (name, t) ∈ o.labels 0
  | .line t', t => t = t'

/-- Every jump has a place to go to, within reach. -/
def Outline.Resolvable (o : Outline) : Prop :=
  ∀ j ∈ o.jumps 0, ∃ t, o.Places j.target t ∧ Reachable (displacement o.lines j.line t)

def offsetBefore (code : Code) (q : Nat) : Int := signedWord ((code.take q).drop (q - 2))

/-- Lines of code with the jumps of an outline filled in: a jump that ends at position `q` holds the
distance from there to the place it is meant to go to, and all else is as in the outline. -/
structure Lands (o : Outline) (lines : List Code) : Prop where
  sizes : lines.map List.length = o.lines.map List.length
  others : ∀ i, (∀ j ∈ o.jumps 0, j.line ≠ i) → lines[i]? = o.lines[i]?
  heads : ∀ j ∈ o.jumps 0, ∃ head tail, lines[j.line]? = some (head ++ tail) ∧
    o.lines[j.line]? = some (head ++ Statement.hole) ∧ tail.length = 2
  lands : ∀ j ∈ o.jumps 0, ∃ t, o.Places j.target t ∧ t ≤ lines.length ∧
    (position lines (j.line + 1) : Int) + offsetBefore lines.flatten (position lines (j.line + 1)) = position lines t

section Tables

variable {o : Outline} {l : Mark × Jump} {t : Nat}

theorem exists_link {j : Jump} (hj : j ∈ o.jumps 0) : ∃ l ∈ o.links 0, l.2 = j := by
  rw [← o.links_snd] at hj
  obtain ⟨l, hl, rfl⟩ := mem_map.1 hj
  exact ⟨l, hl, rfl⟩

theorem mem_jumps_of_link (hl : l ∈ o.links 0) : l.2 ∈ o.jumps 0 := by
  rw [← o.links_snd]
  exact mem_map_of_mem hl

theorem Apart.find? {ls : List (Mark × Jump)} (h : Apart ls) (hl : l ∈ ls) : ls.find? (·.2.line = l.2.line) = some l := by
  induction ls with
  | nil => exact absurd hl not_mem_nil
  | cons a ls ih =>
    obtain ⟨ha, hls⟩ := pairwise_cons.1 h
    rcases mem_cons.1 hl with rfl | hl
    · rw [find?_cons_of_pos (by simp)]
    · rw [find?_cons_of_neg (by simpa using ha l hl), ih hls hl]

variable (h : Ledger.empty.allowsAll (o.notes 0))

include h

theorem find?_text_iff (hl : l ∈ o.links 0) : Table.find? l.1.text o.ledger.labels = some t ↔ o.Places l.2.target t := by
  have hlinked := o.linked 0 l hl
  rw [Linked] at hlinked
  cases htarget : l.2.target with
  | name name =>
    rw [htarget] at hlinked
    rw [hlinked, find?_label_iff h, o.mem_labels]
    rfl
  | line t' =>
    rw [htarget] at hlinked
    have hfind := (find?_label_iff h).2 hlinked
    rw [hfind, Option.some.injEq]
    exact eq_comm

theorem places_le (hl : l ∈ o.links 0) (hplaces : o.Places l.2.target t) : t ≤ o.lines.length := by
  have hlabel := (find?_label_iff h).1 ((find?_text_iff h hl).2 hplaces)
  have hproper := o.proper 0 _ hlabel
  rw [Nat.zero_add] at hproper
  cases hm : l.1 with
  | user name => rw [hm] at hproper; exact hproper
  | block kind s k => rw [hm] at hproper; exact hproper.2.2.2

def Outline.distance (o : Outline) (i : Nat) : Int :=
  match (o.links 0).find? (·.2.line = i) with
  | some l => displacement o.lines i ((Table.find? l.1.text o.ledger.labels).getD 0)
  | none => 0

theorem distance_eq (hl : l ∈ o.links 0) (hplaces : o.Places l.2.target t) : o.distance l.2.line = displacement o.lines l.2.line t := by
  rw [Outline.distance, (o.apart 0).find? hl]
  change displacement o.lines l.2.line ((Table.find? l.1.text o.ledger.labels).getD 0) = _
  rw [(find?_text_iff h hl).2 hplaces, Option.getD_some]

theorem fits : Fits o.lines o.distance o.ledger.labels o.ledger.jumps := by
  refine ⟨Ledger.filled_noteAll (by simp [Ledger.Filled, Ledger.empty]), ?_, ?_, ?_⟩
  all_goals
    intro p hp
    obtain ⟨l, hl, rfl⟩ := mem_pairs_iff.1 hp
  · obtain ⟨i, head, hline, hi⟩ := o.roomAt 0 l hl
    rw [Nat.zero_add] at hline
    exact ⟨head, hline ▸ hi⟩
  · exact fun t ht => places_le h hl ((find?_text_iff h hl).1 ht)
  · exact fun t ht => distance_eq h hl ((find?_text_iff h hl).1 ht)

theorem settled_iff : (∀ p ∈ o.ledger.pairs, Settled o.ledger.labels o.distance p) ↔ o.Resolvable := by
  constructor
  · intro hsettled j hj
    obtain ⟨l, hl, rfl⟩ := exists_link hj
    obtain ⟨hfound, hreach⟩ := hsettled _ (mem_pairs_iff.2 ⟨l, hl, rfl⟩)
    obtain ⟨t, ht⟩ := Option.isSome_iff_exists.1 hfound
    have hplaces := (find?_text_iff h hl).1 ht
    exact ⟨t, hplaces, distance_eq h hl hplaces ▸ hreach⟩
  · intro hresolvable p hp
    obtain ⟨l, hl, rfl⟩ := mem_pairs_iff.1 hp
    obtain ⟨t, hplaces, hreach⟩ := hresolvable l.2 (mem_jumps_of_link hl)
    refine ⟨?_, ?_⟩
    · rw [(find?_text_iff h hl).2 hplaces]
      rfl
    · rwa [distance_eq h hl hplaces]

end Tables

/-! ### Bytes -/

section Bytes

variable {lines : List Code} {i : Nat}

theorem take_position (lines : List Code) (n : Nat) : lines.flatten.take (position lines n) = (lines.take n).flatten := by
  conv => lhs; rw [← take_append_drop n lines, flatten_append]
  rw [take_append_drop, position, take_left]

theorem offsetBefore_position {head tail : Code} (hi : lines[i]? = some (head ++ tail)) (htail : tail.length = 2) :
    offsetBefore lines.flatten (position lines (i + 1)) = signedWord tail := by
  have htake : lines.take (i + 1) = lines.take i ++ [head ++ tail] := by
    rw [take_add_one, hi]
    rfl
  have hbytes : (lines.take (i + 1)).flatten = (lines.take i).flatten ++ head ++ tail := by
    simp [htake]
  have hlength : position lines (i + 1) = ((lines.take i).flatten ++ head).length + 2 := by
    rw [← htail, ← length_append, ← hbytes, position]
  rw [offsetBefore, take_position, hbytes, hlength, Nat.add_sub_cancel, drop_left]

end Bytes

section Layout

variable {o : Outline}

theorem mem_filled_iff {i : Nat} : i ∈ o.ledger.pairs.map Prod.snd ↔ ∃ j ∈ o.jumps 0, j.line = i := by
  constructor
  · intro hi
    obtain ⟨p, hp, rfl⟩ := mem_map.1 hi
    obtain ⟨l, hl, rfl⟩ := mem_pairs_iff.1 hp
    exact ⟨l.2, mem_jumps_of_link hl, rfl⟩
  · rintro ⟨j, hj, rfl⟩
    obtain ⟨l, hl, rfl⟩ := exists_link hj
    exact mem_map.2 ⟨_, mem_pairs_iff.2 ⟨l, hl, rfl⟩, rfl⟩

theorem room_of_jump {j : Jump} (hj : j ∈ o.jumps 0) : Room o.lines j.line := by
  obtain ⟨l, hl, rfl⟩ := exists_link hj
  obtain ⟨i, head, hline, hi⟩ := o.roomAt 0 l hl
  rw [Nat.zero_add] at hline
  exact ⟨head, hline ▸ hi⟩

theorem lands_patched (h : Ledger.empty.allowsAll (o.notes 0)) (hresolvable : o.Resolvable) :
    Lands o (patched o.lines o.distance (o.ledger.pairs.map Prod.snd)) := by
  have hsizes : (patched o.lines o.distance (o.ledger.pairs.map Prod.snd)).map List.length
      = o.lines.map List.length := sizes_patched fun i hi => by
    obtain ⟨j, hj, rfl⟩ := mem_filled_iff.1 hi
    exact room_of_jump hj
  have hfilled : ∀ j ∈ o.jumps 0, ∃ head, o.lines[j.line]? = some (head ++ Statement.hole) ∧
      (patched o.lines o.distance (o.ledger.pairs.map Prod.snd))[j.line]? = some (head ++ wordOf (o.distance j.line)) := by
    intro j hj
    obtain ⟨head, hhead⟩ := room_of_jump hj
    refine ⟨head, hhead, ?_⟩
    rw [getElem?_patched, hhead, Option.map_some, if_pos (mem_filled_iff.2 ⟨j, hj, rfl⟩), fill_append head Statement.hole _ rfl]
  refine ⟨hsizes, ?_, ?_, ?_⟩
  · intro i hi
    have hout : i ∉ o.ledger.pairs.map Prod.snd := fun hmem => by
      obtain ⟨j, hj, hline⟩ := mem_filled_iff.1 hmem
      exact hi j hj hline
    simp [getElem?_patched, hout]
  · intro j hj
    obtain ⟨head, hhead, hpatched⟩ := hfilled j hj
    exact ⟨head, _, hpatched, hhead, length_wordOf⟩
  · intro j hj
    obtain ⟨t, hplaces, hreach⟩ := hresolvable j hj
    obtain ⟨head, -, hpatched⟩ := hfilled j hj
    obtain ⟨l, hl, rfl⟩ := exists_link hj
    have hdistance := distance_eq h hl hplaces
    refine ⟨t, hplaces, by rw [length_patched]; exact places_le h hl hplaces, ?_⟩
    rw [offsetBefore_position hpatched length_wordOf, signedWord_wordOf (hdistance ▸ hreach), hdistance]
    simp only [displacement, position_congr hsizes]
    omega

/-- Laid out, an outline lands if all its jumps have a place within reach to go to, and is refused
otherwise. -/
theorem resolve_outline (h : Ledger.empty.allowsAll (o.notes 0)) : (o.Resolvable ∧ ∃ lines, Lands o lines ∧
    resolve o.ledger.jumps o.ledger.labels o.lines = .ok lines) ∨ (¬o.Resolvable ∧ ∃ msg,
    resolve o.ledger.jumps o.ledger.labels o.lines = .error (.compiling msg)) := by
  rcases resolve_eq (fits h) with ⟨hsettled, hresolve⟩ | ⟨⟨p, hp, hsettled⟩, msg, hresolve⟩
  · have hresolvable := (settled_iff h).1 hsettled
    exact .inl ⟨hresolvable, _, lands_patched h hresolvable, hresolve⟩
  · exact .inr ⟨fun hresolvable => hsettled ((settled_iff h).2 hresolvable p hp), msg, hresolve⟩

end Layout

/-! ### Compiling -/

def Assembler.eventTable (a : Assembler) (lines : List Code) : Except Fault (List (Int × Nat)) :=
  if a.kind = some .object then Layout.events a.events a.labels lines else pure []

theorem run_codes (codes : List Code) (m : Machine Assembler) :
    ((codes.map Token.code).mapM Build.codeOf : Build (List Code)).run.run m = (.ok codes, m) := by
  induction codes with
  | nil => rfl
  | cons code codes ih =>
    rw [map_cons, mapM_cons]
    change (do
      let codes ← (codes.map Token.code).mapM Build.codeOf
      return code :: codes).run.run m = _
    rw [ExceptT.run_bind, StateT.run_bind, ih]
    rfl

/-- What reading a script gives: the lines of an outline that the text spells, and the tables of its
jumps and labels. -/
theorem readText_script {v : Version} {legacy trailing : Bool} {s : String} {u : Assembler} {c : Capture} {m : Machine Assembler}
    (h : readText (Statement.rules v legacy) (Statement.script v legacy trailing) s u = (.ok c, m)) :
    ∃ o, SpellsScript v legacy (expandTabs s) trailing o ∧ c.tokens = o.lines.map .code ∧
    u.Takes o ∧ m.user.ledger = (u.after o).ledger := by
  have hnotes : Declared (SameNotes u) :=
    ⟨fun _ _ _ => id, fun _ _ => id, fun _ _ _ => id, fun _ _ _ _ => id⟩
  obtain ⟨o, t, n, ht, hspells, htokens, htakes, hm⟩ := readText_spelled ⟨rfl, rfl⟩
    (fun _ _ _ => triple_directive hnotes (triple_eventsLine hnotes fun _ _ _ => id)) h
  refine ⟨o, hspells, htokens, ht.takes.1 htakes, ?_⟩
  rw [hm]
  exact ht.ledger_after o

/-- What a script that compiles was read as: an outline that its text spells and that lands in its lines. -/
theorem compile_eq_ok {opts : Options} {words : List String} {script : String} {c : Compiled}
    (h : (compile opts words script).1 = .ok c) : ∃ capture m o,
    readText (Statement.rules opts.version opts.legacy) (Statement.script opts.version opts.legacy opts.trailing) script
    (Assembler.start opts.version words (KnownVariable.names opts.version)) = (.ok capture, m) ∧
    SpellsScript opts.version opts.legacy (expandTabs script) opts.trailing o ∧
    Ledger.empty.allowsAll (o.notes 0) ∧ m.user.labels = o.ledger.labels ∧ Lands o c.lines ∧
    m.user.eventTable c.lines = .ok c.events ∧
    c = ⟨m.user.version, m.user.kind.getD .global, c.lines, m.user.number, m.user.objectData, c.events⟩ := by
  unfold compile at h
  generalize hread : readText _ _ script _ = reading at h ⊢
  obtain ⟨stop | capture, m⟩ := reading
  · cases h
  obtain ⟨o, hspells, htokens, htakes, hledger⟩ := readText_script hread
  have hlabels : m.user.labels = o.ledger.labels := congrArg Ledger.labels hledger
  simp only [htokens, run_codes] at h
  obtain ⟨lines, hresolve, h⟩ := bind_eq_ok.1 h
  rw [show m.user.jumps = o.ledger.jumps from congrArg Ledger.jumps hledger, hlabels] at hresolve
  rcases resolve_outline htakes with ⟨-, lines', hlands, hresolve'⟩ | ⟨-, msg, hresolve'⟩
  · cases hresolve.symm.trans hresolve'
    refine ⟨capture, m, o, rfl, hspells, htakes, hlabels, ?_⟩
    split at h
    · rename_i hobject
      obtain ⟨events, hevents, h⟩ := bind_eq_ok.1 h
      cases h
      exact ⟨hlands, (if_pos hobject).trans hevents, rfl⟩
    · rename_i hother
      cases h
      exact ⟨hlands, if_neg hother, rfl⟩
  · cases hresolve.symm.trans hresolve'

/-- A script that can be read spells an outline. It compiles to the lines of the outline with every
jump filled in, up to the events of an object, unless a jump has no place within reach to go to. -/
theorem compile_jumps (opts : Options) (words : List String) (script : String) :
    match readText (Statement.rules opts.version opts.legacy) (Statement.script opts.version opts.legacy opts.trailing) script
      (Assembler.start opts.version words (KnownVariable.names opts.version)) with
    | (.error stop, _) => (compile opts words script).1 = .error (stopFault stop)
    | (.ok _, m) => ∃ o, SpellsScript opts.version opts.legacy (expandTabs script) opts.trailing o ∧
      (o.jumps 0 = o.aims 0 ↔ o.Orderly) ∧
      ((o.Resolvable ∧ ∃ lines, Lands o lines ∧ (compile opts words script).1 = do
          let events ← m.user.eventTable lines
          return ⟨m.user.version, m.user.kind.getD .global, lines, m.user.number, m.user.objectData, events⟩) ∨
        (¬o.Resolvable ∧ ∃ msg, (compile opts words script).1 = .error (.compiling msg))) := by
  rcases hread : readText (Statement.rules opts.version opts.legacy)
      (Statement.script opts.version opts.legacy opts.trailing) script
      (Assembler.start opts.version words (KnownVariable.names opts.version)) with ⟨stop | c, m⟩
  · simp only [compile, hread]
  · obtain ⟨o, hspells, htokens, htakes, hledger⟩ := readText_script hread
    have hcompile : (compile opts words script).1 = finish m.user o.lines := by
      simp only [compile, hread, htokens, run_codes]
    have hallowed : Ledger.empty.allowsAll (o.notes 0) := htakes
    have hjumps : m.user.jumps = o.ledger.jumps := congrArg Ledger.jumps hledger
    have hlabels : m.user.labels = o.ledger.labels := congrArg Ledger.labels hledger
    refine ⟨o, hspells, o.jumps_eq_aims_iff 0, ?_⟩
    rw [hcompile, finish, hjumps, hlabels]
    rcases resolve_outline hallowed with ⟨hresolvable, lines, hlands, hresolve⟩ | ⟨hnot, msg, hresolve⟩
    · refine .inl ⟨hresolvable, lines, hlands, ?_⟩
      rw [hresolve, Assembler.eventTable, hlabels]
      change (if m.user.kind = some .object then _ else _) = _
      split <;> rfl
    · refine .inr ⟨hnot, msg, ?_⟩
      rw [hresolve]
      rfl

end ScummKit.Script
