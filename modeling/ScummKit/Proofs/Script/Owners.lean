import ScummKit.Proofs.Script.Links

/-!
# Each label of a block belongs to one place

The labels that blocks make hold the first line of the block, and blocks that are not nested have
different first lines. So in the notes of an outline a label of a block stands at one line only, and a
jump out of an if block is noted once (`Outline.compatible`).
-/

namespace ScummKit.Script

open List

variable {exits : List Exit} {closing : Option Name}
variable {a b : Note} {start k n hi : Nat}

/-- What notes of the lines from `lo` to `hi` have in common. -/
def Note.Proper (lo hi : Nat) : Note → Prop
  | .jump (.user _) _ => True
  | .jump (.block kind s _) _ => kind ≠ .cond ∧ lo ≤ s ∧ s < hi
  | .only (.user _) _ => False
  | .only (.block kind s _) _ => kind = .cond ∧ lo ≤ s ∧ s < hi
  | .label (.user _) t => t ≤ hi
  | .label (.block kind s _) t => (kind = .doLoop → t = s) ∧ lo ≤ s ∧ s < hi ∧ t ≤ hi

theorem Note.Proper.mono {lo hi lo' hi' : Nat} {a : Note} (h : a.Proper lo hi) (hlo : lo' ≤ lo)
    (hhi : hi ≤ hi') : a.Proper lo' hi' := by
  match a, h with
  | .jump (.user _) _, _ => trivial
  | .jump (.block _ _ _) _, ⟨hk, h1, h2⟩ => exact ⟨hk, by omega, by omega⟩
  | .only (.block _ _ _) _, ⟨hk, h1, h2⟩ => exact ⟨hk, by omega, by omega⟩
  | .label (.user _) _, h => exact Nat.le_trans h hhi
  | .label (.block _ _ _) _, ⟨hk, h1, h2, h3⟩ => exact ⟨hk, by omega, by omega, by omega⟩

/-- A note of the if block that starts at `start`: of one of the jumps that wait, or of one of its
labels from `k` on. -/
def Note.Own (start k : Nat) (exits : List Exit) (hi : Nat) (a : Note) : Prop :=
  ∃ j, (j ∈ exits.map Exit.label ∨ k ≤ j) ∧
    ((∃ line, a = .only (.block .cond start j) line) ∨ ∃ t ≤ hi, a = .label (.block .cond start j) t)

theorem Note.Own.mono {start k k' : Nat} {exits' : List Exit} {hi hi' : Nat} {a : Note}
    (h : a.Own start k exits hi) (hhi : hi ≤ hi')
    (hj : ∀ j, j ∈ exits.map Exit.label ∨ k ≤ j → j ∈ exits'.map Exit.label ∨ k' ≤ j) : a.Own start k' exits' hi' := by
  obtain ⟨j, hmem, ha⟩ := h
  exact ⟨j, hj j hmem, ha.imp_right fun ⟨t, ht, ha⟩ => ⟨t, Nat.le_trans ht hhi, ha⟩⟩

theorem own_settle {e : Exit} (he : e ∈ exits) (hn : n ≤ hi) : ∀ a ∈ settle start n e, a.Own start k exits hi := by
  have hmem : e.label ∈ exits.map Exit.label := mem_map_of_mem he
  simp only [settle, forall_mem_singleton, forall_mem_cons]
  exact ⟨⟨e.label, .inl hmem, .inl ⟨e.line, rfl⟩⟩, ⟨e.label, .inl hmem, .inr ⟨n, hn, rfl⟩⟩⟩

theorem proper_closing {n lo hi : Nat} (hn : n ≤ hi) : ∀ a ∈ closingNotes closing n, a.Proper lo hi := by
  cases closing <;> simp [closingNotes, Note.Proper, hn]

mutual

theorem Outline.proper : ∀ (o : Outline) (n : Nat), ∀ a ∈ o.notes n, a.Proper n (n + o.count)
  | .skip, _ | .plain _, _ => by simp [Outline.notes]
  | .label _, _ | .goto _, _ | .unless _ _, _ => by simp [Outline.notes, Note.Proper]
  | .seq a b, n => by
    have hcount := Outline.count_seq a b
    simp only [Outline.notes, forall_mem_append]
    exact ⟨fun x hx => (a.proper n x hx).mono (by omega) (by omega), fun x hx => (b.proper _ x hx).mono (by omega) (by omega)⟩
  | .cond test body others, n => by
    have hcount := Outline.count_cond body others test
    simp only [Outline.notes, forall_mem_append]
    refine ⟨fun x hx => (body.proper _ x hx).mono (by omega) (by omega), fun x hx => ?_⟩
    rcases others.proper _ _ _ _ _ x hx with ⟨j, -, ⟨line, rfl⟩ | ⟨t, ht, rfl⟩⟩ | hproper
    · exact ⟨rfl, by omega, by omega⟩
    · exact ⟨nofun, by omega, by omega, by omega⟩
    · exact hproper.mono (by omega) (by omega)
  | .forLoop _ _ _ body, n | .whileLoop _ body, n => by
    simp only [Outline.count_forLoop, Outline.count_whileLoop, Outline.notes, forall_mem_append, forall_mem_singleton,
      forall_mem_cons]
    refine ⟨fun x hx => (body.proper _ x hx).mono (by omega) (by omega), ?_⟩
    refine ⟨⟨nofun, ?_⟩, ⟨nofun, ?_⟩, ⟨nofun, ?_⟩, ⟨nofun, ?_⟩⟩ <;> omega
  | .doLoop body test, n => by
    have hcount := Outline.count_doLoop body test
    simp only [Outline.notes, forall_mem_append, forall_mem_singleton, forall_mem_cons]
    refine ⟨fun x hx => (body.proper _ x hx).mono (by omega) (by omega), ?_⟩
    refine ⟨⟨fun _ => rfl, ?_⟩, ⟨nofun, ?_⟩⟩ <;> omega

theorem Branches.proper : ∀ (b : Branches) (start k : Nat) (pending : List Exit) (last : Exit)
    (n : Nat), ∀ a ∈ b.notes start k pending last n, a.Own start k (pending ++ [last]) (n + b.count) ∨ a.Proper n (n + b.count)
  | .done closing, start, k, pending, last, n => by
    have hcount : (Branches.done closing).count = 0 := rfl
    intro a ha
    rcases mem_append.1 ha with ha | ha
    · exact .inr (proper_closing (by omega) a ha)
    · obtain ⟨e, he, ha⟩ := mem_flatMap.1 ha
      exact .inl (own_settle he (by omega) a ha)
  | .otherwise _ body rest, start, k, pending, last, n | .otherwiseIf _ _ body rest, start, k, pending, last, n => by
    simp only [Branches.count_otherwise, Branches.count_otherwiseIf, Branches.notes, forall_mem_append]
    refine ⟨⟨⟨fun a ha => .inr (proper_closing (by omega) a ha), fun a ha => .inl ?_⟩,
      fun a ha => .inr ((body.proper _ a ha).mono (by omega) (by omega))⟩, fun a ha => ?_⟩
    · exact own_settle (by simp) (by omega) a ha
    · refine (rest.proper _ _ _ _ _ a ha).imp (fun hown => hown.mono (by omega) fun j hj => ?_)
        fun hproper => hproper.mono (by omega) (by omega)
      simp only [map_append, map_cons, map_nil, mem_append, mem_singleton] at hj ⊢
      grind

end

/-! ### Compatible notes -/

/-- Two notes of one block's label: if both say where it stands, they agree, and not both are of the
only jump to it. -/
def Note.Compatible (a b : Note) : Prop :=
  (∀ kind s k t t', a = .label (.block kind s k) t → b = .label (.block kind s k) t' → t = t') ∧
  ∀ m line line', ¬(a = .only m line ∧ b = .only m line')

theorem compatible_of_proper {lo mid hi : Nat} (ha : a.Proper lo mid) (hb : b.Proper mid hi) : a.Compatible b := by
  refine ⟨?_, ?_⟩
  · rintro kind s k t t' rfl rfl
    obtain ⟨-, -, h1, -⟩ := ha
    obtain ⟨-, h2, -⟩ := hb
    omega
  · rintro (_ | ⟨kind, s, k⟩) line line' ⟨rfl, rfl⟩
    · exact ha
    · obtain ⟨-, -, h1⟩ := ha
      obtain ⟨-, h2, -⟩ := hb
      omega

theorem Note.Compatible.symm (h : a.Compatible b) : b.Compatible a :=
  ⟨fun kind s k t t' hb ha => (h.1 kind s k t' t ha hb).symm, fun m line line' hab => h.2 m line' line ⟨hab.2, hab.1⟩⟩

theorem compatible_jump {m : Mark} {line : Nat} (b : Note) : (Note.jump m line).Compatible b := ⟨nofun, nofun⟩

theorem compatible_closing {n : Nat} (ha : a ∈ closingNotes closing n) : a.Compatible b := by
  obtain ⟨name, -, rfl⟩ := mem_map.1 ha
  exact ⟨nofun, nofun⟩

theorem compatible_label {kind : BlockKind} {s k t lo hi : Nat} {b : Note} (hb : b.Proper lo hi)
    (hlo : s < lo) : (Note.label (.block kind s k) t).Compatible b := by
  refine ⟨?_, nofun⟩
  rintro kind' s' k' t t' h rfl
  cases h
  obtain ⟨-, h, -⟩ := hb
  omega

theorem compatible_of_own {start k hi lo hi' : Nat}
    (ha : a.Own start k exits hi) (hb : b.Proper lo hi') (hlo : start < lo) : a.Compatible b := by
  obtain ⟨j, -, ⟨line, rfl⟩ | ⟨t, -, rfl⟩⟩ := ha
  · refine ⟨nofun, ?_⟩
    rintro m line line' ⟨h, rfl⟩
    cases h
    obtain ⟨-, h, -⟩ := hb
    omega
  · exact compatible_label hb hlo

theorem compatible_settle {e : Exit} (ha : a ∈ settle start n e) (hb : b.Own start k exits hi)
    (hne : e.label ∉ exits.map Exit.label) (hlt : e.label < k) : a.Compatible b := by
  obtain ⟨j, hj, hb⟩ := hb
  have hje : e.label ≠ j := by
    rintro rfl
    exact hj.elim hne fun h => Nat.lt_irrefl _ (Nat.lt_of_lt_of_le hlt h)
  simp only [settle] at ha
  constructor
  · rintro kind s k t t' rfl rfl
    simp_all
  · rintro m line line' ⟨rfl, rfl⟩
    simp_all

theorem pairwise_settle (start n : Nat) (e : Exit) : (settle start n e).Pairwise Note.Compatible := by
  simp [settle, Note.Compatible]

theorem pairwise_settleAll {start n : Nat} (hnodup : (exits.map Exit.label).Nodup) :
    (exits.flatMap (settle start n)).Pairwise Note.Compatible := by
  induction exits with
  | nil => exact List.Pairwise.nil
  | cons e exits ih =>
    rw [map_cons, nodup_cons] at hnodup
    refine pairwise_append.2 ⟨pairwise_settle start n e, ih hnodup.2, fun a ha b hb => ?_⟩
    obtain ⟨e', he', hb⟩ := mem_flatMap.1 hb
    exact compatible_settle ha (own_settle (k := e.label + 1) he' (Nat.le_refl n) b hb) hnodup.1 (by omega)

theorem pairwise_loop (kind : BlockKind) (s t t' line line' : Nat) :
    [Note.label (.block kind s 0) t, .jump (.block kind s 0) line, .label (.block kind s 1) t',
    .jump (.block kind s 1) line'].Pairwise Note.Compatible := by
  simp only [pairwise_cons, forall_mem_cons, not_mem_nil, false_implies, implies_true, List.Pairwise.nil, and_true]
  refine ⟨⟨(compatible_jump _).symm, ⟨?_, nofun⟩, (compatible_jump _).symm⟩,
    ⟨compatible_jump _, compatible_jump _⟩, (compatible_jump _).symm⟩
  rintro kind s k t t' h h'
  cases h
  cases h'

theorem pairwise_branch {start n m lo mid hi k : Nat} {last : Exit}
    {body rest : List Note} (hbody : body.Pairwise Note.Compatible)
    (hbodyProper : ∀ a ∈ body, a.Proper lo mid) (hstart : start < lo) (hlo : lo ≤ mid) (hrest : rest.Pairwise Note.Compatible)
    (hrestProper : ∀ a ∈ rest, a.Own start k exits hi ∨ a.Proper mid hi)
    (hne : last.label ∉ exits.map Exit.label) (hlt : last.label < k) :
    (closingNotes closing n ++ settle start m last ++ body ++ rest).Pairwise Note.Compatible := by
  have hclosing : (closingNotes closing n).Pairwise Note.Compatible :=
    pairwise_of_forall_mem_list fun a ha b _ => compatible_closing ha
  have hown : ∀ a ∈ settle start m last, a.Own start 0 [last] m :=
    own_settle mem_cons_self (Nat.le_refl m)
  refine pairwise_append.2 ⟨pairwise_append.2 ⟨pairwise_append.2
    ⟨hclosing, pairwise_settle start m last, fun a ha b _ => compatible_closing ha⟩, hbody, ?_⟩, hrest, ?_⟩
  · simp only [forall_mem_append]
    exact ⟨fun a ha b _ => compatible_closing ha, fun a ha b hb => compatible_of_own (hown a ha) (hbodyProper b hb) hstart⟩
  · simp only [forall_mem_append]
    refine ⟨⟨fun a ha b _ => compatible_closing ha, fun a ha b hb => ?_⟩, fun a ha b hb => ?_⟩
    · rcases hrestProper b hb with hb | hb
      · exact compatible_settle ha hb hne hlt
      · exact compatible_of_own (hown a ha) hb (by omega)
    · rcases hrestProper b hb with hb | hb
      · exact (compatible_of_own hb (hbodyProper a ha) hstart).symm
      · exact compatible_of_proper (hbodyProper a ha) hb

mutual

theorem Outline.compatible : ∀ (o : Outline) (n : Nat), (o.notes n).Pairwise Note.Compatible
  | .skip, _ | .plain _, _ => List.Pairwise.nil
  | .label _, _ | .goto _, _ | .unless _ _, _ => pairwise_singleton _ _
  | .seq a b, n => pairwise_append.2 ⟨a.compatible n, b.compatible _, fun x hx y hy =>
      compatible_of_proper (a.proper n x hx) (b.proper _ y hy)⟩
  | .cond _ body others, n => by
    have hothers := others.compatible n 1 [] ⟨0, n⟩ (n + 1 + body.count) (by omega) (by simp) (by simp)
    refine pairwise_append.2 ⟨body.compatible _, hothers, fun x hx y hy => ?_⟩
    have hx := body.proper _ x hx
    rcases others.proper _ _ _ _ _ y hy with hown | hproper
    · exact (compatible_of_own hown hx (by omega)).symm
    · exact compatible_of_proper hx hproper
  | .forLoop _ _ _ body, n | .whileLoop _ body, n => by
    refine pairwise_append.2 ⟨body.compatible _, pairwise_loop .., fun x hx => ?_⟩
    have hx := body.proper _ x hx
    simp only [forall_mem_singleton, forall_mem_cons]
    exact ⟨(compatible_label hx (by omega)).symm, (compatible_jump x).symm,
      (compatible_label hx (by omega)).symm, (compatible_jump x).symm⟩
  | .doLoop body _, n => by
    refine pairwise_append.2 ⟨body.compatible _, by simp [Note.Compatible], fun x hx => ?_⟩
    have hx := body.proper _ x hx
    simp only [forall_mem_singleton, forall_mem_cons]
    refine ⟨⟨?_, by simp⟩, (compatible_jump x).symm⟩
    -- a do loop that starts at the same line means that line by the label too
    rintro kind s k t t' rfl h
    cases h
    exact hx.1 rfl

theorem Branches.compatible : ∀ (b : Branches) (start k : Nat) (pending : List Exit) (last : Exit)
    (n : Nat), start < n → ((pending ++ [last]).map Exit.label).Nodup → (∀ e ∈ pending ++ [last], e.label < k) →
    (b.notes start k pending last n).Pairwise Note.Compatible
  | .done closing, start, k, pending, last, n, hstart, hnodup, hk => by
    refine pairwise_append.2 ⟨?_, pairwise_settleAll hnodup, fun a ha b _ => compatible_closing ha⟩
    exact pairwise_of_forall_mem_list fun a ha b _ => compatible_closing ha
  | .otherwise closing body rest, start, k, pending, last, n, hstart, hnodup, hk
  | .otherwiseIf closing _ body rest, start, k, pending, last, n, hstart, hnodup, hk => by
    have hlast : last.label < k := hk last (by simp)
    have hpending : ∀ e ∈ pending, e.label < k := fun e he => hk e (by simp [he])
    simp only [map_append, map_cons, map_nil, nodup_append] at hnodup
    refine pairwise_branch (body.compatible _) (body.proper _) (by omega) (by omega)
      (rest.compatible _ _ _ _ _ (by omega) ?_ ?_) (rest.proper _ _ _ _ _) ?_ (by omega)
    · simp only [map_append, map_cons, map_nil, nodup_append]
      grind
    · grind
    · simp only [map_append, map_cons, map_nil]
      grind

end

end ScummKit.Script
