import ScummKit.Proofs.Script.Owners

/-!
# What the tables of jumps and labels hold

The notes of an outline, entered one after the other, lose nothing: each label is found at the line it
was noted at (`find?_label_iff`), and each jump stands under its label (`mem_pairs_iff`).
-/

namespace ScummKit.Script

open List

variable {p : String × Nat} {m : Mark} {t : Nat}

namespace Ledger

def empty : Ledger := ⟨[], []⟩

def pairsOf (table : List (String × List Nat)) : List (String × Nat) :=
  table.flatMap fun entry => entry.2.map (entry.1, ·)

def pairs (g : Ledger) : List (String × Nat) := pairsOf g.jumps

theorem mem_pairsOf_put (key : String) (line : Nat) (table : List (String × List Nat)) (p : String × Nat) :
    p ∈ pairsOf (Table.put key ((Table.find? key table).getD [] ++ [line]) table) ↔ p ∈ pairsOf table ∨ p = (key, line) := by
  induction table with
  | nil => simp [pairsOf, Table.put, Table.find?]
  | cons entry table ih =>
    rw [Table.find?, Table.put]
    split
    · rename_i hk
      subst hk
      simp [pairsOf, or_comm, or_left_comm]
    · simp only [pairsOf, flatMap_cons, mem_append] at ih ⊢
      rw [ih, or_assoc]

end Ledger

/-- Notes in which a jump that is noted as the only one to its label comes first. -/
def OnlyFirst (ns : List Note) : Prop := ns.Pairwise fun a b => ∀ m line line', b = .only m line → ¬a.jumps m line'

theorem Outline.onlyFirst (o : Outline) (n : Nat) : OnlyFirst (o.notes n) := by
  refine List.Pairwise.imp_of_mem (fun {a b} ha hb hcompat => ?_) (o.compatible n)
  rintro m line line' rfl hjump
  have hproper := o.proper n _ hb
  cases a with
  | jump m' line' =>
    obtain ⟨rfl, rfl⟩ := hjump
    -- the only jumps are those out of if blocks, and these are never noted otherwise
    have hproper' := o.proper n _ ha
    cases m with
    | user name => exact hproper
    | block kind s k => exact hproper'.1 hproper.1
  | only m' line' =>
    obtain ⟨rfl, rfl⟩ := hjump
    exact hcompat.2 _ _ _ ⟨rfl, rfl⟩
  | label m' t => exact hjump

namespace Ledger

variable {g : Ledger} {ns : List Note} {a : Note}

theorem mem_pairs_note (hg : ∀ m line, a = .only m line → Table.find? m.text g.jumps = none) :
    p ∈ (g.note a).pairs ↔ p ∈ g.pairs ∨ ∃ m, p.1 = m.text ∧ a.jumps m p.2 := by
  have hput := fun m line => mem_pairsOf_put (Mark.text m) line g.jumps p
  have hpair : ∀ m line, p = (Mark.text m, line) ↔ ∃ m', p.1 = m'.text ∧ m' = m ∧ p.2 = line :=
    fun m line => ⟨fun h => ⟨m, by rw [h], rfl, by rw [h]⟩, fun ⟨_, hkey, hm, hline⟩ => Prod.ext (hm ▸ hkey) hline⟩
  cases a with
  | jump m line => exact (hput m line).trans (or_congr_right (hpair m line))
  | only m line =>
    have hput := hput m line
    rw [hg m line rfl] at hput
    exact hput.trans (or_congr_right (hpair m line))
  | label m t => simp [note, pairs, Note.jumps]

theorem find?_jumps_note (ha : ∀ line, ¬a.jumps m line) : Table.find? m.text (g.note a).jumps = Table.find? m.text g.jumps := by
  have hne : ∀ m' line, a.jumps m' line → m'.text ≠ m.text := by
    intro m' line h htext
    exact ha line (text_injective htext ▸ h)
  cases a with
  | jump m' line => rw [note, Table.find?_put, if_neg (hne m' line ⟨rfl, rfl⟩)]
  | only m' line => rw [note, Table.find?_put, if_neg (hne m' line ⟨rfl, rfl⟩)]
  | label m' t => rfl

theorem mem_pairs_noteAll (hfirst : OnlyFirst ns) (hg : ∀ m line, .only m line ∈ ns → Table.find? m.text g.jumps = none) :
    p ∈ (g.noteAll ns).pairs ↔ p ∈ g.pairs ∨ ∃ m, p.1 = m.text ∧ NotesJump ns m p.2 := by
  induction ns generalizing g with
  | nil => simp
  | cons a ns ih =>
    obtain ⟨hfirst, hrest⟩ := pairwise_cons.1 hfirst
    have hlater : ∀ m line, .only m line ∈ ns → Table.find? m.text (g.note a).jumps = none := by
      intro m line h
      rw [find?_jumps_note fun line' => hfirst _ h m line line' rfl]
      exact hg m line (mem_cons_of_mem a h)
    rw [noteAll_cons, ih hrest hlater, mem_pairs_note fun m line h => hg m line (h ▸ mem_cons_self)]
    simp only [notesJump_cons, and_or_left, exists_or, or_assoc]

def Filled (g : Ledger) : Prop := ∀ entry ∈ g.jumps, entry.2 ≠ []

theorem forall_mem_put {α : Type} {P : String × α → Prop} {key : String} {value : α}
    {table : List (String × α)} (h : ∀ entry ∈ table, P entry) (hvalue : P (key, value)) :
    ∀ entry ∈ Table.put key value table, P entry :=
  fun entry hentry => (Table.mem_put hentry).elim (fun he => he ▸ hvalue) (h entry)

theorem filled_noteAll (h : g.Filled) : (g.noteAll ns).Filled := by
  induction ns generalizing g with
  | nil => exact h
  | cons a ns ih =>
    refine ih ?_
    cases a with
    | jump m line => exact forall_mem_put h (by simp)
    | only m line => exact forall_mem_put h (by simp)
    | label m t => exact h

/-- Every note of a label says the same as the ones before it. -/
def agrees (g : Ledger) : List Note → Prop
  | [] => True
  | a :: ns => (∀ m t, a = .label m t → ∀ t', Table.find? m.text g.labels = some t' → t' = t) ∧ (g.note a).agrees ns

theorem find?_labels_note (ha : ∀ t, a = .label m t → ∀ t', Table.find? m.text g.labels = some t' → t' = t) :
    Table.find? m.text (g.note a).labels = some t ↔ Table.find? m.text g.labels = some t ∨ a = .label m t := by
  cases a with
  | jump m' line => simp [note]
  | only m' line => simp [note]
  | label m' t' =>
    rw [note, Table.find?_put]
    split
    · rename_i htext
      obtain rfl := text_injective htext
      have hsame := ha t' rfl t
      simp only [Option.some.injEq, Note.label.injEq, true_and]
      exact ⟨.inr, fun h => h.elim (fun hfind => (hsame hfind).symm) id⟩
    · rename_i htext
      have hne : m' ≠ m := fun h => htext (congrArg Mark.text h)
      simp [hne]

theorem find?_labels_noteAll (h : g.agrees ns) : Table.find? m.text (g.noteAll ns).labels = some t
    ↔ Table.find? m.text g.labels = some t ∨ .label m t ∈ ns := by
  induction ns generalizing g with
  | nil => simp
  | cons a ns ih =>
    rw [noteAll_cons, ih h.2, find?_labels_note (h.1 m), mem_cons, or_assoc, eq_comm (a := a)]

theorem agrees_of_compatible (hcompat : ns.Pairwise Note.Compatible)
    (hallows : g.allowsAll ns) (hg : ∀ kind s k t, .label (.block kind s k) t ∈ ns →
    ∀ t', Table.find? (Mark.block kind s k).text g.labels = some t' → t' = t) : g.agrees ns := by
  induction ns generalizing g with
  | nil => trivial
  | cons a ns ih =>
    obtain ⟨hfirst, hrest⟩ := pairwise_cons.1 hcompat
    have ha : ∀ m t, a = .label m t → ∀ t', Table.find? m.text g.labels = some t' → t' = t := by
      rintro (name | ⟨kind, s, k⟩) t rfl
      · exact hallows.1
      · exact hg kind s k t mem_cons_self
    refine ⟨ha, ih hrest hallows.2 fun kind s k t hmem t' hfind => ?_⟩
    rcases (find?_labels_note (ha _)).1 hfind with hfind | rfl
    · exact hg kind s k t (mem_cons_of_mem a hmem) t' hfind
    · exact (hfirst _ hmem).1 kind s k t' t rfl rfl

end Ledger

def Outline.ledger (o : Outline) : Ledger := Ledger.empty.noteAll (o.notes 0)

section Outlines

variable {o : Outline}

theorem find?_label_iff (h : Ledger.empty.allowsAll (o.notes 0)) :
    Table.find? m.text o.ledger.labels = some t ↔ .label m t ∈ o.notes 0 := by
  have hagrees : Ledger.empty.agrees (o.notes 0) :=
    Ledger.agrees_of_compatible (o.compatible 0) h fun _ _ _ _ _ _ => nofun
  exact (Ledger.find?_labels_noteAll hagrees).trans ⟨fun h => h.resolve_left nofun, .inr⟩

theorem mem_pairs_iff : p ∈ o.ledger.pairs ↔ ∃ l ∈ o.links 0, p = (l.1.text, l.2.line) := by
  rw [Outline.ledger, Ledger.mem_pairs_noteAll (o.onlyFirst 0) fun _ _ _ => rfl]
  simp only [o.notesJump_iff 0]
  constructor
  · rintro (h | ⟨m, hkey, l, hl, rfl, hline⟩)
    · exact absurd h not_mem_nil
    · exact ⟨l, hl, Prod.ext hkey hline.symm⟩
  · rintro ⟨l, hl, rfl⟩
    exact .inr ⟨l.1, rfl, l, hl, rfl, rfl⟩

end Outlines

end ScummKit.Script
