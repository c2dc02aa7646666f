import ScummKit.Proofs.Script.Marks

/-!
# Which label each jump of an outline goes to

`Outline.links` is `Outline.jumps` with the label under which each jump is noted. The notes of an
outline hold exactly these jumps, and for each of them that goes to a line the label at that line. No
two blocks share a label, do loops that start at the same line apart, and those mean the same line by
it; so the labels of blocks stand at one line each.
-/

namespace ScummKit.Script

open List

variable {exits : List Exit} {start : Nat} {l : Mark × Jump}
variable {n : Nat} {closing : Option Name}

mutual

def Outline.links : Outline → Nat → List (Mark × Jump)
  | .goto name, n => [(.user name, ⟨n, .name name⟩)]
  | .unless _ name, n => [(.user name, ⟨n, .name name⟩)]
  | .seq a b, n => a.links n ++ b.links (n + a.count)
  | .cond _ body others, n =>
    let next := n + 1 + body.count
    (.block .cond n 0, ⟨n, .line (others.entry next)⟩) :: body.links (n + 1) ++ others.links n 1 next (next + others.count)
  | .forLoop first _ step body, n =>
    let start := n + first.toList.length
    let back := start + 1 + body.count + step.toList.length
    (.block .forLoop start 1, ⟨start, .line (back + 1)⟩) :: body.links (start + 1)
      ++ [(.block .forLoop start 0, ⟨back, .line start⟩)]
  | .whileLoop _ body, n =>
    let back := n + 1 + body.count
    (.block .whileLoop n 1, ⟨n, .line back⟩) :: body.links (n + 1) ++ [(.block .whileLoop n 0, ⟨back, .line n⟩)]
  | .doLoop body _, n => body.links n ++ [(.block .doLoop n 0, ⟨n + body.count, .line n⟩)]
  | _, _ => []

/-- The jumps of further branches, each with its label. The block starts at `start` and has made `k`
labels. -/
def Branches.links : Branches → Nat → Nat → Nat → Nat → List (Mark × Jump)
  | .done _, _, _, _, _ => []
  | .otherwise _ body rest, start, k, n, stop =>
    let next := n + 1 + body.count
    (.block .cond start k, ⟨n, .line (rest.exit next stop)⟩) :: body.links (n + 1) ++ rest.links start (k + 1) next stop
  | .otherwiseIf _ _ body rest, start, k, n, stop =>
    let next := n + 2 + body.count
    (.block .cond start k, ⟨n, .line stop⟩) ::
      (.block .cond start (k + 1), ⟨n + 1, .line (rest.entry next)⟩) :: body.links (n + 2)
      ++ rest.links start (k + 2) next stop

end

mutual

theorem Outline.links_snd : ∀ (o : Outline) (n : Nat), (o.links n).map Prod.snd = o.jumps n
  | .skip, _ | .label _, _ | .plain _, _ | .goto _, _ | .unless _ _, _ => rfl
  | .seq a b, n => by simp [Outline.links, Outline.jumps, Outline.jumpsBy, a.links_snd, b.links_snd]
  | .cond _ body others, n => by
    simp [Outline.links, Outline.jumps, Outline.jumpsBy, body.links_snd, others.links_snd]
  | .forLoop _ _ _ body, n
  | .whileLoop _ body, n
  | .doLoop body _, n => by simp [Outline.links, Outline.jumps, Outline.jumpsBy, body.links_snd]

theorem Branches.links_snd : ∀ (b : Branches) (start k n stop : Nat),
    (b.links start k n stop).map Prod.snd = b.jumpsBy Branches.exit n stop
  | .done _, _, _, _, _ => rfl
  | .otherwise _ body rest, start, k, n, stop | .otherwiseIf _ _ body rest, start, k, n, stop => by
    simp [Branches.links, Outline.jumps, Branches.jumpsBy, body.links_snd, rest.links_snd]

end

/-! ### Jumps in the notes -/

/-- One of the jumps out of the block that starts at `start` is that of a line to a label. -/
def ExitsJump (start : Nat) (exits : List Exit) (m : Mark) (line : Nat) : Prop :=
  ∃ e ∈ exits, m = .block .cond start e.label ∧ line = e.line

def Note.jumps (m : Mark) (line : Nat) : Note → Prop
  | .jump m' line' => m = m' ∧ line = line'
  | .only m' line' => m = m' ∧ line = line'
  | .label _ _ => False

def NotesJump (ns : List Note) (m : Mark) (line : Nat) : Prop := ∃ a ∈ ns, a.jumps m line

section NotesJump

variable {ms ns : List Note} {m : Mark} {line : Nat}

@[simp] theorem exitsJump_nil : ¬ExitsJump start [] m line := by simp [ExitsJump]

@[simp] theorem exitsJump_cons {e : Exit} : ExitsJump start (e :: exits) m line
    ↔ m = .block .cond start e.label ∧ line = e.line ∨ ExitsJump start exits m line := by simp [ExitsJump]

@[simp] theorem exitsJump_append {others : List Exit} : ExitsJump start (exits ++ others) m line
    ↔ ExitsJump start exits m line ∨ ExitsJump start others m line := by simp [ExitsJump, or_and_right, exists_or]

@[simp] theorem notesJump_nil : ¬NotesJump [] m line := by simp [NotesJump]

@[simp] theorem notesJump_cons {a : Note} :
    NotesJump (a :: ns) m line ↔ a.jumps m line ∨ NotesJump ns m line := by simp [NotesJump]

@[simp] theorem notesJump_append : NotesJump (ms ++ ns) m line ↔ NotesJump ms m line ∨ NotesJump ns m line := by
  simp [NotesJump, or_and_right, exists_or]

@[simp] theorem notesJump_closing :
    ¬NotesJump (closingNotes closing n) m line := by cases closing <;> simp [closingNotes, Note.jumps]

@[simp] theorem notesJump_settle {e : Exit} :
    NotesJump (settle start n e) m line ↔ m = .block .cond start e.label ∧ line = e.line := by simp [settle, Note.jumps]

@[simp] theorem notesJump_settleAll : NotesJump (exits.flatMap (settle start n)) m line ↔ ExitsJump start exits m line := by
  induction exits with
  | nil => simp
  | cons e exits ih => simp [ih]

end NotesJump

def LinksJump (ls : List (Mark × Jump)) (m : Mark) (line : Nat) : Prop := ∃ l ∈ ls, l.1 = m ∧ l.2.line = line

section LinksJump

variable {ks ls : List (Mark × Jump)} {m : Mark} {line : Nat}

@[simp] theorem linksJump_nil : ¬LinksJump [] m line := by simp [LinksJump]

@[simp] theorem linksJump_cons :
    LinksJump (l :: ls) m line ↔ m = l.1 ∧ line = l.2.line ∨ LinksJump ls m line := by simp [LinksJump, eq_comm]

@[simp] theorem linksJump_append : LinksJump (ks ++ ls) m line ↔ LinksJump ks m line ∨ LinksJump ls m line := by
  simp [LinksJump, or_and_right, exists_or]

end LinksJump

mutual

theorem Outline.notesJump_iff {m : Mark} {line : Nat} : ∀ (o : Outline) (n : Nat),
    NotesJump (o.notes n) m line ↔ LinksJump (o.links n) m line
  | .skip, _ | .plain _, _ => by simp [Outline.notes, Outline.links]
  | .label _, _ | .goto _, _ | .unless _ _, _ => by simp [Outline.notes, Outline.links, Note.jumps]
  | .seq a b, n => by simp [Outline.notes, Outline.links, a.notesJump_iff, b.notesJump_iff]
  | .cond _ body others, n => by
    simp only [Outline.notes, Outline.links, notesJump_append, linksJump_append, linksJump_cons,
      body.notesJump_iff, others.notesJump_iff n 1 [] ⟨0, n⟩ (n + 1 + body.count)
        (n + 1 + body.count + others.count), nil_append, exitsJump_cons, exitsJump_nil]
    grind
  | .forLoop _ _ _ body, n | .whileLoop _ body, n => by
    simp only [Outline.notes, Outline.links, notesJump_append, notesJump_cons, notesJump_nil,
      linksJump_append, linksJump_cons, linksJump_nil, body.notesJump_iff, Note.jumps]
    grind
  | .doLoop body _, n => by
    simp [Outline.notes, Outline.links, body.notesJump_iff, Note.jumps]

theorem Branches.notesJump_iff {m : Mark} {line : Nat} :
    ∀ (b : Branches) (start k : Nat) (pending : List Exit) (last : Exit) (n stop : Nat),
    NotesJump (b.notes start k pending last n) m line
    ↔ ExitsJump start (pending ++ [last]) m line ∨ LinksJump (b.links start k n stop) m line
  | .done closing, start, k, pending, last, n, stop => by
    simp [Branches.notes, Branches.links]
  | .otherwise closing body rest, start, k, pending, last, n, stop => by
    simp only [Branches.notes, Branches.links, notesJump_append, linksJump_append, linksJump_cons,
      body.notesJump_iff, notesJump_settle, notesJump_closing, exitsJump_append, exitsJump_cons,
      rest.notesJump_iff start (k + 1) pending ⟨k, n⟩ (n + 1 + body.count) stop]
    grind
  | .otherwiseIf closing _ body rest, start, k, pending, last, n, stop => by
    simp only [Branches.notes, Branches.links, notesJump_append, linksJump_append, linksJump_cons,
      body.notesJump_iff, notesJump_settle, notesJump_closing, exitsJump_append, exitsJump_cons,
      rest.notesJump_iff start (k + 2) (pending ++ [⟨k, n⟩]) ⟨k + 1, n + 1⟩ (n + 2 + body.count) stop]
    grind

end

/-! ### Labels in the notes -/

section Labels

variable {name : Name} {t : Nat}

@[simp] theorem mem_closingNotes : .label (.user name) t ∈ closingNotes closing n ↔ (name, t) ∈ closingLabels closing n := by
  cases closing <;> simp [closingNotes, closingLabels]

@[simp] theorem not_mem_settleAll : .label (.user name) t ∉ exits.flatMap (settle start n) := by simp [settle]

mutual

theorem Outline.mem_labels : ∀ (o : Outline) (n : Nat), .label (.user name) t ∈ o.notes n ↔ (name, t) ∈ o.labels n
  | .skip, _ | .plain _, _ | .label _, _ | .goto _, _ | .unless _ _, _ => by
    simp [Outline.notes, Outline.labels]
  | .seq a b, n => by simp [Outline.notes, Outline.labels, a.mem_labels, b.mem_labels]
  | .cond _ body others, n => by
    simp [Outline.notes, Outline.labels, body.mem_labels, others.mem_labels]
  | .forLoop _ _ _ body, n
  | .whileLoop _ body, n
  | .doLoop body _, n => by simp [Outline.notes, Outline.labels, body.mem_labels]

theorem Branches.mem_labels : ∀ (b : Branches) (start k : Nat) (pending : List Exit) (last : Exit)
    (n : Nat), .label (.user name) t ∈ b.notes start k pending last n ↔ (name, t) ∈ b.labels n
  | .done closing, start, k, pending, last, n => by
    simp only [Branches.notes, Branches.labels, mem_append, mem_closingNotes, not_mem_settleAll, or_false]
  | .otherwise closing body rest, start, k, pending, last, n
  | .otherwiseIf closing _ body rest, start, k, pending, last, n => by
    simp [Branches.notes, Branches.labels, settle, body.mem_labels, rest.mem_labels]

end

end Labels

/-- The notes hold the label a jump goes to, if it is not one of the script. -/
def Linked (ns : List Note) (l : Mark × Jump) : Prop :=
  match l.2.target with
  | .name name => l.1 = .user name
  | .line t => .label l.1 t ∈ ns

theorem Linked.mono {ms ns : List Note} (h : Linked ms l) (hsub : ms ⊆ ns) : Linked ns l := by
  unfold Linked at h ⊢
  split
  · simp_all
  · rename_i t ht
    rw [ht] at h
    exact hsub h

mutual

theorem Outline.linked : ∀ (o : Outline) (n : Nat), ∀ l ∈ o.links n, Linked (o.notes n) l
  | .skip, _ | .plain _, _ | .label _, _ => by simp [Outline.links]
  | .goto _, _ | .unless _ _, _ => by simp [Outline.links, Linked]
  | .seq a b, n => by
    simp only [Outline.links, forall_mem_append]
    exact ⟨fun l hl => (a.linked n l hl).mono (subset_append_left _ _),
      fun l hl => (b.linked _ l hl).mono (subset_append_right _ _)⟩
  | .cond _ body others, n => by
    have hothers := others.linked n 1 [] ⟨0, n⟩ (n + 1 + body.count) _ rfl
    simp only [Outline.links, cons_append, forall_mem_cons, forall_mem_append]
    refine ⟨mem_append_right _ hothers.2.2, fun l hl => ?_, fun l hl => ?_⟩
    · exact (body.linked _ l hl).mono (subset_append_left _ _)
    · exact (hothers.1 l hl).mono (subset_append_right _ _)
  | .forLoop _ _ _ body, n | .whileLoop _ body, n => by
    simp only [Outline.links, cons_append, forall_mem_cons, forall_mem_append]
    refine ⟨by simp [Linked, Outline.notes], fun l hl => ?_, by simp [Linked, Outline.notes]⟩
    exact (body.linked _ l hl).mono (subset_append_left _ _)
  | .doLoop body _, n => by
    simp only [Outline.links, forall_mem_append]
    refine ⟨fun l hl => ?_, by simp [Linked, Outline.notes]⟩
    exact (body.linked _ l hl).mono (subset_append_left _ _)

theorem Branches.linked : ∀ (b : Branches) (start k : Nat) (pending : List Exit) (last : Exit)
    (n stop : Nat), stop = n + b.count → (∀ l ∈ b.links start k n stop, Linked (b.notes start k pending last n) l) ∧
    (∀ e ∈ pending, .label (.block .cond start e.label) stop ∈ b.notes start k pending last n) ∧
    .label (.block .cond start last.label) (b.entry n) ∈ b.notes start k pending last n
  | .done closing, start, k, pending, last, n, stop, hstop => by
    obtain rfl : stop = n := hstop
    refine ⟨by simp [Branches.links], fun e he => ?_, ?_⟩
    · exact mem_append_right _ (mem_flatMap.2 ⟨e, mem_append_left _ he, by simp [settle]⟩)
    · simp [Branches.notes, settle, Branches.entry]
  | .otherwise closing body rest, start, k, pending, last, n, stop, hstop => by
    have hstop : stop = n + 1 + body.count + rest.count := by
      rw [hstop, Branches.count_otherwise]
      omega
    have hrest := rest.linked start (k + 1) pending ⟨k, n⟩ (n + 1 + body.count) stop hstop
    refine ⟨?_, fun e he => mem_append_right _ (hrest.2.1 e he), ?_⟩
    · simp only [Branches.links, cons_append, forall_mem_cons, forall_mem_append]
      refine ⟨?_, fun l hl => ?_, fun l hl => ?_⟩
      · rw [← rest.exit_eq_entry, ← hstop] at hrest
        exact mem_append_right _ hrest.2.2
      · exact (body.linked _ l hl).mono fun a ha => by simp [Branches.notes, ha]
      · exact (hrest.1 l hl).mono (subset_append_right _ _)
    · simp [Branches.notes, settle, Branches.entry]
  | .otherwiseIf closing _ body rest, start, k, pending, last, n, stop, hstop => by
    have hrest := rest.linked start (k + 2) (pending ++ [⟨k, n⟩]) ⟨k + 1, n + 1⟩ (n + 2 + body.count)
      stop (by rw [hstop, Branches.count_otherwiseIf]; omega)
    refine ⟨?_, fun e he => mem_append_right _ (hrest.2.1 e (by simp [he])), ?_⟩
    · simp only [Branches.links, cons_append, forall_mem_cons, forall_mem_append]
      refine ⟨mem_append_right _ (hrest.2.1 ⟨k, n⟩ (by simp)), mem_append_right _ hrest.2.2, fun l hl => ?_, fun l hl => ?_⟩
      · exact (body.linked _ l hl).mono fun a ha => by simp [Branches.notes, ha]
      · exact (hrest.1 l hl).mono (subset_append_right _ _)
    · simp [Branches.notes, settle, Branches.entry]

end

/-! ### Lines that jump -/

/-- The lines from `n` on have room for an offset at a line. -/
def RoomAt (lines : List Code) (n line : Nat) : Prop :=
  ∃ i head, line = n + i ∧ lines[i]? = some (head ++ Statement.hole)

section RoomAt

variable {ls ms : List Code} {n line : Nat}

theorem RoomAt.bounds (h : RoomAt ls n line) : n ≤ line ∧ line < n + ls.length := by
  obtain ⟨i, head, rfl, hi⟩ := h
  obtain ⟨hlt, -⟩ := List.getElem?_eq_some_iff.1 hi
  omega

theorem RoomAt.append_right (h : RoomAt ls n line) : RoomAt (ls ++ ms) n line := by
  obtain ⟨i, head, rfl, hi⟩ := h
  obtain ⟨hlt, -⟩ := List.getElem?_eq_some_iff.1 hi
  exact ⟨i, head, rfl, by rw [List.getElem?_append_left hlt, hi]⟩

theorem RoomAt.append_left (h : RoomAt ms (n + ls.length) line) : RoomAt (ls ++ ms) n line := by
  obtain ⟨i, head, rfl, hi⟩ := h
  refine ⟨ls.length + i, head, Nat.add_assoc _ _ _, ?_⟩
  rw [getElem?_append_right (Nat.le_add_right _ _), Nat.add_sub_cancel_left, hi]

theorem roomAt_head {head : Code} : RoomAt ((head ++ Statement.hole) :: ls) n n := ⟨0, head, rfl, rfl⟩

theorem RoomAt.cons {code : Code} (h : RoomAt ls (n + 1) line) : RoomAt (code :: ls) n line :=
  show RoomAt ([code] ++ ls) n line from h.append_left

end RoomAt

def Apart (ls : List (Mark × Jump)) : Prop := ls.Pairwise fun a b => a.2.line ≠ b.2.line

mutual

theorem Outline.roomAt : ∀ (o : Outline) (n : Nat), ∀ l ∈ o.links n, RoomAt o.lines n l.2.line
  | .skip, _ | .plain _, _ | .label _, _ => by simp [Outline.links]
  | .goto _, _ | .unless _ _, _ => by
    simp only [Outline.links, forall_mem_singleton]
    exact roomAt_head
  | .seq a b, n => by
    simp only [Outline.links, forall_mem_append]
    exact ⟨fun l hl => (a.roomAt n l hl).append_right, fun l hl => (b.roomAt _ l hl).append_left⟩
  | .cond _ body others, n => by
    simp only [Outline.links, cons_append, forall_mem_cons, forall_mem_append]
    refine ⟨roomAt_head, fun l hl => ?_, fun l hl => ?_⟩
    · exact (body.roomAt _ l hl).append_right.cons
    · exact (others.roomAt n 1 _ _ l hl).append_left.cons
  | .forLoop first test step body, n => by
    simp only [Outline.links, cons_append, forall_mem_append, forall_mem_singleton, forall_mem_cons]
    refine ⟨roomAt_head.append_left.append_right.append_right, fun l hl => ?_, ?_⟩
    · exact (body.roomAt _ l hl).cons.append_left.append_right.append_right
    · have hback : n + first.toList.length + 1 + body.count + step.toList.length
          = n + (first.toList ++ (test ++ Statement.hole) :: body.lines ++ step.toList).length := by
        simp [Outline.count]
        omega
      rw [hback]
      exact roomAt_head.append_left
  | .whileLoop _ body, n => by
    simp only [Outline.links, cons_append, forall_mem_append, forall_mem_singleton, forall_mem_cons]
    exact ⟨roomAt_head, fun l hl => (body.roomAt _ l hl).append_right.cons, (RoomAt.append_left roomAt_head).cons⟩
  | .doLoop body _, n => by
    simp only [Outline.links, forall_mem_append, forall_mem_singleton]
    exact ⟨fun l hl => (body.roomAt _ l hl).append_right, roomAt_head.append_left⟩

theorem Branches.roomAt : ∀ (b : Branches) (start k n stop : Nat), ∀ l ∈ b.links start k n stop, RoomAt b.lines n l.2.line
  | .done _, _, _, _, _ => by simp [Branches.links]
  | .otherwise _ body rest, start, k, n, stop => by
    simp only [Branches.links, cons_append, forall_mem_cons, forall_mem_append]
    refine ⟨roomAt_head, fun l hl => ?_, fun l hl => ?_⟩
    · exact (body.roomAt _ l hl).append_right.cons
    · exact (rest.roomAt _ _ _ _ l hl).append_left.cons
  | .otherwiseIf _ _ body rest, start, k, n, stop => by
    simp only [Branches.links, cons_append, forall_mem_cons, forall_mem_append]
    refine ⟨roomAt_head, roomAt_head.cons, fun l hl => ?_, fun l hl => ?_⟩
    · exact (body.roomAt _ l hl).append_right.cons.cons
    · exact (rest.roomAt _ _ _ _ l hl).append_left.cons.cons

end

theorem apart_cons {ls : List (Mark × Jump)} (h : Apart ls) (hl : ∀ a ∈ ls, l.2.line < a.2.line) : Apart (l :: ls) :=
  pairwise_cons.2 ⟨fun a ha => Nat.ne_of_lt (hl a ha), h⟩

theorem apart_append {ks ls : List (Mark × Jump)} (mid : Nat) (hk : Apart ks) (hl : Apart ls)
    (hks : ∀ a ∈ ks, a.2.line < mid) (hls : ∀ a ∈ ls, mid ≤ a.2.line) : Apart (ks ++ ls) :=
  pairwise_append.2 ⟨hk, hl, fun a ha b hb =>
    Nat.ne_of_lt (Nat.lt_of_lt_of_le (hks a ha) (hls b hb))⟩

theorem Outline.line_bounds (o : Outline) (n : Nat) : ∀ l ∈ o.links n, n ≤ l.2.line ∧ l.2.line < n + o.count :=
  fun l hl => (o.roomAt n l hl).bounds

theorem Branches.line_bounds (b : Branches) (start k n stop : Nat) :
    ∀ l ∈ b.links start k n stop, n ≤ l.2.line ∧ l.2.line < n + b.count :=
  fun l hl => (b.roomAt start k n stop l hl).bounds

/-- The links of a body between one that jumps before it and others that jump after it. -/
theorem apart_around {body : Outline} {rest : List (Mark × Jump)} (hbody : Apart (body.links n))
    (hl : l.2.line < n) (hrest : Apart rest) (hafter : ∀ r ∈ rest, n + body.count ≤ r.2.line) :
    Apart (l :: body.links n ++ rest) := by
  refine apart_append (n + body.count) (apart_cons hbody fun r hr => ?_) hrest ?_ hafter
  · exact Nat.lt_of_lt_of_le hl (body.line_bounds _ r hr).1
  · simp only [forall_mem_cons]
    exact ⟨by omega, fun r hr => (body.line_bounds _ r hr).2⟩

mutual

theorem Outline.apart : ∀ (o : Outline) (n : Nat), Apart (o.links n)
  | .skip, _ | .plain _, _ | .label _, _ => List.Pairwise.nil
  | .goto _, _ | .unless _ _, _ => pairwise_singleton _ _
  | .seq a b, n => apart_append _ (a.apart n) (b.apart _) (fun l hl => (a.line_bounds n l hl).2)
      fun l hl => (b.line_bounds _ l hl).1
  | .cond _ body others, n =>
    apart_around (body.apart _) (Nat.lt_succ_self _) (others.apart ..) fun l hl => (others.line_bounds _ _ _ _ l hl).1
  | .forLoop _ _ _ body, n | .whileLoop _ body, n =>
    apart_around (body.apart _) (Nat.lt_succ_self _) (pairwise_singleton _ _) (by simp)
  | .doLoop body _, n => by
    refine apart_append (n + body.count) (body.apart _) (pairwise_singleton _ _) ?_ ?_
    · exact fun l hl => (body.line_bounds _ l hl).2
    · simp

theorem Branches.apart : ∀ (b : Branches) (start k n stop : Nat), Apart (b.links start k n stop)
  | .done _, _, _, _, _ => List.Pairwise.nil
  | .otherwise _ body rest, start, k, n, stop =>
    apart_around (body.apart _) (Nat.lt_succ_self _) (rest.apart ..) fun l hl => (rest.line_bounds _ _ _ _ l hl).1
  | .otherwiseIf _ _ body rest, start, k, n, stop => by
    refine apart_append (n + 2 + body.count) (apart_cons (apart_cons (body.apart _) fun l hl => ?_) ?_)
      (rest.apart ..) ?_ fun l hl => (rest.line_bounds _ _ _ _ l hl).1
    · exact (body.line_bounds _ l hl).1
    · simp only [forall_mem_cons]
      exact ⟨by omega, fun l hl => Nat.lt_of_succ_lt (body.line_bounds _ l hl).1⟩
    · simp only [forall_mem_cons]
      exact ⟨by omega, by omega, fun l hl => (body.line_bounds _ l hl).2⟩

end

end ScummKit.Script
