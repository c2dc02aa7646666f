import ScummKit.Proofs.Project.Steps

/-!
# Walks in a room

In a room, pictures that are met before the palette wait for it, and are decoded when the room is left. What a walk in a room does is told by the steps it takes and the steps it lets wait (`Follows`).
-/

namespace ScummKit

open Text Asset Work List

variable {x : Work Unit} {later : List Step}

/-! ### Walks in a room -/

open Site

/-- A walk that decodes for a display of 256 colours. -/
structure Roaming (t : FileTree) (c : Crawl) (w : Workspace) : Prop where
  kept : FileTree.Kept t w.files
  building : w.crawl.building = false
  version : w.crawl.version = c.version
  video : w.crawl.video = c.video
  targets : w.crawl.targets = c.targets

/-- A walk in a room with a palette. -/
structure InRoom (t : FileTree) (c : Crawl) (palette : Palette) (w : Workspace) : Prop extends Roaming t c w where
  palette : w.crawl.found = true → w.crawl.palette = palette

/-- A step that has to wait for the palette. -/
def Waits (c : Crawl) (palette : Palette) (x : Step) : Prop :=
  Step.ofFile c palette x.path = some x ∧ ∃ p k, x = .decode p k palette ∧ Step.Coloured k

/-- What has become of a walk in a room: some steps were taken, and others wait. -/
structure Advances (t : FileTree) (c : Crawl) (palette : Palette) (now later : List Step) (w u : Workspace) : Prop where
  room : InRoom t c palette u
  queue : queueOf u = queueOf w ++ later.map Step.path
  waits : ∀ x ∈ later, Waits c palette x
  found : u.crawl.found = true ↔ w.crawl.found = true ∨ ∃ p, .palette p ∈ now
  settled : w.crawl.found = true → later = []

/-- A walk that is in no room. -/
structure Outdoors (t : FileTree) (c : Crawl) (w : Workspace) : Prop extends Roaming t c w where
  found : w.crawl.found = false
  queue : queueOf w = []

/-- Work takes some of the steps and leaves the others, and ends in a workspace that is told of both. -/
def Takes (c : Crawl) (steps : List Step) (x : Work Unit) (w : Workspace) (After : List Step → List Step → Workspace → Prop) :
    Prop :=
  ∃ now later, (now ++ later).Perm steps ∧ Same (result x w) (result (now.forM (Step.run c)) w)
    ∧ ∀ u, Gives x w () u → After now later u

/-- Work in a room lets the steps wait that it leaves. -/
abbrev Follows (t : FileTree) (c : Crawl) (palette : Palette) (steps : List Step) (x : Work Unit) (w : Workspace) : Prop :=
  Takes c steps x w fun now later u => Advances t c palette now later w u

/-- Work outside rooms leaves nothing behind. -/
abbrev Clears (t : FileTree) (c : Crawl) (steps : List Step) (x : Work Unit) (w : Workspace) : Prop :=
  Takes c steps x w fun _ later u => later = [] ∧ Outdoors t c u

section Visits

variable {t : FileTree} {c : Crawl} {palette : Palette} {w u : Workspace} {p : Path} {k : Kind}

section Takes

variable {steps now : List Step} {After : List Step → List Step → Workspace → Prop} {y : Work Unit}

theorem Takes.perm {steps' : List Step} (h : Takes c steps x w After) (hperm : steps.Perm steps') : Takes c steps' x w After := by
  obtain ⟨now, later, hsteps, hrest⟩ := h
  exact ⟨now, later, hsteps.trans hperm, hrest⟩

theorem Takes.congr (hxy : result x w = result y w) (h : Takes c steps y w After) : Takes c steps x w After := by
  obtain ⟨now, later, hsteps, hsame, hafter⟩ := h
  refine ⟨now, later, hsteps, hxy ▸ hsame, fun u hu => hafter u ?_⟩
  rwa [Gives, ← hxy]

theorem takes_nil (hx : result x w = (.ok (), w)) (hafter : After [] [] w) : Takes c [] x w After := by
  refine ⟨[], [], .refl _, ?_, fun u hu => ?_⟩
  · rw [hx]
    exact same_refl _
  · obtain rfl : w = u := congrArg Prod.snd (hx.symm.trans hu)
    exact hafter

/-- Work goes on with the steps that are left. After a failure none of them is reached. -/
theorem takes_bind (hperm : (now ++ later).Perm steps) (hsame : Same (result x w) (result (now.forM (Step.run c)) w))
    (hy : ∀ u, Gives x w () u → Takes c later y u fun now' => After (now ++ now')) : Takes c steps (do x; y) w After := by
  by_cases hgives : ∃ u, Gives x w () u
  · obtain ⟨u, hu⟩ := hgives
    obtain ⟨now', later', hlater, hsame', hafter⟩ := hy u hu
    have honly {v : Workspace} (hv : Gives x w () v) : u = v := congrArg Prod.snd (hu.symm.trans hv)
    refine ⟨now ++ now', later', ?_, ?_, fun v hv => ?_⟩
    · rw [append_assoc]
      exact (hlater.append_left now).trans hperm
    · rw [Step.forM_append]
      exact same_bind hsame (Step.blind_forM c now') fun v hv => honly hv ▸ hsame'
    · obtain ⟨_, u', hu', hv⟩ := gives_bind.mp hv
      exact hafter v (honly hu' ▸ hv)
  · refine ⟨now ++ later, [], by rwa [append_nil], ?_, fun v hv => ?_⟩
    · rw [Step.forM_append]
      exact same_bind hsame (Step.blind_forM c later) fun v hv => absurd ⟨v, hv⟩ hgives
    · obtain ⟨_, u, hu, -⟩ := gives_bind.mp hv
      exact absurd ⟨u, hu⟩ hgives

end Takes

theorem Roaming.congr (h : Roaming t c w) (hfiles : FileTree.Kept t u.files) (hcrawl : u.crawl = w.crawl) : Roaming t c u := by
  constructor
  · exact hfiles
  all_goals rw [hcrawl]
  exacts [h.building, h.version, h.video, h.targets]

theorem InRoom.congr (h : InRoom t c palette w) (hfiles : FileTree.Kept t u.files) (hcrawl : u.crawl = w.crawl) :
    InRoom t c palette u := by
  refine ⟨h.toRoaming.congr hfiles hcrawl, ?_⟩
  rw [hcrawl]
  exact h.palette

theorem InRoom.advances_nil (h : InRoom t c palette w) : Advances t c palette [] [] w w :=
  ⟨h, by simp, fun x hx => absurd hx not_mem_nil, by simp, fun _ => rfl⟩

theorem InRoom.follows_step (h : InRoom t c palette w) {step : Step} (hx : result x w = result (step.run c) w)
    (hedits : Edits (step.run c)) (hpalette : ∀ p, step ≠ .palette p) : Follows t c palette [step] x w := by
  have hrun : result ([step].forM (Step.run c)) w = result (step.run c) w := by
    change result (step.run c >>= fun _ => pure ()) w = _
    rw [bind_pure_unit]
  refine ⟨[step], [], .refl _, ?_, fun u hu => ?_⟩
  · rw [hx, hrun]
    exact same_refl _
  · rw [Gives, hx] at hu
    obtain ⟨hcrawl, hqueue⟩ := (Step.blind_run c step).crawl hu
    refine ⟨h.congr (h.kept.edits hedits hu) hcrawl, by simp [queueOf, hcrawl, hqueue], fun x hx => absurd hx not_mem_nil, ?_,
      fun _ => rfl⟩
    rw [hcrawl]
    simp [fun p => (hpalette p).symm]

section

variable (h : Roaming t c w)

include h

theorem Roaming.result_visit : result (visit p) w = result (visitDecoding p) w := by
  rw [visit, result_get, h.building]
  rfl

theorem Roaming.result_header (hstatus : Status.ofName p.name = .header) : result (visit p) w = result (stamp p) w := by
  rw [h.result_visit, visitDecoding]
  rw [if_pos hstatus, if_pos (by rw [hstatus]; decide)]
  rw [bind_pure_unit]

theorem Roaming.result_other (hheader : Status.ofName p.name ≠ .header)
    (hbinary : Status.ofName p.name ≠ .binary) : result (visit p) w = (.ok (), w) := by
  rw [h.result_visit, visitDecoding]
  rw [if_neg hheader, if_pos hbinary]
  rfl

theorem Roaming.gives_targets (k : Kind) : Gives (Work.targets (some k)) w (c.targets.contains k.label) w := by
  rw [← h.targets]
  rfl

theorem Roaming.result_palette (hstatus : Status.ofName p.name = .binary)
    (hkind : Kind.ofName? c.version p.name = some .palette) :
    result (visit p) w = result (Step.usePalette c p >>= foundPalette) w := by
  rw [h.result_visit, visitDecoding]
  rw [if_neg (by rw [hstatus]; decide), if_neg (by rw [hstatus]; decide), result_get, h.version, if_pos hkind, decodePalette,
    result_get]
  rw [h.version, (h.gives_targets .palette).result_bind, Step.usePalette]
  change result (if c.targets.contains "palette" = true then _ else _) w = _
  split
  · rfl
  · rfl

theorem Roaming.result_binary (hstatus : Status.ofName p.name = .binary)
    (hkind : Kind.ofName? c.version p.name = some k) (hpalette : k ≠ .palette) :
    result (visit p) w = if c.targets.contains k.label then result (decodeKind p k) w else (.ok (), w) := by
  rw [h.result_visit, visitDecoding]
  rw [if_neg (by rw [hstatus]; decide), if_neg (by rw [hstatus]; decide), result_get, h.version, hkind,
    if_neg fun heq => hpalette (Option.some.inj heq), (h.gives_targets k).result_bind]
  split
  · rfl
  · rfl

theorem Roaming.result_decodeKind (hvideo : c.video = "vga") (hpalette : k ≠ .palette) :
    result (decodeKind p k) w = if Step.Coloured k ∧ w.crawl.found = false then result (enqueue p) w
    else result (Step.decoder c.version c.video w.crawl.palette p k) w := by
  have hneeds : Gives needsPalette w (!w.crawl.found) w := by
    have hvga : decide (w.crawl.video = "vga") = true := decide_eq_true (h.video.trans hvideo)
    have hgives : Gives needsPalette w (decide (w.crawl.video = "vga") && !w.crawl.found) w := rfl
    rwa [hvga] at hgives
  rw [decodeKind, result_get]
  dsimp only
  rw [h.version, h.video]
  cases k with
  | script => rfl
  | box => rfl
  | scale => rfl
  | zplane => rfl
  | other => rfl
  | palette => exact absurd rfl hpalette
  | image | costume =>
    rw [hneeds.result_bind]
    cases w.crawl.found <;> rfl

end

theorem InRoom.follows_palette (h : InRoom t c palette w) (hvalid : ∀ n ∈ p.parts, ValidName n)
    (hstatus : Status.ofName p.name = .binary) (hkind : Kind.ofName? c.version p.name = some .palette)
    (hpalette : ∀ colours, w.files.paletteAt c.version p = .ok colours → colours = palette) :
    Follows t c palette [.palette p] (visit p) w := by
  have hvisit := h.result_palette hstatus hkind
  refine ⟨[.palette p], [], .refl _, ?_, fun u hu => ?_⟩
  · rw [hvisit]
    change Same _ (result ((do let _ ← Step.usePalette c p) >>= fun _ => pure ()) w)
    rw [bind_pure_unit, result_bind, result_bind]
    rcases result (Step.usePalette c p) w with ⟨r, v⟩
    cases r with
    | error e => exact same_refl _
    | ok colours => exact ⟨rfl, rfl⟩
  · rw [Gives, hvisit] at hu
    obtain ⟨colours, v, huse, hfound⟩ := gives_bind.mp hu
    obtain rfl := gives_modify.mp hfound
    obtain rfl := hpalette colours (Step.paletteAt_of_usePalette huse)
    have hblind : Blind (Step.usePalette c p) := by
      rw [Step.usePalette]
      split
      · exact blind_decodePalette _ _ _
      · exact (Site.looks_readPalette _ _).blind
    obtain ⟨hcrawl, hqueue⟩ := hblind.crawl huse
    have hroaming := h.toRoaming.congr (h.kept.edits (Step.edits_usePalette c hvalid ((ends_of_status _).1 hstatus)) huse) hcrawl
    refine ⟨⟨⟨hroaming.kept, hroaming.building, hroaming.version, hroaming.video, hroaming.targets⟩, fun _ => rfl⟩, ?_,
      fun x hx => absurd hx not_mem_nil, ?_, fun _ => rfl⟩
    · simp [queueOf, hcrawl, hqueue]
    · simp

theorem result_enqueue (p : Path) (w : Workspace) : ∃ u, result (enqueue p) w = (.ok (), u)
    ∧ walking default [] u = walking default [] w ∧ queueOf u = queueOf w ++ [p] ∧ u.files = w.files
    ∧ u.crawl = { w.crawl with queue := u.crawl.queue } := by
  cases hq : w.crawl.queue with
  | none =>
    refine ⟨{ w with queue := w.queue ++ [p] }, ?_, rfl, by simp [queueOf, hq], rfl, rfl⟩
    change (Except.ok (), _) = (Except.ok (), _)
    dsimp only
    rw [hq]
  | some q =>
    refine ⟨{ w with crawl := { w.crawl with queue := some (q ++ [p]) } }, ?_, rfl, by simp [queueOf, hq], rfl, rfl⟩
    change (Except.ok (), _) = (Except.ok (), _)
    dsimp only
    rw [hq]

theorem InRoom.follows_wait (h : InRoom t c palette w) (hx : result x w = result (enqueue p) w)
    (hwaits : Waits c palette (.decode p k palette)) (hfound : w.crawl.found = false) :
    Follows t c palette [.decode p k palette] x w := by
  obtain ⟨v, hv, hwalking, hqueue, hfiles, hcrawl⟩ := result_enqueue p w
  refine ⟨[], [.decode p k palette], .refl _, ?_, fun u hu => ?_⟩
  · rw [hx, hv]
    exact ⟨rfl, hwalking⟩
  · rw [Gives, hx, hv] at hu
    obtain rfl : v = u := congrArg Prod.snd hu
    have hlater : ∀ y ∈ [Step.decode p k palette], Waits c palette y := by
      intro y hy
      rwa [mem_singleton.mp hy]
    have hroom : InRoom t c palette v := by
      refine ⟨⟨hfiles ▸ h.kept, ?_, ?_, ?_, ?_⟩, ?_⟩
      all_goals rw [hcrawl]
      exacts [h.building, h.version, h.video, h.targets, h.palette]
    refine ⟨hroom, hqueue, hlater, ?_, fun htrue => ?_⟩
    · rw [hcrawl]
      simp
    · rw [hfound] at htrue
      cases htrue

theorem InRoom.follows_visit (h : InRoom t c palette w) (hvideo : c.video = "vga") (hversion : c.version = "4" ∨ c.version = "5")
    (hvalid : Original p.name → ∀ n ∈ p.parts, ValidName n)
    (hpalette : Status.ofName p.name = .binary → Kind.ofName? c.version p.name = some .palette →
    ∀ colours, w.files.paletteAt c.version p = .ok colours → colours = palette) :
    Follows t c palette (Step.ofFile c palette p).toList (visit p) w := by
  by_cases hheader : Status.ofName p.name = .header
  · have hstep : Step.ofFile c palette p = some (.stamp p) := by simp [Step.ofFile, hheader]
    rw [hstep]
    exact h.follows_step (h.result_header hheader) (keeps_stamp p).storesIn fun q hq => (nomatch hq)
  by_cases hbinary : Status.ofName p.name = .binary
  · have hparts := hvalid (Or.inl hbinary)
    have hends := (ends_of_status _).1 hbinary
    obtain ⟨k, hkind⟩ : ∃ k, Kind.ofName? c.version p.name = some k := by
      rcases hversion with hv | hv
      · rw [hv]
        exact ⟨_, rfl⟩
      · rw [hv]
        exact ⟨_, rfl⟩
    by_cases hk : k = .palette
    · subst hk
      have hstep : Step.ofFile c palette p = some (.palette p) := by simp [Step.ofFile, hbinary, hkind]
      rw [hstep]
      exact h.follows_palette hparts hbinary hkind (hpalette hbinary hkind)
    · have hvisit := h.result_binary hbinary hkind hk
      have hstep : Step.ofFile c palette p = if c.targets.contains k.label then
          some (.decode p k (if Step.Coloured k then palette else [])) else none := by
        simp only [Step.ofFile, hbinary, hkind]
      by_cases htarget : c.targets.contains k.label = true
      · rw [if_pos htarget] at hvisit hstep
        rw [h.result_decodeKind hvideo hk] at hvisit
        by_cases hwait : Step.Coloured k ∧ w.crawl.found = false
        · rw [if_pos hwait] at hvisit
          rw [if_pos hwait.1] at hstep
          rw [hstep]
          exact h.follows_wait hvisit ⟨hstep, p, k, rfl, hwait.1⟩ hwait.2
        · rw [if_neg hwait] at hvisit
          rw [hstep]
          refine h.follows_step (hvisit.trans ?_) (Step.edits_decoder _ _ _ hparts hends k) fun q hq => (nomatch hq)
          by_cases hcoloured : Step.Coloured k
          · have hfound : w.crawl.found = true := by
              by_contra hfalse
              exact hwait ⟨hcoloured, Bool.eq_false_iff.mpr hfalse⟩
            rw [if_pos hcoloured, h.palette hfound]
            rfl
          · -- the others are decoded without a palette
            cases k with
            | image => exact absurd (Or.inl rfl) hcoloured
            | costume => exact absurd (Or.inr rfl) hcoloured
            | _ => rfl
      · rw [if_neg htarget] at hvisit hstep
        rw [hstep]
        exact takes_nil hvisit h.advances_nil
  · have hstep : Step.ofFile c palette p = none := by
      unfold Step.ofFile
      split
      · exact absurd ‹_› hheader
      · exact absurd ‹_› hbinary
      · exact absurd ‹_› hbinary
      · rfl
    rw [hstep]
    exact takes_nil (h.result_other hheader hbinary) h.advances_nil

theorem Advances.trans {now now' later' : List Step} {v : Workspace} (h : Advances t c palette now later w v)
    (h' : Advances t c palette now' later' v u) : Advances t c palette (now ++ now') (later ++ later') w u := by
  refine ⟨h'.room, ?_, ?_, ?_, ?_⟩
  · rw [h'.queue, h.queue, map_append, append_assoc]
  · exact fun x hx => (mem_append.mp hx).elim (h.waits x) (h'.waits x)
  · rw [h'.found, h.found]
    simp only [mem_append, exists_or, or_assoc]
  · intro hfound
    rw [h.settled hfound, h'.settled (h.found.mpr (Or.inl hfound)), append_nil]

theorem InRoom.follows_forM {f : α → Work PUnit} {steps : α → List Step} {xs : List α} (h : InRoom t c palette w)
    (hf : ∀ x ∈ xs, ∀ v, InRoom t c palette v → Follows t c palette (steps x) (f x) v) :
    Follows t c palette (xs.flatMap steps) (xs.forM f) w := by
  induction xs generalizing w with
  | nil => exact takes_nil rfl h.advances_nil
  | cons x xs ih =>
    obtain ⟨now, later, hperm, hsame, hadvances⟩ := hf x mem_cons_self w h
    have hall : (now ++ (later ++ xs.flatMap steps)).Perm ((x :: xs).flatMap steps) := by
      rw [← append_assoc]
      exact hperm.append_right _
    refine takes_bind hall hsame fun v hv => ?_
    obtain ⟨now', later', hperm', hsame', hadvances'⟩ := ih (hadvances v hv).room fun y hy => hf y (mem_cons_of_mem x hy)
    exact ⟨now', later ++ later', (perm_append_comm_assoc _ _ _).trans (hperm'.append_left later), hsame',
      fun u hu => (hadvances v hv).trans (hadvances' u hu)⟩

end Visits

/-! ### Walking through a room -/

structure Settings (c : Crawl) : Prop where
  version : c.version = "4" ∨ c.version = "5"
  video : c.video = "vga"

/-- Nothing lies deeper below a folder than this. -/
def Shallow (t : FileTree) (depth : Nat) (rel : List String) : Prop :=
  ∀ more n, t.lookup (rel ++ more) = some n → more.length ≤ depth

/-- A folder with no rooms below it, where a palette can only be that of the room it lies in. -/
structure Indoors (t : FileTree) (c : Crawl) (colours : List String → Palette) (palette : Palette) (rel : List String) :
    Prop where
  plain : ∀ n more, t.IsDir (rel ++ n :: more) → FolderKind.ofName c.version (t.path (rel ++ n :: more)).name = .other
  colours : ∀ key, rel <+: key → colours key = palette
  palettes : ∀ front name content time, rel <+: front ++ [name] → t.lookup (front ++ [name]) = some (.file content time) →
    Status.ofName name = .binary → Kind.ofName? c.version name = some .palette →
      ∀ colours, t.paletteAt c.version (t.path (front ++ [name])) = .ok colours → colours = palette

section Rooms

variable {t : FileTree} {c : Crawl} {colours : List String → Palette} {palette : Palette} {rel : List String} {w : Workspace}
  {depth : Nat}
variable {n : String} {enter : Path → Work Unit} {content : Content} {order : Order}

theorem Shallow.below (h : Shallow t (depth + 1) rel) (n : String) : Shallow t depth (rel ++ [n]) := by
  intro more node hnode
  have hmore := h (n :: more) node (by simpa using hnode)
  simpa using hmore

theorem dues_of_shallow (ht : t.Placed) (hdir : t.IsDir rel) (h : Shallow t 0 rel) : dues t c colours rel = [] := by
  rw [eq_nil_iff_forall_not_mem]
  intro x hx
  obtain ⟨n, hn, -⟩ := ht.kept.listed ht hdir hx
  obtain ⟨key, ⟨more, rfl⟩, hkey⟩ := mem_dues.mp hn
  obtain ⟨⟨content, time, hfile⟩, -⟩ := stepAt_eq_some hkey
  have hlength := h (n :: more) _ (by simpa using hfile)
  simp at hlength

theorem Indoors.below (h : Indoors t c colours palette rel) (n : String) : Indoors t c colours palette (rel ++ [n]) := by
  refine ⟨fun m more hdir => ?_, fun key hprefix => h.colours key ((prefix_append rel [n]).trans hprefix),
    fun front name content time hprefix => h.palettes front name content time ((prefix_append rel [n]).trans hprefix)⟩
  have hplain := h.plain n (m :: more)
  rw [append_cons] at hplain
  exact hplain hdir

theorem FileTree.Kept.paletteAt {t' : FileTree} (h : FileTree.Kept t t') (ht : t.Placed) {front : List String} {name : String}
    (hname : Original name) {time : Int} (hfile : t.lookup (front ++ [name]) = some (.file content time)) (version : String) :
    t'.paletteAt version (t.path (front ++ [name])) = t.paletteAt version (t.path (front ++ [name])) := by
  rw [FileTree.paletteAt, FileTree.paletteAt, h.bytes ht hname hfile]

def entriesOf (order : Order) (t : FileTree) (w : Workspace) (rel : List String) : List String :=
  order.arrange (t.path rel) (w.files.childNames rel)

theorem mem_entriesOf : n ∈ entriesOf order t w rel ↔ ∃ node, w.files.lookup (rel ++ [n]) = some node :=
  (order.perm _ _).mem_iff.trans FileTree.mem_childNames

section

variable (h : Roaming t c w) (ht : t.Placed)

include h

theorem Roaming.nodup_entriesOf (order : Order) : (entriesOf order t w rel).Nodup :=
  (order.perm _ _).nodup_iff.mpr (FileTree.nodup_childNames h.kept.unique rel)

theorem Roaming.valid_entriesOf (hn : n ∈ entriesOf order t w rel) : ValidName n := by
  obtain ⟨node, hnode⟩ := mem_entriesOf.mp hn
  exact h.kept.sound.valid hnode n (by simp)

include ht

theorem Roaming.result_meet (hdir : t.IsDir rel) (hn : ValidName n) (enter : Path → Work Unit) : result (meet enter (t.path rel) n) w = match w.files.lookup (rel ++ [n]) with
      | none => (.ok (), w)
      | some (.folder _) => result (enter (t.path (rel ++ [n]))) w
      | some (.file _ _) => result (visit (t.path (rel ++ [n]))) w := by
  have hrel := ht.sound.valid_concat hdir hn
  have hmeet := Work.result_meet enter (t.path rel) n w
  rw [t.join_path rel hn, h.kept.get? ht hrel] at hmeet
  exact hmeet

theorem Roaming.dues_of_visited {time : Int} (hfile : w.files.lookup (rel ++ [n]) = some (.file content time)) :
    (dues t c colours (rel ++ [n])).Perm (Step.ofFile c (colours (rel ++ [n])) (t.path (rel ++ [n]))).toList := by
  rcases hlookup : t.lookup (rel ++ [n]) with _ | ⟨content', time'⟩ | time'
  · have hnew : ¬ Original (t.path (rel ++ [n])).name := by
      rw [t.name_path]
      intro horiginal
      rw [h.kept.agree.files rel n horiginal, hlookup] at hfile
      cases hfile
    rw [dues_of_none ht.sound hlookup, Step.ofFile_eq_none hnew]
    exact .refl _
  · exact dues_of_file ht hlookup
  · obtain ⟨time'', hfolder⟩ := h.kept.agree.dirs _ ⟨time', hlookup⟩
    rw [hfile] at hfolder
    cases hfolder

theorem Roaming.dues_of_missing (hnone : w.files.lookup (rel ++ [n]) = none) : dues t c colours (rel ++ [n]) = [] := by
  rcases hlookup : t.lookup (rel ++ [n]) with _ | ⟨content, time⟩ | time
  · exact dues_of_none ht.sound hlookup
  · have hnew : ¬ Original (t.path (rel ++ [n])).name := by
      rw [t.name_path]
      intro horiginal
      rw [(h.kept.agree.files rel n horiginal content time).mpr hlookup] at hnone
      cases hnone
    have hperm : (dues t c colours (rel ++ [n])).Perm _ := dues_of_file ht hlookup
    rw [Step.ofFile_eq_none hnew] at hperm
    exact hperm.eq_nil
  · obtain ⟨time', hfolder⟩ := h.kept.agree.dirs _ ⟨time, hlookup⟩
    rw [hnone] at hfolder
    cases hfolder

/-- An entry is visited or entered, if it is still there. -/
theorem Roaming.takes_meet {After : List Step → List Step → Workspace → Prop} (hdir : t.IsDir rel) (hn : ValidName n) (hnil : After [] [] w)
    (hvisit : ∀ content time, w.files.lookup (rel ++ [n]) = some (.file content time) →
    Takes c (Step.ofFile c (colours (rel ++ [n])) (t.path (rel ++ [n]))).toList (visit (t.path (rel ++ [n]))) w After)
    (henter : t.IsDir (rel ++ [n]) → Takes c (dues t c colours (rel ++ [n])) (enter (t.path (rel ++ [n]))) w After) :
    Takes c (dues t c colours (rel ++ [n])) (meet enter (t.path rel) n) w After := by
  have hmeet := h.result_meet ht hdir hn enter
  rcases hlookup : w.files.lookup (rel ++ [n]) with _ | ⟨content, time⟩ | time
  · rw [hlookup] at hmeet
    rw [h.dues_of_missing ht hlookup]
    exact takes_nil hmeet hnil
  · rw [hlookup] at hmeet
    exact Takes.congr hmeet ((hvisit content time hlookup).perm (h.dues_of_visited ht hlookup).symm)
  · rw [hlookup] at hmeet
    exact Takes.congr hmeet (henter (h.kept.dirs _ ⟨time, hlookup⟩))

theorem Roaming.result_walkIn (hdir : t.IsDir rel)
    (hcostume : FolderKind.ofName c.version (t.path rel).name ≠ .costume) (order : Order) (depth : Nat) :
    result (walkIn order (depth + 1) (t.path rel)) w = result (do
      (entriesOf order t w rel).forM (meet (walkIn order depth) (t.path rel))
      if FolderKind.ofName c.version (t.path rel).name = .room then leaveRoom) w := by
  have hlist : Gives (look (·.list (t.path rel))) w (w.files.childNames rel) w := gives_look.mpr ⟨h.kept.list ht hdir, rfl⟩
  rw [walkIn, result_get, h.version]
  rw [if_neg hcostume, hlist.result_bind]
  rfl

end

section

variable (hc : Settings c) (ht : t.Placed) (hin : Indoors t c colours palette rel) (hdir : t.IsDir rel)

include hc ht hin hdir

theorem InRoom.follows_meet (hn : ValidName n) (h : InRoom t c palette w)
    (henter : t.IsDir (rel ++ [n]) → Follows t c palette (dues t c colours (rel ++ [n])) (enter (t.path (rel ++ [n]))) w) :
    Follows t c palette (dues t c colours (rel ++ [n])) (meet enter (t.path rel) n) w := by
  refine h.takes_meet ht hdir hn h.advances_nil (fun content time hlookup => ?_) henter
  rw [hin.colours _ (prefix_append rel [n])]
  refine h.follows_visit hc.video hc.version (fun horiginal => ?_) fun hbinary hkind => ?_
  · rw [t.name_path] at horiginal
    exact ht.parts ((h.kept.agree.files rel n horiginal content time).mp hlookup)
  · rw [t.name_path] at hbinary hkind
    have horiginal : Original n := Or.inl hbinary
    have hfile := (h.kept.agree.files rel n horiginal content time).mp hlookup
    rw [h.kept.paletteAt ht horiginal hfile]
    exact hin.palettes rel n content time (prefix_append rel [n]) hfile hbinary hkind

theorem InRoom.follows_entries (order : Order) (h : InRoom t c palette w)
    (henter : ∀ n v, InRoom t c palette v → t.IsDir (rel ++ [n]) →
    Follows t c palette (dues t c colours (rel ++ [n])) (enter (t.path (rel ++ [n]))) v) :
    Follows t c palette (dues t c colours rel) ((entriesOf order t w rel).forM (meet enter (t.path rel))) w := by
  refine Takes.perm (h.follows_forM fun n hn v hv => ?_)
    (dues_of_folder h.kept ht hdir (h.nodup_entriesOf order) fun n => mem_entriesOf)
  exact hv.follows_meet hc ht hin hdir (h.valid_entriesOf hn) (henter n v hv)

theorem InRoom.follows_walk (order : Order) (hplain : FolderKind.ofName c.version (t.path rel).name = .other) (hdepth : Shallow t depth rel)
    (h : InRoom t c palette w) : Follows t c palette (dues t c colours rel) (walkIn order depth (t.path rel)) w := by
  induction depth generalizing rel w with
  | zero =>
    rw [dues_of_shallow ht hdir hdepth]
    exact takes_nil rfl h.advances_nil
  | succ depth ih =>
    have hwalk := h.result_walkIn ht hdir (by rw [hplain]; decide) order depth
    rw [if_neg (by rw [hplain]; decide), bind_pure_unit] at hwalk
    refine Takes.congr hwalk (h.follows_entries hc ht hin hdir order fun n v hv hfolder => ?_)
    exact ih (hin.below n) hfolder (hin.plain n [] hfolder) (hdepth.below n) hv

end

/-! ### Leaving a room -/

section

variable (hc : Settings c) (h : InRoom t c palette w) (hwaits : ∀ x ∈ later, Waits c palette x)
  (hvalid : ∀ x ∈ later, ∀ n ∈ x.path.parts, ValidName n)

include hc h hwaits hvalid

theorem InRoom.follows_queue : Follows t c palette later ((later.map Step.path).forM visit) w := by
  have hvisits : Follows t c palette (later.flatMap fun x => [x]) (later.forM fun x => visit x.path) w := by
    refine h.follows_forM fun x hx v hv => ?_
    obtain ⟨hstep, p, k, rfl, hcoloured⟩ := hwaits x hx
    have hvisit := hv.follows_visit hc.video hc.version (fun _ => hvalid _ hx) fun hbinary hkind => ?_
    · rw [hstep] at hvisit
      exact hvisit
    · simp [Step.ofFile, hbinary, hkind] at hstep
  have hmap : (later.map Step.path).forM visit = later.forM fun x => visit x.path := forM_map
  rw [flatMap_singleton'] at hvisits
  rwa [hmap]

theorem InRoom.clears_leaveRoom (hfound : w.crawl.found = true)
    (hqueue : queueOf w = later.map Step.path) : Clears t c later leaveRoom w := by
  obtain ⟨now, rest, hperm, hsame, hadvances⟩ := h.follows_queue hc hwaits hvalid
  let leave : Work Unit := do
    if (later.map Step.path).length < (← waiting).length then throw .endless
    modify fun w => { w with crawl := { w.crawl with queue := some [], found := false } }
  have hleave : result leaveRoom w = result (do (later.map Step.path).forM visit; leave) w := by
    rw [leaveRoom, (gives_waiting.mpr ⟨rfl, rfl⟩).result_bind, hqueue]
  refine Takes.congr hleave (takes_bind hperm hsame fun v hv => ?_)
  have hadv := hadvances v hv
  have hlength : ¬ (later.map Step.path).length < (queueOf v).length := by
    rw [hadv.queue, hadv.settled hfound, hqueue]
    simp
  have hafter : result leave v = (.ok (), { v with crawl := { v.crawl with queue := some [], found := false } }) := by
    rw [(gives_waiting.mpr ⟨rfl, rfl⟩).result_bind, if_neg hlength]
    rfl
  rw [hadv.settled hfound]
  refine ⟨[], [], .refl _, ?_, fun u hu => ?_⟩
  · rw [hafter]
    exact ⟨rfl, rfl⟩
  · obtain rfl := congrArg Prod.snd (hafter.symm.trans hu)
    have hroom := hadv.room
    exact ⟨rfl, ⟨hroom.kept, hroom.building, hroom.version, hroom.video, hroom.targets⟩, rfl, rfl⟩

end

end Rooms

end ScummKit
