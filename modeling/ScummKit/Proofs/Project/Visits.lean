import ScummKit.Project.Game
import ScummKit.Proofs.Project.Encoders

/-!
# Visits of a build

What a visit comes to depends on the form of the file and on its kind. Headers and edited files are
current after a successful visit, unless they have to wait for a palette. Nothing that was current is
lost, and a visit that sets no stamp leaves files and stamps as they are.
-/

namespace ScummKit.Site

open Work Asset

variable {s : Site} {e : Game.Edition} {front : List String} {name : String} {p : Path}
  {w w' : Workspace}
variable {u : Unit} {k : Kind} {palette : Palette}

/-! ### What a visit comes to -/

/-- The walk of a build. -/
structure Building (e : Game.Edition) (w : Workspace) : Prop where
  building : w.crawl.building = true
  version : w.crawl.version = e.version
  video : w.crawl.video = e.video
  targets : w.crawl.targets = Game.encodedKinds

theorem Building.result_visit (h : Building e w) : result (visit p) w = result (visitEncoding p) w := by
  rw [visit, result_get, h.building]
  rfl

theorem Building.result_header (h : Building e w) (hstatus : Status.ofName p.name = .header) :
    result (visit p) w = result (touch p) w := by
  rw [h.result_visit, visitEncoding]
  rw [if_pos hstatus, result_bind]
  rcases result (touch p) w with ⟨r, v⟩
  cases r with
  | error fault => rfl
  | ok u =>
    dsimp only
    rw [result_get, hstatus]
    split
    · rfl
    · rfl

theorem Building.result_palette (h : Building e w) (hstatus : Status.ofName p.name ≠ .header)
    (hkind : Kind.ofName? e.version p.name = some .palette) :
    result (visit p) w = result (encodePalette p (Status.ofName p.name)) w := by
  rw [h.result_visit, visitEncoding]
  rw [if_neg hstatus, result_get, h.version, if_pos hkind]

theorem Building.result_other (h : Building e w) (hheader : Status.ofName p.name ≠ .header)
    (hdecoded : Status.ofName p.name ≠ .decoded)
    (hkind : Kind.ofName? e.version p.name ≠ some .palette) : result (visit p) w = (.ok (), w) := by
  rw [h.result_visit, visitEncoding]
  rw [if_neg hheader, result_get, h.version, if_neg hkind, if_neg hdecoded]
  rfl

theorem mem_encodedKinds (k : Kind) : Game.encodedKinds.contains k.label = true ↔ k ≠ .other := by cases k <;> decide

theorem Building.gives_targets (h : Building e w) (k : Kind) :
    Gives (Work.targets (some k)) w (Game.encodedKinds.contains k.label) w := by
  rw [← h.targets]
  rfl

theorem Building.result_decoded (h : Building e w) (hstatus : Status.ofName p.name = .decoded)
    (hkind : Kind.ofName? e.version p.name = some k) (hpalette : k ≠ .palette) :
    result (visit p) w = if k = .other then (.ok (), w) else result (do if ← outdated p then encodeKind p k) w := by
  have hne : ¬ some k = some .palette := fun heq => hpalette (Option.some.inj heq)
  rw [h.result_visit, visitEncoding]
  rw [if_neg (by rw [hstatus]; decide), result_get, h.version, hkind, if_neg hne, if_pos hstatus, (h.gives_targets k).result_bind]
  split
  · rename_i hmem
    rw [if_neg ((mem_encodedKinds k).mp hmem)]
  · rename_i hmem
    rw [if_pos (by simpa using mt (mem_encodedKinds k).mpr hmem)]
    rfl

def waits (e : Game.Edition) (k : Kind) : Bool :=
  e.video = "vga" && (k = .image || k = .costume || (k = .zplane && e.version = "4"))

theorem result_withPalette (wait : Bool) (p : Path) (act : Palette → Work Unit) (w : Workspace) :
    result (withPalette wait p act) w = if wait then result (enqueue p) w else result (act w.crawl.palette) w := by
  cases wait with
  | true => rfl
  | false => exact result_get _ w

theorem Building.result_encodeKind (h : Building e w) (k : Kind) :
    result (encodeKind p k) w = if waits e k && !w.crawl.found then result (enqueue p) w
    else result (encoder e.version e.video w.crawl.palette p k) w := by
  have hneeds : Gives needsPalette w (decide (e.video = "vga") && !w.crawl.found) w := by
    rw [← h.video]
    rfl
  rw [encodeKind, result_get, hneeds.result_bind, h.version, h.video, waits]
  cases k with
  | script => simp [encoder]
  | box => simp [encoder]
  | scale => simp [encoder]
  | palette => simp [encoder]
  | other => simp [encoder]
  | image => simp [encoder, result_withPalette]
  | costume => simp [encoder, result_withPalette]
  | zplane => simp [encoder, result_withPalette, and_assoc, and_left_comm]

theorem Building.result_decodedPalette (h : Building e w) : result (encodePalette p .decoded) w = result (do
      if ← outdated p then foundPalette (← PaletteFile.encode e.version true p)
      else foundPalette (← PaletteFile.readPicture p)) w := by
  have htargets : Gives (Work.targets (some .palette)) w true w := h.gives_targets .palette
  rw [encodePalette, result_get]
  dsimp only
  rw [h.version, htargets.result_bind, if_pos rfl]

theorem Building.result_binaryPalette (h : Building e w) : result (encodePalette p .binary) w =
    if w.crawl.found || w.files.isFile (p.rename (Text.swap · ".dmp" ".png")) then (.ok (), w)
    else result (do foundPalette (← PaletteFile.read e.version p)) w := by
  rw [encodePalette, result_get]
  dsimp only
  rw [h.version]
  cases w.crawl.found with
  | true => rfl
  | false =>
    rw [if_pos (by rfl), result_ask]
    cases w.files.isFile (p.rename (Text.swap · ".dmp" ".png")) with
    | true => rfl
    | false => rfl

/-! ### The queue -/

def queueOf (w : Workspace) : List Path := w.crawl.queue.getD w.queue

theorem gives_enqueue (h : Gives (enqueue p) w u w') : queueOf w' = queueOf w ++ [p] ∧ w'.files = w.files ∧ w'.ledger = w.ledger
    ∧ w'.stamps = w.stamps ∧ w'.programs = w.programs ∧ (Building e w → Building e w') := by
  have hw := gives_modify.mp h
  cases hq : w.crawl.queue with
  | _ =>
    rw [hq] at hw
    subst hw
    refine ⟨by simp [queueOf, hq], rfl, rfl, rfl, rfl, ?_⟩
    exact fun h => ⟨h.building, h.version, h.video, h.targets⟩

/-! ### Going on -/

/-- A file of the tree that has to wait for a palette. -/
def Queued (s : Site) (e : Game.Edition) (p : Path) : Prop :=
  ∃ front name c time k, p = s.path (front ++ [name]) ∧ s.tree.lookup (s.src ++ (front ++ [name])) = some (.file c time)
    ∧ Status.ofName name = .decoded ∧ Kind.ofName? e.version name = some k ∧ waits e k = true

/-- A build that is under way. -/
structure Going (s : Site) (e : Game.Edition) (w : Workspace) : Prop where
  ready : s.Ready w
  building : Building e w
  queue : ∀ p ∈ queueOf w, s.Queued e p

/-- What happens as a build goes on. Without a stamp nothing happens to files and stamps. -/
structure Onward (s : Site) (e : Game.Edition) (w w' : Workspace) : Prop where
  going : s.Going e w'
  current : ∀ front name, Watched name → s.Current w (front ++ [name]) → s.Current w' (front ++ [name])
  waiting : ∀ front name, Watched name → s.path (front ++ [name]) ∈ queueOf w →
    s.path (front ++ [name]) ∈ queueOf w' ∨ s.Current w' (front ++ [name])
  changed : w.ledger.changed = true → w'.ledger.changed = true
  still : w'.ledger.changed = false → w'.files = w.files ∧ w'.ledger = w.ledger ∧ w'.stamps = w.stamps

theorem Going.onward (h : s.Going e w) : s.Onward e w w :=
  ⟨h, fun _ _ _ hc => hc, fun _ _ _ hq => Or.inl hq, id, fun _ => ⟨rfl, rfl, rfl⟩⟩

theorem Onward.trans {w'' : Workspace} (h : s.Onward e w w') (h' : s.Onward e w' w'') : s.Onward e w w'' := by
  refine ⟨h'.going, fun front name hw hc => h'.current front name hw (h.current front name hw hc), ?_,
    fun hc => h'.changed (h.changed hc), ?_⟩
  · intro front name hw hq
    rcases h.waiting front name hw hq with hq' | hc
    · exact h'.waiting front name hw hq'
    · exact Or.inr (h'.current front name hw hc)
  · intro hc
    have hc' : w'.ledger.changed = false := by
      by_contra hne
      rw [h'.changed (by simpa using hne)] at hc
      cases hc
    obtain ⟨k1, k2, k3⟩ := h'.still hc
    obtain ⟨h1, h2, h3⟩ := h.still hc'
    exact ⟨k1.trans h1, k2.trans h2, k3.trans h3⟩

theorem Gentle.onward (h : s.Going e w) (hg : s.Gentle w w') (hchanged : w'.ledger.changed = true) :
    s.Onward e w w' ∧ queueOf w' = queueOf w := by
  have hqueue : queueOf w' = queueOf w := by rw [queueOf, queueOf, hg.crawl, hg.queue]
  refine ⟨⟨⟨hg.ready, ?_, ?_⟩, hg.current, ?_, hg.changed, ?_⟩, hqueue⟩
  · have hb := h.building
    exact ⟨hg.crawl ▸ hb.building, hg.crawl ▸ hb.version, hg.crawl ▸ hb.video, hg.crawl ▸ hb.targets⟩
  · rw [hqueue]
    exact h.queue
  · intro front name _ hq
    rw [hqueue]
    exact Or.inl hq
  · intro hc
    rw [hchanged] at hc
    cases hc

theorem onward_of_crawl (h : s.Going e w) (hbuilding : Building e w')
    (hfiles : w'.files = w.files) (hledger : w'.ledger = w.ledger) (hstamps : w'.stamps = w.stamps)
    (hprograms : w'.programs = w.programs) (hkept : ∀ p ∈ queueOf w, p ∈ queueOf w') (hqueue : ∀ p ∈ queueOf w', s.Queued e p) :
    s.Onward e w w' := by
  obtain ⟨hready, hcurrent⟩ := h.ready.kept (hfiles ▸ h.ready.sound) (hfiles ▸ h.ready.agree) hledger hstamps hprograms
  refine ⟨⟨hready, hbuilding, hqueue⟩, hcurrent, fun front name _ hq => Or.inl (hkept _ hq), ?_, fun _ => ⟨hfiles, hledger, hstamps⟩⟩
  rw [hledger]
  exact id

theorem onward_foundPalette (h : s.Going e w)
    (hg : Gives (foundPalette palette) w u w') : s.Onward e w w' ∧ queueOf w' = queueOf w := by
  obtain rfl := gives_modify.mp hg
  have hb := h.building
  exact ⟨onward_of_crawl h ⟨hb.building, hb.version, hb.video, hb.targets⟩ rfl rfl rfl rfl (fun _ hq => hq) h.queue, rfl⟩

/-! ### Visits -/

/-- What a build needs to know of a tree: edited files have the names that decoders give them, and the
compiler leaves other edited files alone. -/
structure Workable (s : Site) (e : Game.Edition) : Prop where
  version : e.version = "4" ∨ e.version = "5"
  named : ∀ front name c time k, s.tree.lookup (s.src ++ (front ++ [name])) = some (.file c time) →
    Status.ofName name = .decoded → Kind.ofName? e.version name = some k → NamedFor c name k
  compiles : ∀ front name bs time, s.tree.lookup (s.src ++ (front ++ [name])) = some (.file (.data bs) time) →
    Status.ofName name = .decoded → Kind.ofName? e.version name = some .script →
    s.Spares (compile e.version (compiledPath e.version (s.path (front ++ [name]))))

def Wanted (e : Game.Edition) (name : String) : Prop := Status.ofName name = .header
  ∨ Status.ofName name = .decoded ∧ Kind.ofName? e.version name ≠ some .other

theorem wanted_of_decoded (hstatus : Status.ofName name = .decoded) (hkind : Kind.ofName? e.version name = some k)
    (hother : k ≠ .other) : Wanted e name :=
  Or.inr ⟨hstatus, fun heq => hother (Option.some.inj (hkind.symm.trans heq))⟩

/-- A palette that can be read from a picture of the tree. -/
def Readable (s : Site) (rel : List String) : Prop := ∃ pic time palette,
  s.tree.lookup (s.src ++ rel) = some (.file (.picture pic) time) ∧ PaletteFile.ofPicture pic = .ok palette

/-- What a successful visit of a file achieves: the file is current, or at the end of the queue. -/
structure Visited (s : Site) (e : Game.Edition) (w w' : Workspace) (front : List String) (name : String) : Prop where
  onward : s.Onward e w w'
  queue : ∃ extra, queueOf w' = queueOf w ++ extra
    ∧ (Wanted e name → s.Current w' (front ++ [name]) ∨ s.path (front ++ [name]) ∈ extra)
  palette : Status.ofName name = .decoded → Kind.ofName? e.version name = some .palette → s.Readable (front ++ [name])

theorem Ready.readable (h : s.Ready w) (hw : Watched name) (hfile : s.HasFile w (front ++ [name]))
    (hg : Gives (PaletteFile.readPicture (s.path (front ++ [name]))) w palette w') : s.Readable (front ++ [name]) := by
  obtain ⟨c, time, hlookup⟩ := hfile
  obtain ⟨pic, v, hlook, hg⟩ := gives_bind.mp hg
  obtain ⟨hpic, rfl⟩ := gives_look.mp hlook
  rw [FileTree.picture, FileTree.content, h.get hlookup] at hpic
  cases c with
  | data bs => cases hpic
  | picture pic' =>
    cases hpic
    exact ⟨pic, time, palette, (h.lookup_tree hw).mp hlookup, (gives_lift.mp hg).1⟩

theorem exists_kind (hversion : e.version = "4" ∨ e.version = "5") (name : String) :
    ∃ k, Kind.ofName? e.version name = some k := by
  rcases hversion with hv | hv
  · rw [hv]
    exact ⟨_, rfl⟩
  · rw [hv]
    exact ⟨_, rfl⟩

section Visit

variable (h : s.Going e w) (hg : Gives (visit (s.path (front ++ [name]))) w u w')

include h hg

theorem visited_header (hfile : s.HasFile w (front ++ [name])) (hstatus : Status.ofName name = .header) :
    s.Visited e w w' front name := by
  have hne : front ++ [name] ≠ [] := by simp
  obtain ⟨c, time, hlookup⟩ := hfile
  rw [Gives, h.building.result_header (by rwa [name_path])] at hg
  obtain ⟨news, v, hnews, hg⟩ := gives_bind.mp hg
  obtain rfl := (looks_outdated _).eq hnews
  have hother : Status.ofName name ≠ .decoded := by
    rw [hstatus]
    decide
  cases news with
  | true =>
    obtain ⟨hgentle, hcurrent, hchanged⟩ :=
      settles_stamp (h.ready.valid hlookup) w u w' h.ready ⟨c, time, hlookup⟩ hg
    obtain ⟨honward, hqueue⟩ := hgentle.onward h hchanged
    exact ⟨honward, ⟨[], by simpa using hqueue, fun _ => Or.inl hcurrent⟩, fun hd => absurd hd hother⟩
  | false =>
    obtain ⟨-, rfl⟩ := gives_pure.mp hg
    have hcurrent := ((h.ready.gives_outdated_iff hne hlookup).mp hnews).1
    exact ⟨h.onward, ⟨[], by simp, fun _ => Or.inl hcurrent⟩, fun hd => absurd hd hother⟩

section

variable (hs : s.Workable e) (hfile : s.HasFile w (front ++ [name])) (hstatus : Status.ofName name = .decoded)

include hs hfile hstatus

theorem visited_decodedPalette (hkind : Kind.ofName? e.version name = some .palette) : s.Visited e w w' front name := by
  have hw : Watched name := Or.inr hstatus
  obtain ⟨c, time, hlookup⟩ := hfile
  rw [Gives, h.building.result_palette (by rw [name_path, hstatus]; decide) (by rwa [name_path]),
    name_path, hstatus, h.building.result_decodedPalette] at hg
  obtain ⟨news, v, hnews, hg⟩ := gives_bind.mp hg
  obtain rfl := (looks_outdated _).eq hnews
  cases news with
  | true =>
    obtain ⟨palette, v, hencode, hg⟩ := gives_bind.mp hg
    have hends := hs.named front name c time _ ((h.ready.lookup_tree hw).mp hlookup) hstatus hkind
    obtain ⟨hgentle, hcurrent, hchanged⟩ := settles_palette hw (h.ready.valid hlookup) e.version hends
      w palette v h.ready ⟨c, time, hlookup⟩ hencode
    obtain ⟨honward, hqueue⟩ := hgentle.onward h hchanged
    obtain ⟨honward', hqueue'⟩ := onward_foundPalette honward.going hg
    obtain ⟨palette', _, hread, -⟩ := gives_bind.mp hencode
    refine ⟨honward.trans honward', ⟨[], by simp [hqueue, hqueue'], ?_⟩, fun _ _ => h.ready.readable hw ⟨c, time, hlookup⟩ hread⟩
    exact fun _ => Or.inl (honward'.current front name hw hcurrent)
  | false =>
    have hcurrent := ((h.ready.gives_outdated_iff (by simp) hlookup).mp hnews).1
    obtain ⟨palette, v, hread, hg⟩ := gives_bind.mp hg
    obtain rfl := (looks_readPicture _).eq hread
    obtain ⟨honward, hqueue⟩ := onward_foundPalette h hg
    refine ⟨honward, ⟨[], by simp [hqueue], ?_⟩, fun _ _ => h.ready.readable hw ⟨c, time, hlookup⟩ hread⟩
    exact fun _ => Or.inl (honward.current front name hw hcurrent)

theorem visited_decoded
    (hkind : Kind.ofName? e.version name = some k) (hpalette : k ≠ .palette) : s.Visited e w w' front name := by
  have hw : Watched name := Or.inr hstatus
  have hnot : Kind.ofName? e.version name ≠ some .palette := by
    rw [hkind]
    exact fun hk => hpalette (Option.some.inj hk)
  obtain ⟨c, time, hlookup⟩ := hfile
  have htree := (h.ready.lookup_tree hw).mp hlookup
  rw [Gives, h.building.result_decoded (by rwa [name_path]) (by rwa [name_path]) hpalette] at hg
  split at hg
  · rename_i hother
    cases hg
    refine ⟨h.onward, ⟨[], by simp, ?_⟩, fun _ hk => absurd hk hnot⟩
    rintro (hheader | ⟨-, hk⟩)
    · rw [hstatus] at hheader
      cases hheader
    · exact absurd (hother ▸ hkind) hk
  · rename_i hother
    obtain ⟨news, v, hnews, hg⟩ := gives_bind.mp hg
    obtain rfl := (looks_outdated _).eq hnews
    cases news with
    | false =>
      obtain ⟨-, rfl⟩ := gives_pure.mp hg
      have hcurrent := ((h.ready.gives_outdated_iff (by simp) hlookup).mp hnews).1
      exact ⟨h.onward, ⟨[], by simp, fun _ => Or.inl hcurrent⟩, fun _ hk => absurd hk hnot⟩
    | true =>
      rw [if_pos rfl, Gives, h.building.result_encodeKind] at hg
      split at hg
      · rename_i hwait
        obtain ⟨hqueue, hfiles, hledger, hstamps, hprograms, hbuilding⟩ := gives_enqueue hg
        refine ⟨onward_of_crawl h (hbuilding h.building) hfiles hledger hstamps hprograms ?_ ?_,
          ⟨_, hqueue, fun _ => Or.inr (List.mem_singleton.mpr rfl)⟩, fun _ hk => absurd hk hnot⟩
        · intro p hp
          rw [hqueue]
          exact List.mem_append_left _ hp
        · intro p hp
          rw [hqueue] at hp
          rcases List.mem_append.mp hp with hp | hp
          · exact h.queue p hp
          · rw [List.mem_singleton.mp hp]
            exact ⟨front, name, c, time, k, rfl, htree, hstatus, hkind, (Bool.and_eq_true_iff.mp hwait).1⟩
      · have hcompile : k = .script → (∃ bs, c = .data bs) →
            s.Calm (compile e.version (compiledPath e.version (s.path (front ++ [name])))) := by
          rintro rfl ⟨bs, rfl⟩
          exact (hs.compiles front name bs time htree hstatus hkind).calm (apart_compile _ _)
        obtain ⟨hgentle, hcurrent, hchanged⟩ := settles_encoder e.video w.crawl.palette hs.version hw
          htree (hs.named front name c time k htree hstatus hkind) hpalette hother hcompile
          w u w' h.ready ⟨c, time, hlookup⟩ hg
        obtain ⟨honward, hqueue⟩ := hgentle.onward h hchanged
        exact ⟨honward, ⟨[], by simp [hqueue], fun _ => Or.inl hcurrent⟩, fun _ hk => absurd hk hnot⟩

end

theorem visited_unwatched (hheader : Status.ofName name ≠ .header) (hdecoded : Status.ofName name ≠ .decoded) :
    s.Visited e w w' front name := by
  have hnot : Wanted e name → s.Current w' (front ++ [name]) ∨ s.path (front ++ [name]) ∈ [] := by
    rintro (hs | ⟨hs, -⟩)
    · exact absurd hs hheader
    · exact absurd hs hdecoded
  by_cases hkind : Kind.ofName? e.version name = some .palette
  · rw [Gives, h.building.result_palette (by rwa [name_path]) (by rwa [name_path]), name_path] at hg
    cases hstatus : Status.ofName name with
    | header => exact absurd hstatus hheader
    | decoded => exact absurd hstatus hdecoded
    | binary =>
      rw [hstatus, h.building.result_binaryPalette] at hg
      split at hg
      · cases hg
        exact ⟨h.onward, ⟨[], by simp, hnot⟩, fun hs => absurd hs hdecoded⟩
      · obtain ⟨palette, v, hread, hg⟩ := gives_bind.mp hg
        obtain rfl := (looks_readPalette _ _).eq hread
        obtain ⟨honward, hqueue⟩ := onward_foundPalette h hg
        exact ⟨honward, ⟨[], by simp [hqueue], hnot⟩, fun hs => absurd hs hdecoded⟩
    | ledger | other =>
      rw [hstatus] at hg
      cases hg
      exact ⟨h.onward, ⟨[], by simp, hnot⟩, fun hs => absurd hs hdecoded⟩
  · rw [Gives, h.building.result_other (by rwa [name_path]) (by rwa [name_path]) (by rwa [name_path])] at hg
    cases hg
    exact ⟨h.onward, ⟨[], by simp, hnot⟩, fun hs => absurd hs hdecoded⟩

theorem visited_file (hs : s.Workable e) (hfile : s.HasFile w (front ++ [name])) : s.Visited e w w' front name := by
  by_cases hheader : Status.ofName name = .header
  · exact visited_header h hg hfile hheader
  by_cases hdecoded : Status.ofName name = .decoded
  · obtain ⟨k, hkind⟩ := exists_kind hs.version name
    by_cases hpalette : k = .palette
    · exact visited_decodedPalette h hg hs hfile hdecoded (hpalette ▸ hkind)
    · exact visited_decoded h hg hs hfile hdecoded hkind hpalette
  · exact visited_unwatched h hg hheader hdecoded

end Visit

end ScummKit.Site
