import ScummKit.Proofs.Project.Walks

/-!
# Building twice

A build that succeeds leaves every header and every edited file current, and the stamps it stores are
read back as they were. So a build over the same files that starts from the stored stamps finds nothing
to do, whatever the order of its visits.
-/

namespace ScummKit

namespace Game

open Work

def packArguments (e : Edition) (source game : Path) : String := s!"-g {e.id} -i \"{source.text}\" -o {game.text} -p"

/-- Encodes what is outdated and packs the game, unless nothing has changed. -/
def pass (order : Order) (e : Edition) (source game : Path) : Work Unit := do
  walkIn order ((← get).files.entries.length + 1) source
  if !(← get).ledger.changed then say "Nothing to rebuild"
  else
    runPacker (packArguments e source game)
    saveStamps
    say s!"{e.id} successfully built in 0 seconds"

/-- Builds a game, with the entries of each folder in some order. -/
def buildIn (order : Order) (source game name : String) : Work Unit := do
  let e ← (edition name : Except Fault Edition)
  let source := (Path.ofText source).resolve
  isolated source do
    loadStamps
    startCrawl true e.version e.video encodedKinds
    pass order e source (Path.ofText game).resolve

theorem version_of_edition {name : String} {e : Edition} (h : edition name = .ok e) : e.version = "4" ∨ e.version = "5" := by
  have hmem : e ∈ editions := by
    rw [edition] at h
    split at h
    · rename_i hfind
      cases h
      exact List.mem_of_find?_eq_some hfind
    · cases h
  have hall : ∀ e ∈ editions, e.version = "4" ∨ e.version = "5" := by decide
  exact hall e hmem

end Game

namespace Site

open List Work Asset

variable {s : Site} {e : Game.Edition} {front rel : List String} {name : String} {w w' : Workspace}
variable {own : Option Json} {u : Unit} {files : FileTree} {x : Work Unit}

/-! ### Walks that find nothing to do -/

/-- No folder of costumes is on the way to a folder of the site. -/
def Free (s : Site) (e : Game.Edition) (rel : List String) : Prop := ¬ Passes e .costume (s.root.name :: rel)

/-- Some palette in the game's own form cannot be read. -/
def BadPalette (e : Game.Edition) (files : FileTree) : Prop :=
  ∃ p bs fault, Status.ofName p.name = .binary ∧ Kind.ofName? e.version p.name = some .palette ∧ files.bytes p = .ok bs
    ∧ PaletteFile.ofData e.version (bs.map fun b => (b.toNat : Int)) = .error fault

/-- A build that has nothing to do. -/
structure Idle (s : Site) (e : Game.Edition) (w : Workspace) : Prop where
  ready : s.Ready w
  files : w.files = s.tree
  building : Building e w
  queue : queueOf w = []
  current : ∀ front name, s.HasFile w (front ++ [name]) → s.Free e front → Wanted e name → s.Current w (front ++ [name])
  palette : ∀ front name, s.HasFile w (front ++ [name]) → s.Free e front →
    Status.ofName name = .decoded → Kind.ofName? e.version name = some .palette →
    s.Readable (front ++ [name])

/-- Two workspaces that only a walk tells apart. -/
def Same (e : Game.Edition) (w w' : Workspace) : Prop :=
  w' = { w with crawl := w'.crawl } ∧ Building e w' ∧ queueOf w' = []

theorem Idle.same (h : s.Idle e w) : Same e w w := ⟨rfl, h.building, h.queue⟩

theorem Same.trans {w'' : Workspace} (h : Same e w w') (h' : Same e w' w'') : Same e w w'' := by
  refine ⟨?_, h'.2⟩
  rw [h'.1, h.1]

theorem Idle.of_same (h : s.Idle e w) (hsame : Same e w w') : s.Idle e w' := by
  obtain ⟨hw, hbuilding, hqueue⟩ := hsame
  rw [hw] at hbuilding hqueue ⊢
  have hr := h.ready
  refine ⟨⟨hr.root, hr.programs, hr.sound, hr.agree, hr.tidy, hr.noted⟩, h.files, hbuilding, hqueue, ?_, h.palette⟩
  exact fun front name hfile hfree hwanted => h.current front name hfile hfree hwanted

/-- Work that does nothing but walk, and fails only at a palette that cannot be read. -/
def Rests (s : Site) (e : Game.Edition) (x : Work Unit) (w : Workspace) : Prop :=
  ∃ r w', result x w = (r, w') ∧ Same e w w' ∧ (r = .ok () ∨ BadPalette e s.tree)

theorem rests_of_gives (hg : Gives x w () w') (hsame : Same e w w') : s.Rests e x w := ⟨_, w', hg, hsame, Or.inl rfl⟩

theorem rests_bind {f : Unit → Work Unit} (hx : s.Rests e x w)
    (hf : ∀ v, Same e w v → s.Rests e (f ()) v) : s.Rests e (x >>= f) w := by
  obtain ⟨r, v, hr, hsame, hgood⟩ := hx
  cases r with
  | error fault =>
    refine ⟨.error fault, v, ?_, hsame, hgood⟩
    rw [result_bind, hr]
  | ok u =>
    obtain ⟨r', v', hr', hsame', hgood'⟩ := hf v hsame
    refine ⟨r', v', ?_, hsame.trans hsame', hgood'⟩
    rw [result_bind, hr]
    exact hr'

theorem rests_forM {f : α → Work PUnit} {xs : List α} (h : s.Idle e w)
    (hf : ∀ x ∈ xs, ∀ v, s.Idle e v → s.Rests e (f x) v) : s.Rests e (xs.forM f) w := by
  induction xs generalizing w with
  | nil => exact rests_of_gives (gives_forM_nil.mpr rfl) h.same
  | cons x xs ih =>
    apply rests_bind (hf x mem_cons_self w h)
    intro v hsame
    exact ih (h.of_same hsame) fun y hy => hf y (mem_cons_of_mem x hy)

theorem rests_of_result {x y : Work Unit} (heq : result x w = result y w) (hy : s.Rests e y w) : s.Rests e x w := by
  rw [Rests, heq]
  exact hy

section

variable (h : s.Idle e w)

include h

theorem rests_foundPalette (palette : Palette) : s.Rests e (foundPalette palette) w := by
  refine rests_of_gives (gives_modify.mpr rfl) ⟨rfl, ?_, h.queue⟩
  have hb := h.building
  exact ⟨hb.building, hb.version, hb.video, hb.targets⟩

theorem rests_of_not_outdated {p : Path} (hg : Gives (outdated p) w false w) (x : Work Unit) : s.Rests e (do if ← outdated p then x) w := by
  refine rests_of_gives ?_ h.same
  rw [gives_bind]
  exact ⟨false, w, hg, gives_pure.mpr ⟨rfl, rfl⟩⟩

theorem rests_leaveRoom : s.Rests e leaveRoom w := by
  have hb := h.building
  have hwaiting : Gives Work.waiting w [] w := gives_waiting.mpr ⟨h.queue, rfl⟩
  have hnone : Gives ([].forM visit) w () w := gives_forM_nil.mpr rfl
  have hgives : Gives leaveRoom w () { w with crawl := { w.crawl with queue := some [], found := false } } := by
    rw [leaveRoom, Gives, hwaiting.result_bind, hnone.result_bind, hwaiting.result_bind]
    rfl
  exact rests_of_gives hgives ⟨rfl, ⟨hb.building, hb.version, hb.video, hb.targets⟩, rfl⟩

variable (hfile : s.HasFile w (front ++ [name]))

include hfile

theorem rests_binaryPalette (hstatus : Status.ofName name = .binary) (hkind : Kind.ofName? e.version name = some .palette) :
    s.Rests e (encodePalette (s.path (front ++ [name])) .binary) w := by
  obtain ⟨c, time, hlookup⟩ := hfile
  have hbytes : ∃ bs, w.files.bytes (s.path (front ++ [name])) = .ok bs := by
    rw [FileTree.bytes, FileTree.content, h.ready.get hlookup]
    cases c with
    | data bs => exact ⟨bs, rfl⟩
    | picture pic => exact ⟨_, rfl⟩
  obtain ⟨bs, hbytes⟩ := hbytes
  have hread : Gives (octets (s.path (front ++ [name]))) w (bs.map fun b => b.toNat) w := by
    rw [octets, gives_bind]
    exact ⟨bs, w, gives_look.mpr ⟨hbytes, rfl⟩, gives_pure.mpr ⟨rfl, rfl⟩⟩
  rw [Rests, h.building.result_binaryPalette]
  split
  · exact ⟨_, w, rfl, h.same, Or.inl rfl⟩
  · cases hdata : PaletteFile.ofData e.version (bs.map fun b => b.toNat) with
    | error fault =>
      refine ⟨.error fault, w, ?_, h.same, Or.inr ⟨s.path (front ++ [name]), bs, fault, ?_⟩⟩
      · rw [result_bind, PaletteFile.read, hread.result_bind, result_lift, hdata]
      · rw [name_path]
        exact ⟨hstatus, hkind, h.files ▸ hbytes, hdata⟩
    | ok palette =>
      have hgives : Gives (PaletteFile.read e.version (s.path (front ++ [name]))) w palette w := by
        rw [PaletteFile.read, gives_bind]
        exact ⟨_, w, hread, gives_lift.mpr ⟨hdata, rfl⟩⟩
      rw [hgives.result_bind]
      exact rests_foundPalette h palette

theorem rests_decodedPalette (hfree : s.Free e front) (hstatus : Status.ofName name = .decoded)
    (hkind : Kind.ofName? e.version name = some .palette) : s.Rests e (encodePalette (s.path (front ++ [name])) .decoded) w := by
  have hw : Watched name := Or.inr hstatus
  have hwanted : Wanted e name := wanted_of_decoded hstatus hkind (by decide)
  have hout := h.ready.gives_outdated (by simp) (h.current front name hfile hfree hwanted)
  obtain ⟨pic, time, palette, htree, hpalette⟩ := h.palette front name hfile hfree hstatus hkind
  have hpicture : w.files.picture (s.path (front ++ [name])) = .ok pic := by
    rw [FileTree.picture, FileTree.content, h.ready.get ((h.ready.lookup_tree hw).mpr htree)]
    rfl
  have hread : Gives (PaletteFile.readPicture (s.path (front ++ [name]))) w palette w := by
    rw [PaletteFile.readPicture, gives_bind]
    exact ⟨pic, w, gives_look.mpr ⟨hpicture, rfl⟩, gives_lift.mpr ⟨hpalette, rfl⟩⟩
  rw [Rests, h.building.result_decodedPalette, hout.result_bind, if_neg (by decide), hread.result_bind]
  exact rests_foundPalette h palette

theorem rests_visit (hversion : e.version = "4" ∨ e.version = "5") (hfree : s.Free e front) : s.Rests e (visit (s.path (front ++ [name]))) w := by
  have hout : Wanted e name → Gives (outdated (s.path (front ++ [name]))) w false w :=
    fun hwanted => h.ready.gives_outdated (by simp) (h.current front name hfile hfree hwanted)
  have hb := h.building
  by_cases hheader : Status.ofName name = .header
  · apply rests_of_result (hb.result_header (by rwa [name_path]))
    exact rests_of_not_outdated h (hout (Or.inl hheader)) _
  obtain ⟨k, hkind⟩ := exists_kind hversion name
  by_cases hpalette : k = .palette
  · subst hpalette
    apply rests_of_result (hb.result_palette (by rwa [name_path]) (by rwa [name_path]))
    rw [name_path]
    cases hstatus : Status.ofName name with
    | header => exact absurd hstatus hheader
    | decoded => exact rests_decodedPalette h hfile hfree hstatus hkind
    | binary => exact rests_binaryPalette h hfile hstatus hkind
    | ledger | other => exact rests_of_gives rfl h.same
  · by_cases hdecoded : Status.ofName name = .decoded
    · rw [Rests, hb.result_decoded (by rwa [name_path]) (by rwa [name_path]) hpalette]
      split
      · exact ⟨_, w, rfl, h.same, Or.inl rfl⟩
      · rename_i hother
        exact rests_of_not_outdated h (hout (wanted_of_decoded hdecoded hkind hother)) _
    · have hne : Kind.ofName? e.version name ≠ some .palette := by
        rw [hkind]
        exact fun heq => hpalette (Option.some.inj heq)
      refine rests_of_gives ?_ h.same
      rw [Gives, hb.result_other (by rwa [name_path]) (by rwa [name_path]) (by rwa [name_path])]

end

theorem rests_walkIn (hversion : e.version = "4" ∨ e.version = "5") (order : Order) (depth : Nat)
    (hdir : s.tree.IsDir (s.src ++ rel)) (hfree : FolderKind.ofName e.version (s.path rel).name ≠ .costume → s.Free e rel)
    (h : s.Idle e w) : s.Rests e (walkIn order depth (s.path rel)) w := by
  induction depth generalizing rel w with
  | zero => exact rests_of_gives rfl h.same
  | succ depth ih =>
    have hrel : ∀ n ∈ rel, ValidName n := by
      obtain ⟨time, htime⟩ := hdir
      exact fun n hn => s.sound.valid htime n (mem_append_right _ hn)
    rw [Rests, walkIn, result_get, h.building.version]
    dsimp only
    split
    · exact ⟨_, w, rfl, h.same, Or.inl rfl⟩
    · rename_i hkind
      have hlist : Gives (look (·.list (s.path rel))) w (s.tree.childNames (s.src ++ rel)) w := by
        refine gives_look.mpr ⟨?_, rfl⟩
        rw [h.files]
        exact FileTree.list_eq s.sound (s.dots hrel) hdir
      rw [hlist.result_bind]
      apply rests_bind
      · apply rests_forM h
        intro n hn v hv
        have hmem := (order.perm (s.path rel) _).mem_iff.mp hn
        obtain ⟨node, hnode⟩ := FileTree.mem_childNames.mp hmem
        rw [append_assoc] at hnode
        have hrel' : ∀ m ∈ rel ++ [n], ValidName m := fun m hm =>
          s.sound.valid hnode m (mem_append_right _ hm)
        have hget : v.files.get? (s.path (rel ++ [n])) = some node := by
          rw [hv.ready.get? hrel', hv.files, hnode]
        rw [Rests, result_meet, join_path rel (hrel' n (by simp)), hget]
        cases node with
        | folder time =>
          apply ih ⟨time, hnode⟩ _ hv
          rintro hn' ⟨m, hm, hcostume⟩
          rw [name_path] at hn'
          rcases mem_cons.mp hm with rfl | hm
          · exact hfree hkind ⟨_, mem_cons_self, hcostume⟩
          · rcases mem_append.mp hm with hm | hm
            · exact hfree hkind ⟨m, mem_cons_of_mem _ hm, hcostume⟩
            · exact hn' (mem_singleton.mp hm ▸ hcostume)
        | file c time => exact rests_visit hv ⟨c, time, by rw [hv.files, hnode]⟩ hversion (hfree hkind)
      · intro v hsame
        split
        · exact rests_leaveRoom (h.of_same hsame)
        · exact rests_of_gives rfl (h.of_same hsame).same

/-! ### Stored stamps -/

def ledgerFile (s : Site) : Path := s.path ["timestamps.json"]

theorem valid_ledgerFile : ∀ n ∈ ["timestamps.json"], ValidName n := by decide

theorem root_eq (s : Site) : s.root = s.path [] := by simp [root, path]

theorem join_ledgerFile (s : Site) : s.root.join "timestamps.json" = s.ledgerFile := by
  rw [root_eq, join_path [] (by decide)]
  rfl

def stored (files : FileTree) (p : Path) : Except Fault (Option Json) :=
  if files.has p then do return some (← Json.parse (← files.text p)) else .ok none

theorem result_loadStamps (h : w.ledger.root = s.root) (hown : w.ledger.own = none) :
    result loadStamps w = match stored w.files s.ledgerFile with
      | .ok own => (.ok (), { w with ledger := { w.ledger with own } })
      | .error fault => (.error fault, w) := by
  have hfile : Gives stampFile w s.ledgerFile w := by
    rw [← s.join_ledgerFile, ← h]
    rfl
  rw [loadStamps, hfile.result_bind, result_ask, stored]
  cases w.files.has s.ledgerFile with
  | false =>
    rw [← hown]
    rfl
  | true =>
    rw [if_pos rfl, if_pos rfl, document, result_bind, result_bind, text, result_look]
    cases w.files.text s.ledgerFile with
    | error fault => rfl
    | ok t =>
      dsimp only
      rw [result_lift]
      cases hparse : Json.parse t with
      | error fault => simp only [Bind.bind, Except.bind, hparse]
      | ok table =>
        simp only [Bind.bind, Except.bind, hparse]
        rfl

/-- A table that gives the same answers about stamps. -/
def Restores (t t' : Json) : Prop := t'.Tidy ∧ ∀ fields name v, t = .record fields →
  Table.find? name fields = some v → ∃ fields' v', t' = .record fields' ∧ Table.find? name fields' = some v' ∧ v.Alike v'

theorem later_alike (time : Int) {v v' : Json} (h : v.Alike v') : later (stampOf time) v' = later (stampOf time) v := by
  cases v with
  | real x =>
    cases v' with
    | real y =>
      have hden : 0 < (⟨decide (time < 0), time.natAbs, 0⟩ : Decimal).ratio.den :=
        Decimal.ratio_den_pos _
      exact congrArg Except.ok (Decimal.less_ratio_congr h hden).symm
    | _ => cases h
  | list items =>
    cases v' with
    | list items' => rfl
    | _ => cases h
  | record fields =>
    cases v' with
    | record fields' => rfl
    | _ => cases h
  | _ => cases h; rfl

theorem find?_alike {fields gs : List (String × Json)}
    (h : List.Forall₂ (fun f g => f.1 = g.1 ∧ f.2.Alike g.2) fields gs) {name : String} {v : Json}
    (hfind : Table.find? name fields = some v) : ∃ v', Table.find? name gs = some v' ∧ v.Alike v' := by
  induction h with
  | nil => cases hfind
  | @cons f g fields gs hfg _ ih =>
    obtain ⟨key', y⟩ := g
    obtain ⟨rfl, halike⟩ := hfg
    rw [Table.find?] at hfind ⊢
    split at hfind
    · rename_i hkey
      cases hfind
      exact ⟨y, if_pos hkey, halike⟩
    · rename_i hkey
      obtain ⟨v', hv', halike'⟩ := ih hfind
      exact ⟨v', (if_neg hkey).trans hv', halike'⟩

theorem restores_self {t : Json} (h : t.Tidy) : Restores t t :=
  ⟨h, fun fields _ v ht hfind => ⟨fields, v, ht, hfind, by cases v <;> simp [Json.Alike]⟩⟩

theorem stored_of_lookup (hsound : files.Sound) (hbase : files.base = s.tree.base)
    {fields : List (String × Json)} (htidy : (Json.record fields).Tidy) {time : Int}
    (hfile : files.lookup (s.src ++ ["timestamps.json"])
    = some (.file (.data (Text.toUtf8 (Json.pretty 0 (.record fields)))) time)) :
    ∃ gs, stored files s.ledgerFile = .ok (some (.record gs)) ∧ Restores (.record fields) (.record gs) := by
  obtain ⟨gs, hparse, halike⟩ := Json.parse_pretty_record 0 htidy
  have hget : files.get s.ledgerFile = .ok (.file (.data (Text.toUtf8 (Json.pretty 0 (.record fields)))) time) := by
    have hdots := s.dots valid_ledgerFile
    rw [ledgerFile, path]
    rw [← hbase] at hdots ⊢
    exact FileTree.get_of_lookup hsound hdots hfile
  have htext : files.text s.ledgerFile = .ok (Json.pretty 0 (.record fields)) := by
    rw [FileTree.text, FileTree.bytes, FileTree.content, hget]
    have hclean : Json.Clean (Json.pretty 0 (.record fields)).toList := Json.clean_layout 0 0 _
    simp only [Bind.bind, Except.bind, Text.ofUtf8_toUtf8]
    rw [Text.unixLines_of_clean hclean, String.ofList_toList]
    rfl
  refine ⟨gs, ?_, ?_, ?_⟩
  · rw [stored, FileTree.has, FileTree.get?, hget, htext]
    simp only [Bind.bind, Except.bind, hparse]
    rfl
  · have hkeys : fields.map Prod.fst = gs.map Prod.fst := by
      clear hparse hfile hget htext htidy
      induction halike with
      | nil => rfl
      | cons hfg _ ih => rw [map_cons, map_cons, hfg.1, ih]
    rw [Json.Tidy] at htidy ⊢
    rwa [← hkeys]
  · rintro _ name v ⟨⟩ hfind
    obtain ⟨v', hv', halike'⟩ := find?_alike halike hfind
    exact ⟨gs, v', rfl, hv', halike'⟩

/-! ### The first build -/

/-- A workspace of which nothing was asked yet. -/
structure Fresh (w : Workspace) : Prop where
  stamps : w.stamps = .record []
  queue : w.queue = []

/-- A tree as it is taken apart: edited files have the names that decoders give them, and pictures that
wait for a palette lie in the folder of a room. -/
structure Decompiled (s : Site) (e : Game.Edition) : Prop where
  folder : s.tree.IsDir s.src
  named : ∀ front name c time k, s.tree.lookup (s.src ++ (front ++ [name])) = some (.file c time) →
    Status.ofName name = .decoded → Kind.ofName? e.version name = some k → NamedFor c name k
  housed : ∀ front name c time k, s.tree.lookup (s.src ++ (front ++ [name])) = some (.file c time) →
    Status.ofName name = .decoded → Kind.ofName? e.version name = some k → waits e k = true →
    Passes e .room (s.root.name :: front)

/-- Programs that leave edited files and headers alone. -/
structure Harmless (s : Site) (e : Game.Edition) (arguments : String) : Prop where
  compiler : ∀ front name bs time, s.tree.lookup (s.src ++ (front ++ [name])) = some (.file (.data bs) time) →
    Status.ofName name = .decoded → Kind.ofName? e.version name = some .script →
    s.Spares (compile e.version (compiledPath e.version (s.path (front ++ [name]))))
  packer : s.Spares (runPacker arguments)

theorem harmless_of_fixed (hs : s.Decompiled e) (hversion : e.version = "4" ∨ e.version = "5")
    (hown : s.programs.own = false) (arguments : String) : s.Harmless e arguments := by
  refine ⟨fun front name bs time hfile hstatus hkind => ?_, spares_runPacker hown arguments⟩
  obtain ⟨hname, hunknown⟩ := (hs.named front name _ time _ hfile hstatus hkind).resolve_left fun ⟨pic, hpic⟩ => nomatch hpic
  exact spares_compile hown _ (output_compiledPath hversion ⟨(s.sound.valid hfile name (by simp)).2.2.2, hname⟩ hunknown)

/-- Every header and every edited file that a walk reaches is current. -/
def AllCurrent (s : Site) (e : Game.Edition) (w : Workspace) : Prop := ∀ front name c time,
  s.tree.lookup (s.src ++ (front ++ [name])) = some (.file c time) → s.Free e front →
  Wanted e name → s.Current w (front ++ [name])

theorem Gentle.allCurrent (hg : s.Gentle w w') (h : s.AllCurrent e w) : s.AllCurrent e w' :=
  fun front name c time hfile hfree hwanted =>
    hg.current front name hwanted.watched (h front name c time hfile hfree hwanted)

/-- The palettes that a walk reaches can be read. -/
def AllReadable (s : Site) (e : Game.Edition) : Prop := ∀ front name c time,
  s.tree.lookup (s.src ++ (front ++ [name])) = some (.file c time) → s.Free e front →
  Status.ofName name = .decoded → Kind.ofName? e.version name = some .palette →
  s.Readable (front ++ [name])

theorem allCurrent_of_walk (hs : s.Workable e) (hd : s.Decompiled e) (order : Order) {depth : Nat}
    (hdepth : s.tree.entries.length < depth) (h : s.Going e w) (hg : Gives (walkIn order depth s.root) w u w') :
    s.Onward e w w' ∧ s.AllCurrent e w' ∧ s.AllReadable e := by
  rw [root_eq] at hg
  obtain ⟨honward, hcovers⟩ :=
    covers_walkIn hs order depth [] w u w' (fun _ hn => absurd hn not_mem_nil) h hg
  have hcovered : ∀ front name c time, s.tree.lookup (s.src ++ (front ++ [name])) = some (.file c time) → s.Free e front →
      s.Covered e w' [] (s.root.name :: front) front name := by
    intro front name c time hfile hfree
    have hlength := s.sound.length_le hfile
    rw [length_append, length_append] at hlength
    rw [root_eq]
    apply hcovers front name (by omega) ⟨⟨c, time, hfile⟩, ?_⟩
    · rw [← root_eq]
      exact fun hcostume => hfree ⟨_, mem_cons_self, hcostume⟩
    · rintro ⟨n, hn, hcostume⟩
      exact hfree ⟨n, mem_cons_of_mem _ hn, hcostume⟩
  refine ⟨honward, ?_, ?_⟩
  · intro front name c time hfile hfree hwanted
    have hcov := hcovered front name c time hfile hfree
    rcases hcov.settled.done hwanted with hcurrent | hwaiting
    · exact hcurrent
    · -- a file that still waits would lie in a room, and none waits behind a room
      obtain ⟨front', name', c', time', k, hpath, hfile', hstatus, hkind, hwaits⟩ :=
        honward.going.queue _ hwaiting
      obtain ⟨hfront, hname⟩ := append_inj' (path_inj hpath) rfl
      subst hfront
      exact hcov.room (hd.housed _ _ c' time' k hfile' hstatus hkind hwaits) hwanted
  · intro front name c time hfile hfree hstatus hkind
    exact (hcovered front name c time hfile hfree).settled.palette hstatus hkind

/-! ### Building twice -/

def begun (e : Game.Edition) (root : Path) (own : Option Json) (w : Workspace) : Workspace :=
  { w with
    ledger := ⟨root, own, false⟩
    crawl := ⟨true, e.version, e.video, Game.encodedKinds, [], false, none⟩ }

theorem result_buildIn {source game : String} (order : Order) (he : Game.edition name = .ok e)
    (hsource : (Path.ofText source).resolve = s.root) (w : Workspace) :
    result (Game.buildIn order source game name) w = match stored w.files s.ledgerFile with
      | .ok own => let r := result (Game.pass order e s.root (Path.ofText game).resolve) (begun e s.root own w)
        (r.1, { r.2 with ledger := w.ledger, crawl := w.crawl })
      | .error fault => (.error fault, w) := by
  have hload := result_loadStamps (w := { w with ledger := ⟨s.root, none, false⟩ }) rfl rfl
  rw [Game.buildIn, he, hsource]
  change (let r := result (loadStamps >>= _) { w with ledger := ⟨s.root, none, false⟩ }
    (r.1, { r.2 with ledger := w.ledger, crawl := w.crawl })) = _
  rw [result_bind, hload]
  cases stored w.files s.ledgerFile with
  | ok own => rfl
  | error fault => rfl

theorem tidy_stored {p : Path} (h : stored files p = .ok own) : (own.getD (.record [])).Tidy := by
  rw [stored] at h
  split at h
  · cases htext : files.text p with
    | error fault =>
      rw [htext] at h
      cases h
    | ok t =>
      cases hparse : Json.parse t with
      | error fault =>
        simp only [htext, Bind.bind, Except.bind, hparse] at h
        cases h
      | ok j =>
        simp only [htext, Bind.bind, Except.bind, hparse] at h
        cases h
        exact Json.tidy_parse hparse
  · cases h
    exact nodup_nil

theorem going_begun (hfresh : Fresh w) (hfiles : w.files = s.tree)
    (hprograms : w.programs = s.programs) (hown : (own.getD (.record [])).Tidy) : s.Going e (begun e s.root own w) := by
  refine ⟨⟨rfl, hprograms, ?_, ?_, ?_, ?_⟩, ⟨rfl, rfl, rfl, rfl⟩, ?_⟩
  · exact hfiles ▸ s.sound
  · exact hfiles ▸ FileTree.Agree.refl w.files
  · change (own.getD w.stamps).Tidy
    rwa [hfresh.stamps]
  · intro hc
    cases hc
  · intro p hp
    have hempty : queueOf (begun e s.root own w) = [] := hfresh.queue
    rw [hempty] at hp
    exact absurd hp not_mem_nil

/-- What a first build leaves behind. -/
structure Built (s : Site) (e : Game.Edition) (w : Workspace) : Prop where
  sound : w.files.Sound
  agree : FileTree.Agree Watched s.tree w.files
  current : s.AllCurrent e w
  readable : s.AllReadable e
  stored : ∃ own, stored w.files s.ledgerFile = .ok own ∧ Restores (table w) (own.getD (.record []))

theorem stored_of_saveStamps (h : s.Ready w) (hchanged : w.ledger.changed = true)
    (hg : Gives saveStamps w u w') : s.Gentle w w' ∧ ∃ own,
    Site.stored w'.files s.ledgerFile = .ok own ∧ Restores (table w') (own.getD (.record [])) := by
  obtain ⟨fields, hfields⟩ := h.noted hchanged
  have hfile : Gives stampFile w s.ledgerFile w := by
    rw [← s.join_ledgerFile, ← h.root]
    rfl
  have hstamps : Gives stamps w (table w) w := gives_stamps.mpr ⟨rfl, rfl⟩
  rw [saveStamps, Gives, hfile.result_bind, hstamps.result_bind, hfields] at hg
  have hout : Output s.ledgerFile.name := by
    rw [ledgerFile, ← nil_append ["timestamps.json"], name_path]
    exact ⟨by decide, by decide⟩
  have hgentle := calm_writeBytes hout _ w u w' h hg
  refine ⟨hgentle, ?_⟩
  obtain ⟨files, hwrite, rfl⟩ := gives_change.mp hg
  have hlookup : ∃ time, files.lookup (s.src ++ ["timestamps.json"])
      = some (.file (.data (Text.toUtf8 (Json.pretty 0 (.record fields)))) time) := by
    have hdots := s.dots valid_ledgerFile
    rw [ledgerFile, path] at hwrite
    rw [← h.base] at hdots hwrite
    exact FileTree.lookup_of_write hdots hwrite
  obtain ⟨time, hlookup⟩ := hlookup
  have htidy : (Json.record fields).Tidy := hfields ▸ h.tidy
  obtain ⟨gs, hstored, hrestores⟩ := stored_of_lookup hgentle.ready.sound hgentle.ready.base htidy hlookup
  refine ⟨_, hstored, ?_⟩
  have htable : table { w with files } = .record fields := hfields
  rw [htable]
  exact hrestores

theorem built_of_pass {order : Order} {game : Path} (hs : s.Decompiled e) (hversion : e.version = "4" ∨ e.version = "5")
    (hharmless : s.Harmless e (Game.packArguments e s.root game)) (hfresh : Fresh w)
    (hfiles : w.files = s.tree) (hprograms : w.programs = s.programs) (hown : Site.stored s.tree s.ledgerFile = .ok own)
    (hg : Gives (Game.pass order e s.root game) (begun e s.root own w) u w') : s.Built e w' := by
  have hworkable : s.Workable e := ⟨hversion, hs.named, hharmless.compiler⟩
  have htidy := tidy_stored hown
  have hgoing : s.Going e (begun e s.root own w) := going_begun hfresh hfiles hprograms htidy
  rw [Game.pass, Gives, result_get] at hg
  obtain ⟨_, v, hwalk, hg⟩ := gives_bind.mp hg
  obtain ⟨honward, hcurrent, hreadable⟩ := allCurrent_of_walk hworkable hs order
    (by rw [← hfiles]; exact Nat.lt_succ_self _) hgoing hwalk
  have hready := honward.going.ready
  rw [Gives, result_get] at hg
  split at hg
  · rename_i hunchanged
    have hstill : v.ledger.changed = false := by simpa using hunchanged
    obtain ⟨hvfiles, hvledger, hvstamps⟩ := honward.still hstill
    have htree : v.files = s.tree := hvfiles.trans hfiles
    have hgentle := calm_say _ v u w' hready hg
    obtain rfl := gives_say.mp hg
    refine ⟨hready.sound, hready.agree, hgentle.allCurrent hcurrent, hreadable, own, ?_, ?_⟩
    · rw [← hown, ← htree]
    · have htable : table v = own.getD (.record []) := by
        rw [table, hvledger, hvstamps]
        change own.getD w.stamps = _
        rw [hfresh.stamps]
      change Restores (table v) _
      rw [htable]
      exact restores_self htidy
  · rename_i hnews
    have hchanged : v.ledger.changed = true := by simpa using hnews
    obtain ⟨_, v₁, hpack, hg⟩ := gives_bind.mp hg
    have hg₁ := hharmless.packer.calm (apart_runPacker _) v _ v₁ hready hpack
    obtain ⟨_, v₂, hsave, hg⟩ := gives_bind.mp hg
    obtain ⟨hg₂, own', hstored, hrestores⟩ :=
      stored_of_saveStamps hg₁.ready (hg₁.changed hchanged) hsave
    have hg₃ := calm_say _ v₂ u w' hg₂.ready hg
    obtain rfl := gives_say.mp hg
    exact ⟨hg₂.ready.sound, hg₂.ready.agree, ((hg₁.trans hg₂).trans hg₃).allCurrent hcurrent, hreadable, own', hstored, hrestores⟩

def after (s : Site) (h : s.Built e w) (programs : Programs) : Site where
  tree := w.files
  src := s.src
  programs := programs
  sound := h.sound
  valid := h.agree.base.symm ▸ s.valid

theorem root_after (h : s.Built e w) (programs : Programs) : (s.after h programs).root = s.root := by
  rw [root_eq, path, after, h.agree.base, ← path, ← root_eq]

theorem idle_begun (h : s.Built e w) {w₂ : Workspace} (hfresh : Fresh w₂) (hfiles : w₂.files = w.files)
    (hown : Restores (table w) (own.getD (.record []))) :
    (s.after h w₂.programs).Idle e (begun e (s.after h w₂.programs).root own w₂) := by
  have hgoing : (s.after h w₂.programs).Going e (begun e (s.after h w₂.programs).root own w₂) :=
    going_begun hfresh hfiles rfl hown.1
  have hlookup : ∀ {front name c time}, Watched name → w₂.files.lookup (s.src ++ (front ++ [name])) = some (.file c time) →
      s.tree.lookup (s.src ++ (front ++ [name])) = some (.file c time) := by
    intro front name c time hw hfile
    rw [hfiles, ← append_assoc] at hfile
    rw [← append_assoc]
    exact (h.agree.files _ name hw c time).mp hfile
  have hfree : ∀ {front}, (s.after h w₂.programs).Free e front → s.Free e front := by
    intro front hfree
    rwa [Free, root_after] at hfree
  refine ⟨hgoing.ready, hfiles, hgoing.building, hfresh.queue, ?_, ?_⟩
  · rintro front name ⟨c, time, hfile⟩ hway hwanted
    obtain ⟨c', time', fields, v, hfile', htable, hfind, hlater⟩ :=
      h.current front name c time (hlookup hwanted.watched hfile) (hfree hway) hwanted
    obtain ⟨fields', v', htable', hfind', halike⟩ := hown.2 fields _ v htable hfind
    refine ⟨c', time', fields', v', ?_, ?_, hfind', ?_⟩
    · exact hfiles ▸ hfile'
    · rw [← htable', ← hfresh.stamps]
      rfl
    · rw [later_alike time' halike]
      exact hlater
  · rintro front name ⟨c, time, hfile⟩ hway hstatus hkind
    have hw : Watched name := Or.inr hstatus
    obtain ⟨pic, time', palette, htree, hpalette⟩ :=
      h.readable front name c time (hlookup hw hfile) (hfree hway) hstatus hkind
    refine ⟨pic, time', palette, ?_, hpalette⟩
    rw [← append_assoc] at htree ⊢
    exact (h.agree.files _ name hw _ _).mpr htree

theorem result_pass (hversion : e.version = "4" ∨ e.version = "5") (order : Order) (game : Path)
    (hdir : s.tree.IsDir s.src) (h : s.Idle e w) (hchanged : w.ledger.changed = false) :
    ∃ r w', result (Game.pass order e s.root game) w = (r, w')
    ∧ (r = .ok () ∧ w' = { w with said := w.said ++ "Nothing to rebuild" ++ "\n", crawl := w'.crawl }
        ∨ (∃ fault, r = .error fault) ∧ w' = { w with crawl := w'.crawl } ∧ BadPalette e s.tree) := by
  have hrests : s.Rests e (walkIn order (w.files.entries.length + 1) s.root) w := by
    rw [root_eq]
    apply rests_walkIn hversion order _ _ _ h
    · rwa [append_nil]
    · rintro hkind ⟨n, hn, hcostume⟩
      rw [root_eq] at hn
      exact hkind (mem_singleton.mp hn ▸ hcostume)
  obtain ⟨r, v, hwalk, ⟨hv, -⟩, hgood⟩ := hrests
  rw [Game.pass, result_get, result_bind, hwalk]
  cases r with
  | error fault =>
    refine ⟨.error fault, v, rfl, Or.inr ⟨⟨fault, rfl⟩, hv, hgood.resolve_left ?_⟩⟩
    exact fun heq => nomatch heq
  | ok u =>
    dsimp only
    have hstill : v.ledger.changed = false := by rw [hv]; exact hchanged
    rw [result_get, hstill]
    refine ⟨.ok (), { v with said := v.said ++ "Nothing to rebuild" ++ "\n" }, rfl, Or.inl ⟨rfl, ?_⟩⟩
    rw [hv]

/-- A successful build leaves nothing to do. A second build of the same files, from the stamps that the
first one stored, visits the entries of folders in any order and changes nothing: it encodes no file,
sets no stamp and does not call the packer. It says so, unless it stops at a palette in the game's own
form that the first build had no need to read. -/
theorem build_idempotent {source game : String} {order order₂ : Order} {w₁ w₂ : Workspace}
    (he : Game.edition name = .ok e) (hsource : (Path.ofText source).resolve = s.root)
    (hfiles : w.files = s.tree) (hprograms : w.programs = s.programs) (hs : s.Decompiled e)
    (hharmless : s.Harmless e (Game.packArguments e s.root (Path.ofText game).resolve))
    (hfresh : Fresh w) (hbuild : result (Game.buildIn order source game name) w = (.ok (), w₁))
    (hfresh₂ : Fresh w₂) (hfiles₂ : w₂.files = w₁.files) :
    result (Game.buildIn order₂ source game name) w₂ = (.ok (), { w₂ with said := w₂.said ++ "Nothing to rebuild" ++ "\n" })
      ∨ (∃ fault, result (Game.buildIn order₂ source game name) w₂ = (.error fault, w₂)) ∧ BadPalette e w₂.files := by
  have hversion := Game.version_of_edition he
  rw [result_buildIn order he hsource] at hbuild
  rcases hown : Site.stored w.files s.ledgerFile with fault | own
  · rw [hown] at hbuild
    cases hbuild
  rw [hown] at hbuild
  dsimp only at hbuild
  rcases hpass : result (Game.pass order e s.root (Path.ofText game).resolve) (begun e s.root own w) with ⟨r, v⟩
  rw [hpass] at hbuild
  obtain ⟨rfl, rfl⟩ := Prod.mk.inj hbuild
  have hbuilt : s.Built e v := by
    rw [hfiles] at hown
    exact built_of_pass hs hversion hharmless hfresh hfiles hprograms hown hpass
  obtain ⟨own₂, hown₂, hrestores⟩ := hbuilt.stored
  have hidle := idle_begun hbuilt hfresh₂ hfiles₂ hrestores
  obtain ⟨r₂, v₂, hpass₂, hend⟩ := result_pass hversion order₂ (Path.ofText game).resolve
    (hbuilt.agree.dirs _ hs.folder) hidle rfl
  rw [root_after] at hpass₂ hend
  have hstored₂ : Site.stored w₂.files s.ledgerFile = .ok own₂ := by
    rw [hfiles₂]
    exact hown₂
  rw [result_buildIn order₂ he hsource, hstored₂]
  dsimp only
  rw [hpass₂]
  rcases hend with ⟨rfl, hv₂⟩ | ⟨⟨fault, rfl⟩, hv₂, hbad⟩
  · left
    rw [hv₂]
    rfl
  · right
    refine ⟨⟨fault, ?_⟩, ?_⟩
    · rw [hv₂]
      rfl
    · rw [hfiles₂]
      exact hbad

def scaleTree : FileTree :=
  ⟨[], [(["src"], .folder 1), (["src", "LF_1"], .folder 2), (["src", "LF_1", "SA.json"], .file (.data [91, 93]) 3)], 4⟩

theorem sound_scaleTree : scaleTree.Sound := ⟨by decide, by decide⟩

def scaleSite : Site where
  tree := scaleTree
  src := ["src"]
  programs := default
  sound := sound_scaleTree
  valid := by decide

theorem file_scaleSite {front : List String} {name : String} {c : Content} {time : Int}
    (h : scaleTree.lookup (["src"] ++ (front ++ [name])) = some (.file c time)) : front = ["LF_1"] ∧ name = "SA.json" := by
  have hmem := Table.mem_of_find? h
  simp only [scaleTree, mem_cons, not_mem_nil, or_false, Prod.mk.injEq, reduceCtorEq, and_false, false_or] at hmem
  have hnames : front ++ [name] = ["LF_1"] ++ ["SA.json"] := by simpa using hmem.1
  obtain ⟨hfront, hname⟩ := append_inj' hnames rfl
  exact ⟨hfront, singleton_inj.mp hname⟩

theorem decompiled_scaleSite : scaleSite.Decompiled ⟨"MI1VGA", "4", "vga"⟩ := by
  refine ⟨⟨1, rfl⟩, ?_, ?_⟩
  · intro front name c time k hfile _ hk
    obtain ⟨-, rfl⟩ := file_scaleSite hfile
    cases hk
    exact Or.inr (by decide)
  · intro front name c time k hfile _ hk hwaits
    obtain ⟨-, rfl⟩ := file_scaleSite hfile
    cases hk
    cases hwaits

def scaleWork : Workspace := { (default : Workspace) with files := scaleTree, stamps := .record [], queue := [] }

theorem build_idempotent_scaleWork : let w₂ := { scaleWork with
      files := (result (Game.buildIn .listed "src" "game" "mi1vga") scaleWork).2.files }
    let second := result (Game.buildIn ⟨fun _ names => names.reverse, fun _ _ => reverse_perm _⟩ "src" "game" "mi1vga") w₂
    second = (.ok (), { w₂ with said := w₂.said ++ "Nothing to rebuild" ++ "\n" })
      ∨ (∃ fault, second = (.error fault, w₂)) ∧ BadPalette ⟨"MI1VGA", "4", "vga"⟩ w₂.files :=
  build_idempotent (s := scaleSite) (by decide +kernel) (by decide) rfl rfl decompiled_scaleSite
    (harmless_of_fixed decompiled_scaleSite (Or.inl rfl) rfl _) ⟨rfl, rfl⟩
    (Prod.ext (by decide +kernel) rfl) ⟨rfl, rfl⟩ rfl

end Site

end ScummKit
