import ScummKit.Proofs.Project.Decoders
import ScummKit.Proofs.Project.Walks

/-!
# Steps of a walk that decodes

A walk that decodes does so in steps: headers are stamped, palettes are read, and everything else is decoded, pictures with a palette. Which steps are due can be told from the files of the game alone (`dues`), and these are still there after any of the steps (`Kept`).
-/

namespace ScummKit

open Text Asset Work List

variable {p : Path} {name : String}
variable {t : FileTree} {rel : List String} {w w' : Workspace}

/-! ### What stays as it was -/

/-- A name of a file in the game's own form, or of a header. -/
def Original (name : String) : Prop := Status.ofName name = .binary ∨ Status.ofName name = .header

theorem Edited.not_original (h : Edited name) : ¬ Original name := by
  intro horiginal
  have hlast : name.toList.getLast? = some 'p' ∨ name.toList.getLast? = some 'l' :=
    horiginal.imp (fun hb => getLast?_of_ends ((ends_of_status name).1 hb) (by decide))
      fun hh => getLast?_of_ends ((ends_of_status name).2.1 hh) (by decide)
  rcases h.2 with h | h | h
  all_goals
    rw [getLast?_of_ends h (by decide)] at hlast
    exact absurd hlast (by decide)

namespace FileTree

/-- No two entries lie at the same place. -/
def Unique (t : FileTree) : Prop := (t.entries.map Prod.fst).Nodup

/-- A tree in which files for editing may be new or changed, and nothing else. -/
structure Kept (t t' : FileTree) : Prop where
  sound : t'.Sound
  unique : t'.Unique
  agree : Agree Original t t'
  dirs : ∀ rel, t'.IsDir rel → t.IsDir rel

theorem Unique.place (h : t.Unique) (rel : List String) (n : Node) : (t.place rel n).Unique := by
  have hput : ((Table.put rel n t.entries).map Prod.fst).Nodup := Table.nodup_put rel n h
  rw [FileTree.place]
  split
  · exact hput
  · rw [Unique, map_map]
    convert hput using 2
    funext e
    simp only [Function.comp]
    split
    · split
      · rfl
      · rfl
    · rfl

theorem Kept.write {t t' t'' : FileTree} (h : Kept t t') {c : Content} (hp : Edited p.name)
    (hwrite : t'.write p c = .ok t'') : Kept t t'' := by
  obtain ⟨hsound, hagree⟩ := agree_write Original h.sound hp.1 hp.not_original hwrite
  rcases write_cases hp.1 hwrite with rfl | ⟨rel, -, -, rfl⟩
  · exact h
  · have hunique : t'.tick.Unique := h.unique
    refine ⟨hsound, hunique.place _ _, h.agree.trans hagree, fun other hother => h.dirs other ?_⟩
    exact isDir_tick.mp (isDir_place.mp hother).2

theorem Kept.stores {t t' t'' : FileTree} {stored : List Path} (h : Kept t t') (hstored : Stores stored t' t'')
    (hnames : ∀ q ∈ stored, Edited q.name) : Kept t t'' := by
  induction hstored with
  | nil => exact h
  | cons hwrite _ ih =>
    exact ih (h.write (hnames _ mem_cons_self) hwrite) fun q hq => hnames q (mem_cons_of_mem _ hq)

theorem Kept.edits {x : Work α} {a : α} (h : Kept t w.files) (hx : Edits x) (hg : Gives x w a w') : Kept t w'.files := by
  obtain ⟨stored, hstored, hnames⟩ := hx w a w' hg
  exact h.stores hstored hnames

theorem nodup_childNames (h : t.Unique) (rel : List String) : (t.childNames rel).Nodup := by
  have hnames : (t.entries.filterMap fun e => childName? rel e.1) = (t.entries.map Prod.fst).filterMap (childName? rel) := by
    rw [filterMap_map]
    rfl
  rw [childNames, (mergeSort_perm _ _).nodup_iff, hnames]
  refine List.Nodup.filterMap ?_ h
  intro key key' name hkey hkey'
  rw [childName?_eq.mp hkey, childName?_eq.mp hkey']

def path (t : FileTree) (rel : List String) : Path := ⟨"/", t.base ++ rel⟩

theorem path_inj {rel rel' : List String} (h : t.path rel = t.path rel') : rel = rel' := by
  rw [Path.mk.injEq] at h
  exact append_cancel_left h.2

@[simp] theorem name_path (t : FileTree) (front : List String) (name : String) : (t.path (front ++ [name])).name = name := by
  simp [path, Path.name]

theorem join_path (t : FileTree) (rel : List String) (h : ValidName name) : (t.path rel).join name = t.path (rel ++ [name]) := by
  rw [Path.join_of_valid _ h, path, path]
  simp

/-- A tree whose own place has a proper name. -/
structure Placed (t : FileTree) : Prop where
  sound : t.Sound
  unique : t.Unique
  base : ∀ n ∈ t.base, ValidName n

theorem Placed.parts (h : t.Placed) {n : Node} (hn : t.lookup rel = some n) : ∀ name ∈ (t.path rel).parts, ValidName name := by
  intro name hname
  rcases mem_append.mp hname with hname | hname
  · exact h.base name hname
  · exact h.sound.valid hn name hname

theorem Placed.dots (h : t.Placed) (hrel : ∀ n ∈ rel, ValidName n) : ".." ∉ t.base ++ rel := by
  intro hmem
  rcases mem_append.mp hmem with hmem | hmem
  · exact (h.base _ hmem).2.2.1 rfl
  · exact (hrel _ hmem).2.2.1 rfl

theorem Placed.kept (h : t.Placed) : Kept t t := ⟨h.sound, h.unique, .refl t, fun _ hdir => hdir⟩

section Kept

variable {t t' : FileTree} {rel : List String}

section

variable (h : Kept t t') (ht : t.Placed)

include h ht

theorem Kept.get? (hrel : ∀ n ∈ rel, ValidName n) : t'.get? (t.path rel) = t'.lookup rel := by
  have hdots := ht.dots hrel
  rw [path]
  rw [← h.agree.base] at *
  exact get?_eq h.sound hdots

theorem Kept.list (hdir : t.IsDir rel) : t'.list (t.path rel) = .ok (t'.childNames rel) := by
  obtain ⟨time, htime⟩ := hdir
  have hdots := ht.dots (ht.sound.valid htime)
  have hdir' := h.agree.dirs rel ⟨time, htime⟩
  rw [path]
  rw [← h.agree.base] at *
  exact list_eq h.sound hdots hdir'

theorem Kept.bytes {front : List String} (hname : Original name)
    {c : Content} {time : Int} (hfile : t.lookup (front ++ [name]) = some (.file c time)) :
    t'.bytes (t.path (front ++ [name])) = t.bytes (t.path (front ++ [name])) := by
  have hfile' := (h.agree.files front name hname c time).mpr hfile
  have hdots := ht.dots (ht.sound.valid hfile)
  have hget : t.get (t.path (front ++ [name])) = .ok (.file c time) := get_of_lookup ht.sound hdots hfile
  have hget' : t'.get (t.path (front ++ [name])) = .ok (.file c time) := by
    rw [path]
    rw [← h.agree.base] at *
    exact get_of_lookup h.sound hdots hfile'
  rw [FileTree.bytes, FileTree.bytes, content, content, hget, hget']

end

end Kept

def paletteAt (t : FileTree) (version : String) (p : Path) : Except Fault Palette := do
  PaletteFile.ofData version ((← t.bytes p).map fun b => (b.toNat : Int))

end FileTree

/-! ### Steps -/

/-- What a walk may do to a file. -/
inductive Step where
  | stamp (p : Path)
  | palette (p : Path)
  | decode (p : Path) (kind : Kind) (palette : Palette)
  deriving DecidableEq

namespace Step

variable {c : Crawl}

def path : Step → Path
  | stamp p => p
  | palette p => p
  | decode p _ _ => p

def Coloured (k : Kind) : Prop := k = .image ∨ k = .costume

instance (k : Kind) : Decidable (Coloured k) := inferInstanceAs (Decidable (_ ∨ _))

def decoder (version video : String) (palette : Palette) (p : Path) : Kind → Work Unit
  | .script => ScriptFile.decode version true p
  | .box => BoxFile.decode version true p
  | .scale => ScaleFile.decode version true p
  | .image => ImageFile.decode version true video palette p
  | .costume => CostumeFile.decode version true video palette p
  | .zplane => ImageFile.decode version true "zplane" [] p
  | _ => return

def usePalette (c : Crawl) (p : Path) : Work Palette :=
  if c.targets.contains "palette" then PaletteFile.decode c.version true p else PaletteFile.read c.version p

def run (c : Crawl) : Step → Work Unit
  | stamp p => Work.stamp p
  | palette p => do let _ ← usePalette c p
  | decode p k colours => decoder c.version c.video colours p k

def ofFile (c : Crawl) (palette : Palette) (p : Path) : Option Step :=
  match Status.ofName p.name, Kind.ofName? c.version p.name with
  | .header, _ => some (.stamp p)
  | .binary, some .palette => some (.palette p)
  | .binary, some k =>
    if c.targets.contains k.label then some (.decode p k (if Coloured k then palette else [])) else none
  | _, _ => none

theorem path_of_ofFile {palette : Palette} {x : Step} (h : ofFile c palette p = some x) : x.path = p := by
  unfold ofFile at h
  split at h
  · cases h; rfl
  · cases h; rfl
  · split at h
    · cases h; rfl
    · cases h
  · cases h

theorem original_of_ofFile {palette : Palette} {x : Step} (h : ofFile c palette p = some x) : Original p.name := by
  unfold ofFile at h
  split at h
  · rename_i hs
    exact Or.inr hs
  · rename_i hs _
    exact Or.inl hs
  · rename_i hs _
    exact Or.inl hs
  · cases h

theorem ofFile_eq_palette {palette : Palette} {q : Path} (h : ofFile c palette p = some (.palette q)) :
    Status.ofName p.name = .binary ∧ Kind.ofName? c.version p.name = some .palette := by
  unfold ofFile at h
  split at h
  · cases h
  · exact ⟨‹_›, ‹_›⟩
  · split at h <;> cases h
  · cases h

theorem ofFile_eq_decode {palette colours : Palette} {q : Path} {k : Kind} (h : ofFile c palette p = some (.decode q k colours)) :
    Status.ofName p.name = .binary ∧ Kind.ofName? c.version p.name = some k := by
  unfold ofFile at h
  split at h
  · cases h
  · cases h
  · split at h
    · cases h
      exact ⟨‹_›, ‹_›⟩
    · cases h
  · cases h

theorem ofFile_eq_none {palette : Palette} (h : ¬ Original p.name) : ofFile c palette p = none := by
  cases hstep : ofFile c palette p with
  | none => rfl
  | some x => exact absurd (original_of_ofFile hstep) h

theorem blind_run (c : Crawl) (x : Step) : Blind (run c x) := by
  cases x with
  | stamp p => exact blind_stamp p
  | palette p =>
    refine blind_bind ?_ fun _ => blind_pure _
    rw [usePalette]
    split
    · exact blind_decodePalette _ _ _
    · exact (Site.looks_readPalette _ _).blind
  | decode p k palette =>
    cases k with
    | script => exact blind_decodeScript _ _ _
    | box => exact blind_decodeBox _ _ _
    | scale => exact blind_decodeScale _ _ _
    | image => exact blind_decodeImage _ _ _ _ _
    | costume => exact blind_decodeCostume _ _ _ _ _
    | zplane => exact blind_decodeImage _ _ _ _ _
    | palette => exact blind_pure _
    | other => exact blind_pure _

theorem blind_forM (c : Crawl) (steps : List Step) : Blind (steps.forM (run c)) := Work.blind_forM fun x _ => blind_run c x

theorem forM_append (c : Crawl) (steps steps' : List Step) :
    (steps ++ steps').forM (run c) = (do steps.forM (run c); steps'.forM (run c)) := List.forM_append

theorem edits_decoder (version video : String) (palette : Palette) (hvalid : ∀ n ∈ p.parts, ValidName n)
    (hends : ends p.name ".dmp" = true) (k : Kind) : Edits (decoder version video palette p k) := by
  cases k with
  | script => exact edits_decodeScript hvalid hends _ _
  | box => exact edits_document hvalid hends _
  | scale => exact edits_document hvalid hends _
  | image => exact edits_decodeImage hvalid hends _ _ _ _
  | costume => exact edits_decodeCostume hvalid hends _ _ _ _
  | zplane => exact edits_decodeImage hvalid hends _ _ _ _
  | palette => exact (keeps_pure _).storesIn
  | other => exact (keeps_pure _).storesIn

theorem edits_usePalette (c : Crawl) (hvalid : ∀ n ∈ p.parts, ValidName n) (hends : ends p.name ".dmp" = true) :
    Edits (usePalette c p) := by
  rw [usePalette]
  split
  · exact edits_decodePalette hvalid hends _ _
  · exact (Site.looks_readPalette _ _).keeps.storesIn

theorem result_read (version : String) (p : Path) (w : Workspace) :
    result (PaletteFile.read version p) w = (w.files.paletteAt version p, w) := by
  rw [PaletteFile.read, octets, bind_assoc, bytes, result_bind, result_look, FileTree.paletteAt]
  cases w.files.bytes p with
  | error e => rfl
  | ok bs => exact result_lift _ w

theorem paletteAt_of_usePalette {palette : Palette}
    (h : Gives (usePalette c p) w palette w') : w.files.paletteAt c.version p = .ok palette := by
  have hread {v v' : Workspace} {palette' : Palette} (hr : Gives (PaletteFile.read c.version p) v palette' v') :
      v.files.paletteAt c.version p = .ok palette' ∧ v = v' := by
    rw [Gives, result_read, Prod.mk.injEq] at hr
    exact hr
  rw [usePalette] at h
  split at h
  · obtain ⟨_, v, hsay, h⟩ := gives_bind.mp h
    obtain rfl := gives_say.mp hsay
    obtain ⟨palette', v, hpalette, h⟩ := gives_bind.mp h
    obtain ⟨hat, rfl⟩ := hread hpalette
    obtain ⟨_, _, -, h⟩ := gives_bind.mp h
    obtain ⟨_, _, -, h⟩ := gives_bind.mp h
    obtain ⟨_, _, -, h⟩ := gives_bind.mp h
    rw [← (gives_pure.mp h).1]
    exact hat
  · exact (hread h).1

end Step

/-! ### The same but for the walk -/

/-- Two runs that come to the same, except for what a walk has found out. -/
def Same (x y : Except Fault Unit × Workspace) : Prop := x.1 = y.1 ∧ walking default [] x.2 = walking default [] y.2

theorem same_refl (x : Except Fault Unit × Workspace) : Same x x := ⟨rfl, rfl⟩

theorem Same.trans {x y z : Except Fault Unit × Workspace} (h : Same x y) (h' : Same y z) : Same x z :=
  ⟨h.1.trans h'.1, h.2.trans h'.2⟩

theorem Work.Blind.same {x : Work Unit} (hx : Blind x) {w v : Workspace} (h : walking default [] w = walking default [] v) :
    Same (result x w) (result x v) := by
  have hw := hx default [] w
  rw [h, hx default [] v, Prod.mk.injEq] at hw
  exact ⟨hw.1.symm, hw.2.symm⟩

theorem same_bind {x y f g : Work Unit} {w : Workspace} (hxy : Same (result x w) (result y w)) (hg : Blind g)
    (hfg : ∀ u, Gives x w () u → Same (result f u) (result g u)) :
    Same (result (do x; f) w) (result (do y; g) w) := by
  rw [result_bind, result_bind]
  rcases hx : result x w with ⟨r, u⟩
  rcases hy : result y w with ⟨r', v⟩
  rw [hx, hy] at hxy
  obtain ⟨rfl, hcore⟩ := hxy
  cases r with
  | error e => exact ⟨rfl, hcore⟩
  | ok _ => exact (hfg u hx).trans (hg.same hcore)

/-! ### Steps that are due -/

section Due

variable (t : FileTree) (c : Crawl) (colours : List String → Palette)

/-- The step that an entry calls for, given the palette of each file. -/
def stepAt (key : List String) : Option Step :=
  match t.lookup key with
  | some (.file _ _) => Step.ofFile c (colours key) (t.path key)
  | _ => none

def dues (rel : List String) : List Step :=
  (t.entries.map Prod.fst).filterMap fun key => if rel.isPrefixOf key then stepAt t c colours key else none

variable {t c colours} {rel : List String} {x : Step} {t' : FileTree}

theorem stepAt_eq_some {key : List String} (h : stepAt t c colours key = some x) :
    (∃ content time, t.lookup key = some (.file content time)) ∧ x.path = t.path key ∧ Original (t.path key).name := by
  unfold stepAt at h
  split at h
  · rename_i hfile
    exact ⟨⟨_, _, hfile⟩, Step.path_of_ofFile h, Step.original_of_ofFile h⟩
  · cases h

theorem mem_dues : x ∈ dues t c colours rel ↔ ∃ key, rel <+: key ∧ stepAt t c colours key = some x := by
  rw [dues, mem_filterMap]
  constructor
  · rintro ⟨key, -, hkey⟩
    split at hkey
    · rename_i hprefix
      exact ⟨key, isPrefixOf_iff_prefix.mp hprefix, hkey⟩
    · cases hkey
  · rintro ⟨key, hprefix, hkey⟩
    obtain ⟨⟨content, time, hfile⟩, -⟩ := stepAt_eq_some hkey
    refine ⟨key, ?_, by rw [if_pos ( isPrefixOf_iff_prefix.mpr hprefix), hkey]⟩
    have hne : key ≠ [] := by
      rintro rfl
      cases hfile
    rw [FileTree.lookup_of_ne_nil t hne] at hfile
    exact mem_map.mpr ⟨_, Table.mem_of_find? hfile, rfl⟩

theorem stepAt_inj {key key' : List String} (h : stepAt t c colours key = some x) (h' : stepAt t c colours key' = some x) :
    key = key' := t.path_inj ((stepAt_eq_some h).2.1.symm.trans (stepAt_eq_some h').2.1)

theorem nodup_dues (h : t.Unique) (rel : List String) : (dues t c colours rel).Nodup := by
  refine List.Nodup.filterMap ?_ h
  intro key key' x hx hx'
  split at hx
  · split at hx'
    · exact stepAt_inj hx hx'
    · cases hx'
  · cases hx

theorem dues_of_none (hs : t.Sound) (h : t.lookup rel = none) : dues t c colours rel = [] := by
  rw [eq_nil_iff_forall_not_mem]
  intro x hx
  obtain ⟨key, ⟨more, rfl⟩, hkey⟩ := mem_dues.mp hx
  obtain ⟨⟨content, time, hfile⟩, -⟩ := stepAt_eq_some hkey
  by_cases hmore : more = []
  · rw [hmore, append_nil, h] at hfile
    cases hfile
  · obtain ⟨time', hdir⟩ := hs.isDir_of_lookup hfile hmore
    rw [h] at hdir
    cases hdir

theorem dues_of_file (ht : t.Placed) {content : Content} {time : Int} (h : t.lookup rel = some (.file content time)) :
    (dues t c colours rel).Perm (Step.ofFile c (colours rel) (t.path rel)).toList := by
  have hstep : stepAt t c colours rel = Step.ofFile c (colours rel) (t.path rel) := by rw [stepAt, h]
  have hlist : (stepAt t c colours rel).toList.Nodup := by
    cases stepAt t c colours rel <;> simp
  rw [← hstep, perm_ext_iff_of_nodup (nodup_dues ht.unique rel) hlist]
  intro x
  rw [mem_dues, Option.mem_toList]
  constructor
  · rintro ⟨key, ⟨more, rfl⟩, hkey⟩
    obtain ⟨⟨content', time', hfile⟩, -⟩ := stepAt_eq_some hkey
    by_cases hmore : more = []
    · rwa [hmore, append_nil] at hkey
    · obtain ⟨time'', hdir⟩ := ht.sound.isDir_of_lookup hfile hmore
      rw [h] at hdir
      cases hdir
  · exact fun hx => ⟨rel, prefix_refl rel, hx⟩

theorem FileTree.Kept.listed (h : FileTree.Kept t t') (ht : t.Placed) (hdir : t.IsDir rel)
    (hx : x ∈ dues t c colours rel) : ∃ n, x ∈ dues t c colours (rel ++ [n]) ∧ ∃ node, t'.lookup (rel ++ [n]) = some node := by
  obtain ⟨key, ⟨more, rfl⟩, hkey⟩ := mem_dues.mp hx
  obtain ⟨⟨content, time, hfile⟩, -, horiginal⟩ := stepAt_eq_some hkey
  cases more with
  | nil =>
    obtain ⟨time', hdir⟩ := hdir
    rw [append_nil, hdir] at hfile
    cases hfile
  | cons n more =>
    refine ⟨n, mem_dues.mpr ⟨_, ⟨more, by simp⟩, hkey⟩, ?_⟩
    cases more with
    | nil =>
      rw [t.name_path] at horiginal
      exact ⟨_, (h.agree.files rel n horiginal content time).mpr hfile⟩
    | cons m more =>
      have hbelow : t.lookup (rel ++ [n] ++ m :: more) = some (.file content time) := by simpa using hfile
      obtain ⟨time', hfolder⟩ := h.agree.dirs _ (ht.sound.isDir_of_lookup hbelow (by simp))
      exact ⟨_, hfolder⟩

theorem dues_of_folder (h : FileTree.Kept t t') (ht : t.Placed) (hdir : t.IsDir rel) {names : List String}
    (hnodup : names.Nodup) (hnames : ∀ n, n ∈ names ↔ ∃ node, t'.lookup (rel ++ [n]) = some node) :
    (names.flatMap fun n => dues t c colours (rel ++ [n])).Perm (dues t c colours rel) := by
  have hapart : (names.flatMap fun n => dues t c colours (rel ++ [n])).Nodup := by
    rw [nodup_flatMap]
    refine ⟨fun n _ => nodup_dues ht.unique _, hnodup.imp fun {n m} hne x hx hx' => hne ?_⟩
    obtain ⟨key, ⟨more, hmore⟩, hkey⟩ := mem_dues.mp hx
    obtain ⟨key', ⟨more', hmore'⟩, hkey'⟩ := mem_dues.mp hx'
    obtain rfl := stepAt_inj hkey hkey'
    rw [← hmore, append_assoc, append_assoc] at hmore'
    exact (List.cons.inj (append_cancel_left hmore')).1.symm
  rw [perm_ext_iff_of_nodup hapart (nodup_dues ht.unique rel)]
  intro x
  rw [mem_flatMap]
  constructor
  · rintro ⟨n, -, hx⟩
    obtain ⟨key, hprefix, hkey⟩ := mem_dues.mp hx
    exact mem_dues.mpr ⟨key, (prefix_append rel [n]).trans hprefix, hkey⟩
  · intro hx
    obtain ⟨n, hn, hnode⟩ := h.listed ht hdir hx
    exact ⟨n, (hnames n).mpr hnode, hn⟩

end Due

end ScummKit
