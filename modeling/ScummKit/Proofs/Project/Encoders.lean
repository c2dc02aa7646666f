import ScummKit.Asset.BoxFile
import ScummKit.Asset.CostumeFile
import ScummKit.Asset.ImageFile
import ScummKit.Asset.ScaleFile
import ScummKit.Proofs.Project.Stamps

/-!
# What encoders leave alone

Every encoder reads a file that is edited, stores its result under a name that is not watched, and
stamps the file, with its partner if it has one. So everything that was current stays current, and the
file becomes so.
-/

namespace ScummKit.Site

open Work Asset List

variable {s : Site} {front : List String} {name : String}
variable {x : Work α} {version : String}
variable (p : Path) (video : String) (palette : Palette) (given : Palette) {rel : List String}
variable (tool : Tool.Run) (arguments : String)
variable (hw : Watched name) (hrel : ∀ n ∈ front ++ [name], ValidName n)

/-! ### Paths of the site -/

theorem path_concat (s : Site) (front : List String) (name : String) :
    s.path (front ++ [name]) = ⟨"/", (s.tree.base ++ (s.src ++ front)) ++ [name]⟩ := by simp [path]

@[simp] theorem name_path (s : Site) (front : List String) (name : String) : (s.path (front ++ [name])).name = name := by
  rw [path_concat, Path.name]
  simp

theorem rename_path (s : Site) (front : List String) (name : String) (f : String → String)
    (h : ValidName (f name)) : (s.path (front ++ [name])).rename f = s.path (front ++ [f name]) := by
  rw [path_concat, path_concat, Path.rename_of_valid _ _ _ h]

theorem output_rename (s : Site) (front : List String) (name : String) (f : String → String)
    (h : Output (f name)) : Output ((s.path (front ++ [name])).rename f).name := by
  rw [s.rename_path front name f h.1, name_path]
  exact h

include hrel

theorem valid_beside {other : String} (h : ValidName other) : ∀ n ∈ front ++ [other], ValidName n := by
  have hfront := (forall_mem_append.mp hrel).1
  exact forall_mem_append.mpr ⟨hfront, forall_mem_singleton.mpr h⟩

theorem fileName {tail : String} (h : Text.ends name tail = true) : FileName tail name :=
  ⟨(hrel name (by simp)).2.2.2, h⟩

omit hrel

/-! ### Reading -/

@[grind ←] theorem looks_text : Looks (text p) := looks_look _

@[grind ←] theorem looks_bytes : Looks (bytes p) := looks_look _

@[grind ←] theorem looks_octets : Looks (octets p) := looks_bind (looks_bytes p) fun _ => looks_pure _

@[grind ←] theorem looks_document : Looks (document p) := looks_bind (looks_text p) fun _ => looks_lift _

@[grind ←] theorem looks_picture : Looks (picture p) := looks_look _

@[grind ←] theorem looks_readPicture : Looks (PaletteFile.readPicture p) :=
  looks_bind (looks_picture p) fun _ => looks_lift _

@[grind ←] theorem looks_readPalette (version : String) (p : Path) : Looks (PaletteFile.read version p) :=
  looks_bind (looks_octets p) fun _ => looks_lift _

/-! ### Documents and palettes -/

include hw hrel

theorem settles_document {α : Type} {line : String} {f : Json → Except Fault α} {g : α → List Json}
    (hname : Text.ends name ".json" = true) : s.Settles (do
      say line
      let data ← liftM (f (← document (s.path (front ++ [name]))))
      writeOctets ((s.path (front ++ [name])).rename (Text.swap · ".json" ".dmp")) (g data)
      stamp (s.path (front ++ [name]))) (front ++ [name]) := by
  have hout := s.output_rename front name (Text.swap · ".json" ".dmp") (output_dmp ((fileName hrel hname).swap (by decide)))
  grind

theorem settles_palette (version : String) (hname : Text.ends name ".png" = true) :
    s.Settles (PaletteFile.encode version true (s.path (front ++ [name]))) (front ++ [name]) := by
  have hout := s.output_rename front name (Text.swap · ".png" ".dmp") (output_dmp ((fileName hrel hname).swap (by decide)))
  refine settles_after hw (calm_of_looks (looks_readPicture _)) fun palette => settles_after hw (calm_say _) fun _ => ?_
  cases PaletteFile.header? version with
  | none => exact fun w a w' _ _ hg => (gives_throw.mp hg).elim
  | some header =>
    have hstamped := settles_before (s := s) hw (settles_stamp hrel) fun _ => calm_of_looks (looks_pure palette)
    grind

omit hw hrel

/-! ### Costumes -/

@[grind ←] theorem looks_roomPalette (version : String) : Looks (CostumeFile.roomPalette p version) := by
  unfold CostumeFile.roomPalette
  split <;> grind

@[grind ←] theorem looks_costumePalette (p : Path) (version : String) :
    Looks (CostumeFile.paletteFor video given p version) := by grind [CostumeFile.paletteFor]

/-- The names of the files of costumes: one of the two endings behind something else. -/
def CostumeName (name : String) : Prop :=
  Text.ends name "_animdata.json" = true ∧ name ≠ "_animdata.json"
    ∨ Text.ends name "_spritesheet.png" = true ∧ name ≠ "_spritesheet.png" ∧ Text.has name "_animdata.json" = false

theorem occurs_append_self (pattern xs : List Char) : Text.occurs pattern (xs ++ pattern) = true := by
  induction xs with
  | nil =>
    cases pattern with
    | nil => rfl
    | cons c cs => simp [Text.occurs]
  | cons x xs ih => rw [cons_append, Text.occurs, ih, Bool.or_true]

theorem has_of_ends {s tail : String} (h : Text.ends s tail = true) : Text.has s tail = true := by
  obtain ⟨cs, hcs⟩ := Text.ends_iff.mp h
  rw [Text.has, hcs]
  exact occurs_append_self _ _

theorem exists_stem {s tail : String} (h : Text.ends s tail = true) (hne : s ≠ tail) : ∃ stem, stem ≠ "" ∧ s = stem ++ tail := by
  obtain ⟨cs, hcs⟩ := Text.ends_iff.mp h
  refine ⟨String.ofList cs, ?_, ?_⟩
  · rintro hempty
    have hnil : cs = [] := by simpa using congrArg String.toList hempty
    rw [hnil] at hcs
    exact hne (String.toList_inj.mp hcs)
  · rw [← String.toList_inj, hcs, String.toList_append, String.toList_ofList]

theorem swap_sheet {stem : String} (hstem : stem ≠ "") :
    ∃ stem', stem' ≠ "" ∧ Text.swap (stem ++ "_spritesheet.png") "_spritesheet.png" "_animdata.json"
    = stem' ++ "_animdata.json" := by
  have hends : Text.ends (stem ++ "_spritesheet.png") "_spritesheet.png" = true := by
    rw [Text.ends_iff, String.toList_append]
    exact ⟨_, rfl⟩
  apply exists_stem (Text.ends_swap hends (by decide))
  obtain ⟨c, cs, hcs⟩ := exists_cons_of_ne_nil fun h => hstem (String.toList_eq_nil_iff.mp h)
  intro heq
  -- the stem leaves a trace in front of the new ending
  have hlist := congrArg String.toList heq
  rw [Text.swap, String.toList_ofList, Text.replace, if_neg (by decide), String.toList_append,
    Text.replaceAfter_append (by decide) _ _ (Nat.zero_le _),
    show Text.replaceAfter "_spritesheet.png".toList "_animdata.json".toList 0
      "_spritesheet.png".toList = "_animdata.json".toList by decide,
    append_left_eq_self, hcs, Text.replaceAfter] at hlist
  split at hlist
  · cases hlist
  · cases hlist

theorem costumePair_path (hslash : '/' ∉ name.toList) (hname : CostumeName name) :
    ∃ file sheet, costumePair (s.path (front ++ [name])) = some (s.path (front ++ [file]), s.path (front ++ [sheet]))
    ∧ ValidName file ∧ ValidName sheet ∧ (file = name ∨ sheet = name)
    ∧ ∃ stem, stem ≠ "" ∧ '/' ∉ stem.toList ∧ file = stem ++ "_animdata.json" := by
  have hfront : ∀ stem tail : String, '/' ∉ (stem ++ tail).toList → '/' ∉ stem.toList := by
    intro stem tail h hmem
    rw [String.toList_append] at h
    exact h (mem_append_left _ hmem)
  rcases hname with ⟨hends, hne⟩ | ⟨hends, hne, hnot⟩
  · have hsheet : FileName "_spritesheet.png" (Text.swap name "_animdata.json" "_spritesheet.png") :=
      FileName.swap ⟨hslash, hends⟩ (by decide)
    have hvalid := hsheet.valid (by decide)
    obtain ⟨stem, hstem, hname⟩ := exists_stem hends hne
    refine ⟨name, _, ?_, FileName.valid ⟨hslash, hends⟩ (by decide), hvalid, Or.inl rfl, stem, hstem,
      hfront stem "_animdata.json" (hname ▸ hslash), hname⟩
    rw [costumePair, name_path, if_pos (has_of_ends hends), s.rename_path front name _ hvalid]
  · have hfile : FileName "_animdata.json" (Text.swap name "_spritesheet.png" "_animdata.json") :=
      FileName.swap ⟨hslash, hends⟩ (by decide)
    have hvalid := hfile.valid (by decide)
    obtain ⟨stem, hstem, hname⟩ := exists_stem hends hne
    obtain ⟨stem', hstem', hname'⟩ := swap_sheet hstem
    rw [← hname] at hname'
    refine ⟨_, name, ?_, hvalid, FileName.valid ⟨hslash, hends⟩ (by decide), Or.inr rfl, stem', hstem',
      hfront stem' "_animdata.json" (hname' ▸ hfile.slash), hname'⟩
    rw [costumePair, name_path, if_neg (by simp [hnot]), if_pos (has_of_ends hends), s.rename_path front name _ hvalid]

include hw hrel in
theorem settles_costume (version video : String) (given : Palette) (hname : CostumeName name) :
    s.Settles (CostumeFile.encode version true video given (s.path (front ++ [name]))) (front ++ [name]) := by
  obtain ⟨file, sheet, hpair, hfile, hsheet, hboth, stem, hstem, hslash', rfl⟩ :=
    @costumePair_path s front name (hrel name (by simp)).2.2.2 hname
  have hout := s.output_rename front (stem ++ "_animdata.json") (fun name =>
    Text.swap (String.ofList (name.toList.drop 1)) "_animdata.json" ".dmp")
    (output_costume hslash' hstem)
  rw [CostumeFile.encode, hpair]
  rcases hboth with rfl | rfl
  · have hstamped := settles_before (s := s) hw (settles_stamp hrel) fun _ =>
      calm_stamp (by simp) (valid_beside hrel hsheet)
    grind
  · have hstamped := settles_after (s := s) hw (calm_stamp (by simp) (valid_beside hrel hfile)) fun _ => settles_stamp hrel
    grind

/-! ### Images -/

@[grind ←] theorem looks_imagePalette (p : Path) (version : String)
    (subject : Option Subject) : Looks (ImageFile.paletteFor video given p version subject) := by
  rw [ImageFile.paletteFor]
  split
  · unfold ImageFile.roomPalette
    extract_lets above
    cases above with
    | none => exact looks_throw _
    | some above => exact looks_bind (looks_lift _) fun _ => looks_readPalette _ _
  · exact looks_pure _

@[grind ←] theorem looks_readXml : Looks (ImageFile.readXml p) :=
  looks_bind (looks_bytes p) fun _ => looks_lift _

@[grind ←] theorem looks_size (version : String) (subject : Option Subject) :
    Looks (ImageFile.size p version subject) := by grind [ImageFile.size]

@[grind ←] theorem looks_tag4 (target : Path) (subject : Option Subject) : Looks (ImageFile.tag4 target subject) := by
  unfold ImageFile.tag4
  split <;> grind [ImageFile.objectId]

@[grind ←] theorem calm_tag5 (p : Path) : s.Calm (ImageFile.tag5 video p) := by
  unfold ImageFile.tag5
  split
  · exact calm_of_looks (looks_pure _)
  · have hrest : s.Calm (do return [0x5a, 0x50, 0x30, (← get).maskDigit]) :=
      calm_of_looks (looks_get (fun _ _ _ => rfl) fun _ => looks_pure _)
    split
    · exact calm_bind (calm_modify fun _ => ⟨rfl, rfl⟩) fun _ => hrest
    · exact hrest
  · exact calm_of_looks (looks_pure _)

theorem imagePair_path (h : FileName ".png" name)
    {picture mask : Path} (hpair : imagePair (s.path (front ++ [name])) = some (picture, mask)) :
    ∃ n m, picture = s.path (front ++ [n]) ∧ mask = s.path (front ++ [m])
    ∧ ValidName n ∧ ValidName m ∧ (n = name ∨ m = name) := by
  have hvalid := h.valid (by decide)
  have hswapped {pattern new : String} (hswaps : Swaps pattern new ".png" ".png") : ValidName (Text.swap name pattern new) :=
    (h.swap hswaps).valid (by decide)
  rw [imagePair] at hpair
  split_ifs at hpair with himage hmask
  · have hmask := @hswapped "_image" "_zplane" (by decide)
    obtain ⟨rfl, rfl⟩ := Prod.mk.inj (Option.some.inj hpair)
    exact ⟨name, _, rfl, s.rename_path front name _ hmask, hvalid, hmask, Or.inl rfl⟩
  · have himage := @hswapped "_zplane" "_image" (by decide)
    obtain ⟨rfl, rfl⟩ := Prod.mk.inj (Option.some.inj hpair)
    exact ⟨_, name, s.rename_path front name _ himage, rfl, himage, hvalid, Or.inr rfl⟩

@[grind ←] theorem calm_announce (picture mask : Path) : s.Calm (ImageFile.announce picture mask) := by grind [ImageFile.announce]

@[grind ←] theorem looks_maskFor (pic : Picture) (mask : Path) : Looks (ImageFile.maskFor pic mask) := by grind [ImageFile.maskFor]

include hw hrel

theorem settles_stampPair {n m : String} (hn : ValidName n) (hm : ValidName m) (hboth : n = name ∨ m = name) :
    s.Settles (ImageFile.stampPair (s.path (front ++ [n])) (s.path (front ++ [m]))) (front ++ [name]) := by
  have hcalm : ∀ k, ValidName k → s.Calm (stamp (s.path (front ++ [k]))) := fun k hk =>
    calm_stamp (by simp) (valid_beside hrel hk)
  rcases hboth with rfl | rfl
  · apply settles_before hw (settles_stamp hrel)
    intro _
    apply calm_bind (calm_of_looks (looks_ask _))
    intro there
    cases there with
    | true => exact hcalm m hm
    | false => exact calm_of_looks (looks_pure _)
  · apply settles_after hw (hcalm n hn)
    rintro _ w u w' h hfile hg
    obtain ⟨there, _, hthere, hg⟩ := gives_bind.mp hg
    obtain ⟨rfl, rfl⟩ := gives_ask.mp hthere
    have hhas : w.files.has (s.path (front ++ [m])) = true := by
      obtain ⟨c, time, hfile⟩ := hfile
      rw [FileTree.has, h.get? hrel, hfile]
      rfl
    rw [hhas] at hg
    exact settles_stamp hrel w u w' h hfile hg

theorem settles_encode4 (subject : Option Subject) (target : Path) (hname : Text.ends name ".png" = true) :
    s.Settles (ImageFile.encode4 true video palette subject target (s.path (front ++ [name]))) (front ++ [name]) := by
  unfold ImageFile.encode4
  cases hpair : imagePair (s.path (front ++ [name])) with
  | none => exact fun w a w' _ _ hg => (gives_throw.mp hg).elim
  | some pair =>
    obtain ⟨picture, mask⟩ := pair
    obtain ⟨n, m, rfl, rfl, hn, hm, hboth⟩ := imagePair_path (fileName hrel hname) hpair
    refine settles_after hw (calm_announce _ _) fun _ => settles_after hw (by grind) fun pic => ?_
    refine settles_after hw (by grind) fun word => settles_after hw (by grind) fun body => ?_
    refine settles_after hw (by grind) fun layer => settles_after hw (by grind) fun maskBody => ?_
    refine settles_after hw (by grind) fun tag => settles_before hw (settles_stampPair hw hrel hn hm hboth) fun _ => ?_
    exact calm_of_looks (looks_pure _)

theorem settles_encode5 : s.Settles (ImageFile.encode5 true video palette (s.path (front ++ [name]))) (front ++ [name]) := by
  refine settles_after hw (calm_say _) fun _ => settles_after hw (by grind) fun pic => ?_
  refine settles_after hw (by grind) fun body => settles_after hw (calm_tag5 _ _) fun tag => ?_
  exact settles_before hw (settles_stamp hrel) fun _ => calm_of_looks (looks_pure _)

omit hw hrel

def imageName (name : String) : String := Text.swapAll name [("_image", ""), ("_zplane", ""), (".png", ".dmp")]

theorem fileName_imageName (h : FileName ".png" name) : FileName ".dmp" (imageName name) := by
  have hfirst : FileName ".png" (Text.swap name "_image" "") := h.swap (by decide)
  have hsecond : FileName ".png" (Text.swap (Text.swap name "_image" "") "_zplane" "") := hfirst.swap (by decide)
  exact hsecond.swap (by decide)

include hw hrel in
theorem settles_image (hversion : version = "4" ∨ version = "5") (hname : Text.ends name ".png" = true) :
    s.Settles (ImageFile.encode version true video given (s.path (front ++ [name]))) (front ++ [name]) := by
  have hfile := fileName_imageName (fileName hrel hname)
  have hout : Output (unflatten ((s.path (front ++ [name])).rename imageName)).name := by
    rw [s.rename_path front name imageName (hfile.valid (by decide)), path_concat]
    exact output_unflatten _ _ hfile
  unfold ImageFile.encode
  refine settles_after hw (by grind) fun subject => settles_after hw (by grind) fun palette => ?_
  rcases hversion with rfl | rfl
  · exact settles_before hw (settles_encode4 video palette hw hrel subject _ hname) fun data => calm_writeOctets hout _
  · exact settles_before hw (settles_encode5 video palette hw hrel) fun data => calm_writeOctets hout _

/-! ### Commands -/

/-- Work that changes neither stamps nor the walk. -/
def Apart (x : Work α) : Prop := ∀ w a w', Gives x w a w' → rest w' = rest w

@[grind ←] theorem apart_of_looks (hx : Looks x) : Apart x := by
  intro w a w' hg
  rw [hx.eq hg]

@[grind ←] theorem apart_get : Apart get := by
  intro w a w' hg
  rw [(gives_get.mp hg).2]

@[grind ←] theorem apart_bind {f : α → Work β} (hx : Apart x) (hf : ∀ a, Apart (f a)) : Apart (x >>= f) := by
  intro w b w' hg
  obtain ⟨a, v, ha, hb⟩ := gives_bind.mp hg
  exact (hf a v b w' hb).trans (hx w a v ha)

theorem apart_modify {f : Workspace → Workspace} (hf : ∀ w, rest (f w) = rest w) : Apart (modify f : Work Unit) := by
  intro w a w' hg
  obtain rfl := gives_modify.mp hg
  exact hf w

@[grind ←] theorem apart_writeBytes (bs : List UInt8) : Apart (writeBytes p bs) := by
  intro w a w' hg
  obtain ⟨files, -, rfl⟩ := gives_change.mp hg
  rfl

@[grind ←] theorem apart_runTool : Apart (runTool tool arguments) := by
  intro w a w' hg
  cases hg
  rfl

@[grind ←] theorem apart_runReported : Apart (runReported tool arguments) :=
  apart_bind (apart_runTool tool arguments) fun _ => apart_modify fun _ => rfl

@[grind ←] theorem apart_record (line : String) : Apart (record line) := apart_modify fun _ => rfl

theorem apart_compile (version : String) (p : Path) : Apart (compile version p) := by grind [compile]

theorem apart_runPacker : Apart (runPacker arguments) := by grind [runPacker]

/-- Work that leaves the tree sound and watched files as they are. -/
def Spares (s : Site) (x : Work α) : Prop := ∀ w a w', s.Ready w → Gives x w a w' →
  w'.files.Sound ∧ FileTree.Agree Watched s.tree w'.files

theorem Spares.calm (hx : s.Spares x) (hapart : Apart x) : s.Calm x := by
  intro w a w' h hg
  obtain ⟨hsound, hagree⟩ := hx w a w' h hg
  exact h.gentle_of hsound hagree (hapart w a w' hg)

theorem spares_runPacker (hown : s.programs.own = false) (arguments : String) : s.Spares (runPacker arguments) := by
  intro w a w' h hg
  rw [runPacker, Gives, result_get] at hg
  obtain ⟨_, v, hrecord, hg⟩ := gives_bind.mp hg
  obtain rfl := gives_modify.mp hrecord
  rw [h.programs, hown] at hg
  obtain ⟨-, rfl⟩ := gives_pure.mp hg
  exact ⟨h.sound, h.agree⟩

theorem spares_compile (hown : s.programs.own = false) (version : String) {p : Path}
    (hp : Output p.name) : s.Spares (compile version p) := by
  intro w a w' h hg
  rw [compile, Gives, result_get] at hg
  obtain ⟨_, v, hrecord, hg⟩ := gives_bind.mp hg
  have hv := (calm_modify fun _ => ⟨rfl, rfl⟩ : s.Calm (record _)) w _ v h hrecord
  rw [h.programs, hown] at hg
  cases hcode : s.programs.compiled with
  | none =>
    rw [hcode] at hg
    obtain ⟨-, rfl⟩ := gives_pure.mp hg
    exact ⟨hv.ready.sound, hv.ready.agree⟩
  | some code =>
    rw [hcode] at hg
    have hready := (calm_writeBytes hp code v _ w' hv.ready hg).ready
    exact ⟨hready.sound, hready.agree⟩

/-! ### Scripts -/

def compiledPath (version : String) (p : Path) : Path :=
  p.rename (Text.swap · ".txt" ((Script.Role.ofName p.name).ending version))

theorem role_of_gives {p : Path} {r : Script.Role} {w w' : Workspace}
    (h : Gives (ScriptFile.role p) w r w') : r = Script.Role.ofName p.name := by
  unfold ScriptFile.role at h
  dsimp only at h
  split at h
  · exact (gives_pure.mp h).1.symm
  · exact (gives_pure.mp h).1.symm

@[grind ←] theorem calm_role : s.Calm (ScriptFile.role p) := by grind [ScriptFile.role]

theorem output_compiledPath (hversion : version = "4" ∨ version = "5") (h : FileName ".txt" name)
    (hunknown : Script.Role.ofName name = .unknown → Output (Text.swap name ".txt" "")) :
    Output (compiledPath version (s.path (front ++ [name]))).name := by
  rw [compiledPath, name_path]
  exact s.output_rename front name _ (output_middle h hversion hunknown)

include hw hrel in
theorem settles_script (hversion : version = "4" ∨ version = "5") (hname : Text.ends name ".txt" = true)
    (hunknown : Script.Role.ofName name = .unknown → Output (Text.swap name ".txt" ""))
    (hcompile : s.Calm (compile version (compiledPath version (s.path (front ++ [name]))))) :
    s.Settles (ScriptFile.encode version true (s.path (front ++ [name]))) (front ++ [name]) := by
  have hfile := fileName hrel hname
  have hcode (r : Script.Role) : Output ((s.path (front ++ [name])).rename (ScriptFile.codeName r)).name :=
    s.output_rename front name _ (output_codeName r hfile)
  have hmiddle : Output (compiledPath version (s.path (front ++ [name]))).name :=
    output_compiledPath hversion hfile hunknown
  apply settles_after hw (calm_say _)
  intro _
  apply settles_knowing hw (calm_role _) role_of_gives
  rintro r rfl
  apply settles_after hw (calm_of_looks (looks_text _))
  intro script
  have hrest : s.Settles (do
      let source ← (Script.Listing.unescape script : Except Fault (List UInt8))
      let p := s.path (front ++ [name])
      let middle := compiledPath version p
      writeBytes middle source
      compile version middle
      let code ← bytes middle
      let code ← ((Script.Role.ofName p.name).retagBytes version code : Except Fault (List UInt8))
      writeBytes (p.rename (ScriptFile.codeName (Script.Role.ofName p.name))) code
      stamp p) (front ++ [name]) := by
    grind
  dsimp only
  split
  · exact settles_after hw (calm_of_looks (looks_throw _)) fun _ => hrest
  · exact hrest

/-! ### Pictures that are taken for something else -/

/-- Work that cannot succeed while a file of the site is there. -/
def Fails (s : Site) (x : Work α) (rel : List String) : Prop := ∀ w a w', s.Ready w → s.HasFile w rel → ¬ Gives x w a w'

theorem Fails.settles (h : s.Fails x rel) : s.Settles x rel :=
  fun w a w' hw hfile hg => absurd hg (h w a w' hw hfile)

theorem fails_bind (h : s.Fails x rel) (f : α → Work β) : s.Fails (x >>= f) rel := by
  intro w b w' hw hfile hg
  obtain ⟨a, v, ha, -⟩ := gives_bind.mp hg
  exact h w a v hw hfile ha

theorem fails_text {pic : Picture} {time : Int} (hw : Watched name)
    (hfile : s.tree.lookup (s.src ++ (front ++ [name])) = some (.file (.picture pic) time)) :
    s.Fails (text (s.path (front ++ [name]))) (front ++ [name]) := by
  intro w a w' h _ hg
  obtain ⟨htext, -⟩ := gives_look.mp hg
  rw [FileTree.text, FileTree.bytes, FileTree.content, h.get ((h.lookup_tree hw).mpr hfile)] at htext
  cases htext

/-! ### Files named as they are decoded -/

/-- The names that decoders give to files of a kind. A picture may be taken for something else by its
name, since folders are named in it. -/
def NamedFor (c : Content) (name : String) : Kind → Prop
  | .script => (∃ pic, c = .picture pic) ∨ Text.ends name ".txt" = true
      ∧ (Script.Role.ofName name = .unknown → Output (Text.swap name ".txt" ""))
  | .box | .scale => (∃ pic, c = .picture pic) ∨ Text.ends name ".json" = true
  | .palette | .image | .zplane => Text.ends name ".png" = true
  | .costume => CostumeName name
  | .other => True

def encoder (version video : String) (palette : Palette) (p : Path) : Kind → Work Unit
  | .script => ScriptFile.encode version true p
  | .box => BoxFile.encode version true p
  | .scale => ScaleFile.encode version true p
  | .image => ImageFile.encode version true video palette p
  | .zplane => ImageFile.encode version true "zplane" palette p
  | .costume => CostumeFile.encode version true video palette p
  | .palette | .other => pure ()

theorem settles_encoder {kind : Kind} {c : Content} {time : Int} (hversion : version = "4" ∨ version = "5") (hw : Watched name)
    (hfile : s.tree.lookup (s.src ++ (front ++ [name])) = some (.file c time))
    (hnamed : NamedFor c name kind) (hpalette : kind ≠ .palette) (hother : kind ≠ .other)
    (hcompile : kind = .script → (∃ bs, c = .data bs) →
    s.Calm (compile version (compiledPath version (s.path (front ++ [name]))))) :
    s.Settles (encoder version video palette (s.path (front ++ [name])) kind) (front ++ [name]) := by
  have hrel : ∀ n ∈ front ++ [name], ValidName n := fun n hn =>
    s.sound.valid hfile n (mem_append_right _ hn)
  have hnot : ∀ {β : Type} (f : String → Work β), (∃ pic, c = .picture pic) →
      s.Fails (text (s.path (front ++ [name])) >>= f) (front ++ [name]) := by
    rintro β f ⟨pic, rfl⟩
    exact fails_bind (fails_text hw hfile) f
  cases kind with
  | script =>
    cases c with
    | picture pic =>
      apply settles_after hw (calm_say _)
      intro _
      exact settles_after hw (calm_role _) fun _ => (hnot _ ⟨pic, rfl⟩).settles
    | data bs =>
      obtain ⟨hname, hunknown⟩ := hnamed.resolve_left fun ⟨pic, hpic⟩ => nomatch hpic
      exact settles_script hw hrel hversion hname hunknown (hcompile rfl ⟨bs, rfl⟩)
  | box | scale =>
    rcases hnamed with hpic | hname
    · exact settles_after hw (calm_say _) fun _ => (fails_bind (hnot _ hpic) _).settles
    · exact settles_document hw hrel hname
  | palette => exact absurd rfl hpalette
  | zplane => exact settles_image "zplane" palette hw hrel hversion hnamed
  | image => exact settles_image video palette hw hrel hversion hnamed
  | costume => exact settles_costume hw hrel version video palette hnamed
  | other => exact absurd rfl hother

end ScummKit.Site
