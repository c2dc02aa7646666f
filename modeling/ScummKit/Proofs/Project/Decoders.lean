import ScummKit.Project.Crawl
import ScummKit.Proofs.Project.PictureRuns

/-!
# What decoders need and what they store

Decoders are handed all they need: they are `Blind` to what a walk has found out, so they do the same whenever a walk starts them. They store files for editing only (`Edits`), so the files that a walk is after are as they were.
-/

namespace ScummKit

open Text Asset Site List

variable {x : Work α}
variable (version : String) (stamped : Bool) (p : Path) (video : String) {name : String}
variable (line : String) (palette : Palette) (given : Palette) (pic : Picture)

namespace Work

/-! ### Blind work -/

/-- Work that neither uses nor changes what a walk has found out. -/
def Blind (x : Work α) : Prop := ∀ c q w, result x (walking c q w) = ((result x w).1, walking c q (result x w).2)

theorem Looks.blind (hx : Looks x) : Blind x := fun c q w =>
  Prod.ext ((hx w).2 c q) (by rw [(hx _).1, (hx w).1])

@[grind ←] theorem blind_pure (a : α) : Blind (pure a) := (looks_pure a).blind

@[grind ←] theorem blind_throw (e : Fault) : Blind (throw e : Work α) := (looks_throw e).blind

@[grind ←] theorem blind_lift (e : Except Fault α) : Blind (liftM e) := (looks_lift e).blind

theorem blind_modify {f : Workspace → Workspace} (hf : ∀ c q w, f (walking c q w) = walking c q (f w)) :
    Blind (modify f : Work Unit) := by
  intro c q w
  change (Except.ok (), f (walking c q w)) = (.ok (), walking c q (f w))
  rw [hf]

@[grind ←] theorem blind_say : Blind (say line) := blind_modify fun _ _ _ => rfl

@[grind ←] theorem blind_bind {f : α → Work β} (hx : Blind x) (hf : ∀ a, Blind (f a)) : Blind (x >>= f) := by
  intro c q w
  rw [result_bind, result_bind, hx c q w]
  rcases result x w with ⟨r, v⟩
  cases r with
  | error e => rfl
  | ok a => exact hf a c q v

theorem blind_get {f : Workspace → Work β} (hsame : ∀ c q w, f (walking c q w) = f w) (hf : ∀ w, Blind (f w)) :
    Blind (get >>= f) := by
  intro c q w
  rw [result_get, hsame]
  exact hf w c q w

theorem Blind.crawl (hx : Blind x) {w w' : Workspace} {a : α} (h : Gives x w a w') : w'.crawl = w.crawl ∧ w'.queue = w.queue := by
  have hw := hx w.crawl w.queue w
  change result x w = _ at hw
  rw [h] at hw
  have hv : w' = walking w.crawl w.queue w' := congrArg Prod.snd hw
  rw [hv]
  exact ⟨rfl, rfl⟩

@[grind ←] theorem blind_change (f : FileTree → Except Fault FileTree) : Blind (change f) :=
  blind_bind (looks_look f).blind fun _ => blind_modify fun _ _ _ => rfl

theorem blind_forM {f : α → Work PUnit} {xs : List α} (hf : ∀ x ∈ xs, Blind (f x)) : Blind (xs.forM f) := by
  induction xs with
  | nil => exact blind_pure _
  | cons x xs ih =>
    exact blind_bind (hf x mem_cons_self) fun _ => ih fun y hy => hf y (mem_cons_of_mem x hy)

@[grind ←] theorem blind_writePicture : Blind (writePicture p pic) := by grind [writePicture]

@[grind ←] theorem blind_setStamps (table : Json) : Blind (setStamps table) := by
  apply blind_modify
  intro c q w
  cases hown : w.ledger.own with
  | none => simp [walking, hown]
  | some old => simp [walking, hown]

@[grind ←] theorem blind_stamp : Blind (stamp p) :=
  blind_bind (looks_stampName p).blind fun _ => blind_bind (looks_timeOf p).blind fun _ =>
    blind_bind looks_stamps.blind fun _ => blind_bind (blind_lift _) fun _ =>
      blind_bind (blind_setStamps _) fun _ => blind_modify fun _ _ _ => rfl

@[grind ←] theorem blind_writeText (s : String) : Blind (writeText p s) := blind_change _

theorem blind_stamped : Blind (do if stamped then stamp p) := by
  cases stamped with
  | true => exact blind_stamp p
  | false => exact blind_pure ()

@[grind ←] theorem blind_record : Blind (record line) := blind_modify fun _ _ _ => rfl

@[grind ←] theorem blind_decompile : Blind (decompile version p) :=
  blind_get (fun _ _ _ => rfl) fun _ => blind_bind (blind_record _) fun _ => blind_pure _

@[grind ←] theorem blind_runTool (tool : Tool.Run) (arguments : String) : Blind (runTool tool arguments) := fun _ _ _ => rfl

@[grind ←] theorem blind_describe : Blind (describe p) := by
  apply blind_get fun _ _ _ => rfl
  intro w
  apply blind_bind (blind_record _)
  intro _
  split
  · exact blind_bind (blind_runTool _ _) fun _ => blind_pure _
  · exact blind_pure _

end Work

open Work

/-! ### Blind decoders -/

theorem blind_decodePalette : Blind (PaletteFile.decode version stamped p) := by grind [PaletteFile.decode, Looks.blind]

theorem blind_decodeBox : Blind (BoxFile.decode version stamped p) := by grind [BoxFile.decode, Looks.blind]

theorem blind_decodeScale : Blind (ScaleFile.decode version stamped p) := by grind [ScaleFile.decode, Looks.blind]

@[grind ←] theorem blind_role : Blind (ScriptFile.role p) := by grind [ScriptFile.role]

@[grind ←] theorem blind_describeObject (script : String) (p : Path) : Blind (ScriptFile.describeObject script p) :=
  blind_bind (blind_describe p) fun _ => blind_lift _

theorem blind_decodeScript : Blind (ScriptFile.decode version stamped p) := by grind [ScriptFile.decode]

@[grind ←] theorem blind_save : Blind (ImageFile.save stamped p pic) :=
  blind_bind (blind_writePicture p pic) fun _ => blind_stamped stamped p

@[grind ←] theorem blind_decode4 (s : Option Subject) (p : Path)
    (data : List Int) (width height : Int) : Blind (ImageFile.decode4 stamped video palette s p data width height) := by grind [ImageFile.decode4]

@[grind ←] theorem blind_decode5 (p : Path) (data : List Int)
    (width height : Int) : Blind (ImageFile.decode5 stamped video palette p data width height) := by grind [ImageFile.decode5]

theorem blind_decodeImage (p : Path) :
    Blind (ImageFile.decode version stamped video given p) := by grind [ImageFile.decode, Looks.blind]

theorem blind_decodeCostume (p : Path) : Blind (CostumeFile.decode version stamped video given p) := by
  refine blind_bind (blind_say _) fun _ => blind_bind (looks_octets p).blind fun data => ?_
  refine blind_bind (looks_costumePalette _ _ _ _).blind fun palette => ?_
  dsimp only
  split
  · grind
  · grind

/-! ### Files for editing -/

/-- A name under which a decoder may store its result. -/
def Edited (name : String) : Prop :=
  ValidName name ∧ (ends name ".txt" = true ∨ ends name ".json" = true ∨ ends name ".png" = true)

theorem edited_txt (h : FileName ".txt" name) : Edited name := ⟨h.valid (by decide), Or.inl h.ends⟩

theorem edited_json (h : FileName ".json" name) : Edited name := ⟨h.valid (by decide), Or.inr (Or.inl h.ends)⟩

theorem edited_png (h : FileName ".png" name) : Edited name := ⟨h.valid (by decide), Or.inr (Or.inr h.ends)⟩

abbrev Work.Edits (x : Work α) : Prop := StoresIn (fun q => Edited q.name) x

namespace Work

theorem keeps_stamped : Keeps (do if stamped then stamp p) := by
  cases stamped with
  | true => exact keeps_stamp p
  | false => exact keeps_pure ()

@[grind ←] theorem keeps_record : Keeps (record line) := keeps_modify fun _ => rfl

theorem run_describe (args : List String) (files : FileTree) : (Tool.Describe.run args files).2 = files := by
  unfold Tool.Describe.run
  repeat' split
  all_goals rfl

@[grind ←] theorem keeps_describe : Keeps (describe p) := by
  apply keeps_bind keeps_get
  intro w
  apply keeps_bind (keeps_record _)
  intro _
  split
  · exact fun v => run_describe _ v.files
  · exact keeps_pure _

end Work

@[grind ←] theorem keeps_role : Keeps (ScriptFile.role p) := by
  unfold ScriptFile.role
  dsimp only
  split
  · exact keeps_bind (keeps_say _) fun _ => keeps_pure _
  · exact keeps_pure _

section Names

variable {p : Path} {name : String}

theorem edited_rename {f : String → String} (hname : p.name ≠ "") (h : Edited (f p.name)) : Edited (p.rename f).name := by
  rw [parts_eq hname, Path.rename_of_valid _ _ _ h.1]
  rwa [Path.name_concat]

theorem edited_listingName (role : Script.Role) (version : String) (h : FileName ".dmp" name) :
    Edited (ScriptFile.listingName role version name) := by
  have hfile : FileName ".txt" (swap name ".dmp" ".txt") := h.swap (by decide)
  unfold ScriptFile.listingName
  split
  · exact edited_txt (hfile.swap (by decide))
  · exact edited_txt (hfile.swap (by decide))
  · exact edited_txt hfile

theorem fileName_costume {new tail : String} (h : FileName ".dmp" name) (hswaps : Swaps ".dmp" new ".dmp" new)
    (htail : tail.toList <:+ new.toList) : FileName tail ("_" ++ swap name ".dmp" new) := by
  have hfile := h.swap hswaps
  obtain ⟨front, hfront⟩ := ends_iff.mp hfile.ends
  refine FileName.of_suffix ⟨?_, ends_iff.mpr ⟨"_".toList ++ front, ?_⟩⟩ htail
  · rw [String.toList_append, mem_append, not_or]
    exact ⟨by decide, hfile.slash⟩
  · rw [String.toList_append, hfront, append_assoc]

theorem edited_pictures {version : String} {kind : Subject} {q : Path} (hvalid : ∀ n ∈ p.parts, ValidName n)
    (hends : ends p.name ".dmp" = true) (hq : Pictures version kind p q) : Edited q.name := by
  obtain ⟨hname, hfile⟩ := name_of_ends hvalid hends
  by_cases hroom : version = "4" ∧ kind = .room
  · obtain ⟨rfl, rfl⟩ := hroom
    obtain ⟨picture, rfl, hpicture, -⟩ := pictures_room hfile hname hq
    rw [Path.name_concat]
    exact edited_png hpicture.toFileName
  · obtain ⟨target, hok, hq⟩ := hq
    obtain ⟨new, hpicture, hok, -⟩ := exists_moving hfile hroom hok
    obtain ⟨front, dirs, hp, hdirs, -, hflat⟩ := exists_flatten hpicture hname hok
    have hne : dirs ≠ [] := length_pos_iff.mp (hdirs ▸ raised_pos version)
    have hmoved := fileName_moved hne (valid_moved hp hvalid) hpicture.toFileName
    obtain ⟨rfl, -⟩ := encodedPath_moved hne hp hvalid hpicture hflat
    rcases hq with rfl | ⟨-, rfl⟩
    · rw [Path.name_concat]
      exact edited_png hmoved
    · have hmask : FileName ".png" (swap _ "_image" "_zplane") := hmoved.swap (by decide)
      rw [rename_swap _ _ hmask, Path.name_concat]
      exact edited_png hmask

end Names

/-! ### What decoders store -/

section Edits

variable {p : Path} (hvalid : ∀ n ∈ p.parts, ValidName n) (hends : ends p.name ".dmp" = true)

include hvalid hends

theorem edits_decodePalette (version : String) (stamped : Bool) : Edits (PaletteFile.decode version stamped p) := by
  obtain ⟨hname, hfile⟩ := name_of_ends hvalid hends
  have hpicture : Edited (p.rename (swap · ".dmp" ".png")).name := edited_rename hname (edited_png (hfile.swap (by decide)))
  unfold PaletteFile.decode
  grind

theorem edits_document {α : Type} {line : String} {f : List Int → Except Fault α} {g : α → String} (stamped : Bool) : Edits (do
      say line
      let data ← octets p
      let made ← liftM (f data)
      let target := p.rename (swap · ".dmp" ".json")
      writeText target (g made)
      if stamped then stamp target) := by
  obtain ⟨hname, hfile⟩ := name_of_ends hvalid hends
  have htable : Edited (p.rename (swap · ".dmp" ".json")).name := edited_rename hname (edited_json (hfile.swap (by decide)))
  grind

theorem edits_decodeScript (version : String) (stamped : Bool) : Edits (ScriptFile.decode version stamped p) := by
  obtain ⟨hname, hfile⟩ := name_of_ends hvalid hends
  intro _
  apply storesIn_bind (keeps_role p).storesIn
  intro role
  apply storesIn_bind (keeps_bind keeps_get fun _ => keeps_bind (keeps_record _) fun _ => keeps_pure _).storesIn
  intro listing
  have hstore (script : String) : Edits (do
      writeText (p.rename (ScriptFile.listingName role version)) script
      if stamped then stamp (p.rename (ScriptFile.listingName role version))) :=
    storesIn_bind (storesIn_change (edited_rename hname (edited_listingName role version hfile)) _) fun _ =>
      (keeps_stamped stamped _).storesIn
  dsimp only
  split
  · apply storesIn_bind (keeps_lift _).storesIn
    intro named
    split
    · exact storesIn_bind (keeps_bind (keeps_describe p) fun _ => keeps_lift _).storesIn hstore
    · exact storesIn_bind (keeps_pure _).storesIn hstore
  · exact storesIn_bind (keeps_pure _).storesIn hstore

theorem edits_decodeImage (version : String) (stamped : Bool) (video : String) (given : Palette) :
    Edits (ImageFile.decode version stamped video given p) := by
  intro w u w' h
  obtain ⟨kind, stored, -, hstored, hpictures⟩ := ImageFile.stores_decode h
  exact ⟨stored, hstored, fun q hq => edited_pictures hvalid hends (hpictures q hq)⟩

theorem edits_decodeCostume (version : String) (stamped : Bool) (video : String) (given : Palette) :
    Edits (CostumeFile.decode version stamped video given p) := by
  obtain ⟨hname, hfile⟩ := name_of_ends hvalid hends
  have hanimations : Edited (p.rename fun name => "_" ++ swap name ".dmp" "_animdata.json").name :=
    edited_rename hname (edited_json (fileName_costume hfile (by decide) (by decide)))
  have hsheet : Edited (p.rename fun name => "_" ++ swap name ".dmp" "_spritesheet.png").name :=
    edited_rename hname (edited_png (fileName_costume hfile (by decide) (by decide)))
  refine storesIn_bind (keeps_say _).storesIn fun _ => storesIn_bind (looks_octets p).keeps.storesIn fun data => ?_
  refine storesIn_bind (looks_costumePalette _ _ _ _).keeps.storesIn fun palette => ?_
  dsimp only
  split
  · grind
  · grind

end Edits

end ScummKit
