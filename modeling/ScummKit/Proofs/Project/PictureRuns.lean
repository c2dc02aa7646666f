import ScummKit.Proofs.Project.PicturePaths

/-!
# Where images are decoded to and encoded to

`Stores` follows the files that work stores, and `Keeps` is for work that stores none. Decoding an image stores its picture, and in version 4 perhaps a mask; encoding stores at one path only, and `encode_decoded_path` says when that is the path of the image.
-/

namespace ScummKit

open Text Asset Site List
variable {f : α → Work β} (picture mask : Path) {width height : Int} {s : Option Subject}
variable {palette : Palette}

/-! ### What work stores -/

/-- Files are stored at some paths, one after the other, and nothing else in a tree changes. -/
inductive Stores : List Path → FileTree → FileTree → Prop
  | nil (t : FileTree) : Stores [] t t
  | cons {p : Path} {c : Content} {ps : List Path} {t t' t'' : FileTree} (write : t.write p c = .ok t')
      (rest : Stores ps t' t'') : Stores (p :: ps) t t''

theorem Stores.append {ps qs : List Path} {t t' t'' : FileTree} (h : Stores ps t t') (h' : Stores qs t' t'') :
    Stores (ps ++ qs) t t'' := by
  induction h with
  | nil t => exact h'
  | cons write _ ih => exact .cons write (ih h')

theorem Stores.ne_nil {stored : List Path} {t t' : FileTree} (h : Stores stored t t')
    (hne : t.entries.length ≠ t'.entries.length) : stored ≠ [] := by
  rintro rfl
  cases h
  exact hne rfl

namespace Work

variable {x : Work α}

/-- Work that leaves all files as they are, also if it fails. -/
def Keeps (x : Work α) : Prop := ∀ w, (result x w).2.files = w.files

@[grind ←] theorem Looks.keeps (hx : Looks x) : Keeps x := fun w =>
  congrArg Workspace.files (hx w).1

@[grind ←] theorem keeps_pure (a : α) : Keeps (pure a) := (looks_pure a).keeps

@[grind ←] theorem keeps_get : Keeps get := fun _ => rfl

theorem keeps_modify {f : Workspace → Workspace} (hf : ∀ w, (f w).files = w.files) : Keeps (modify f) := hf

@[grind ←] theorem keeps_say (line : String) : Keeps (say line) := keeps_modify fun _ => rfl

@[grind ←] theorem keeps_lift (e : Except Fault α) : Keeps (liftM e) := (looks_lift e).keeps

@[grind ←] theorem keeps_bind (hx : Keeps x) (hf : ∀ a, Keeps (f a)) : Keeps (x >>= f) := by
  intro w
  have hw := hx w
  rw [result_bind]
  rcases hresult : result x w with ⟨r, v⟩
  rw [hresult] at hw
  cases r with
  | error e => exact hw
  | ok a => exact (hf a v).trans hw

theorem Keeps.files (hx : Keeps x) {w w' : Workspace} {a : α} (h : Gives x w a w') : w'.files = w.files := by
  have hw := hx w
  rwa [h] at hw

@[grind ←] theorem keeps_setStamps (table : Json) : Keeps (setStamps table) := by
  apply keeps_modify
  intro w
  split <;> rfl

@[grind ←] theorem keeps_stamp (p : Path) : Keeps (stamp p) := by
  have hchanged : Keeps (modify fun w => { w with ledger := { w.ledger with changed := true } }) :=
    keeps_modify fun _ => rfl
  grind [stamp]

/-- Work stores files at paths of one kind only. -/
def StoresIn (P : Path → Prop) (x : Work α) : Prop := ∀ w a w', Gives x w a w' →
  ∃ stored, Stores stored w.files w'.files ∧ ∀ q ∈ stored, P q

section StoresIn

variable {P : Path → Prop} {p : Path}

@[grind ←] theorem Keeps.storesIn (hx : Keeps x) : StoresIn P x := by
  intro w a w' h
  rw [hx.files h]
  exact ⟨[], .nil _, fun q hq => nomatch hq⟩

@[grind ←] theorem storesIn_bind (hx : StoresIn P x) (hf : ∀ a, StoresIn P (f a)) : StoresIn P (x >>= f) := by
  intro w b w' h
  obtain ⟨a, v, ha, hb⟩ := gives_bind.mp h
  obtain ⟨stored, hstored, hnames⟩ := hx w a v ha
  obtain ⟨stored', hstored', hnames'⟩ := hf a v b w' hb
  refine ⟨stored ++ stored', hstored.append hstored', fun q hq => ?_⟩
  exact (mem_append.mp hq).elim (hnames q) (hnames' q)

theorem storesIn_lift {e : Except Fault α} (hf : ∀ a, e = .ok a → StoresIn P (f a)) : StoresIn P (liftM e >>= f) := by
  intro w b w' h
  obtain ⟨a, v, ha, hb⟩ := gives_bind.mp h
  obtain ⟨he, rfl⟩ := gives_lift.mp ha
  exact hf a he _ b w' hb

theorem storesIn_change (hp : P p) (c : Content) : StoresIn P (change (·.write p c)) := by
  intro w u w' h
  obtain ⟨files, hwrite, rfl⟩ := gives_change.mp h
  exact ⟨[p], .cons hwrite (.nil _), fun q hq => mem_singleton.mp hq ▸ hp⟩

@[grind ←] theorem storesIn_writeText (hp : P p) (s : String) : StoresIn P (writeText p s) := storesIn_change hp _

@[grind ←] theorem storesIn_writePicture (hp : P p) (pic : Picture) : StoresIn P (writePicture p pic) := by
  rw [writePicture]
  split
  · exact (looks_throw _).keeps.storesIn
  · split
    · exact (looks_throw _).keeps.storesIn
    · exact storesIn_change hp _

end StoresIn

/-- Work stores files at one path only, and does store one if it succeeds. -/
def StoresAt (p : Path) (x : Work Unit) : Prop := ∀ w, ∃ n,
  Stores (List.replicate n p) w.files (result x w).2.files ∧ ((result x w).1 = .ok () → 0 < n)

@[grind ←] theorem storesAt_bind {p : Path} {f : α → Work Unit} (hx : Keeps x) (hf : ∀ a, StoresAt p (f a)) :
    StoresAt p (x >>= f) := by
  intro w
  have hw := hx w
  rw [result_bind]
  rcases hresult : result x w with ⟨r, v⟩
  rw [hresult] at hw
  cases r with
  | error e => exact ⟨0, hw ▸ .nil _, fun h => nomatch h⟩
  | ok a => exact hw ▸ hf a v

@[grind ←] theorem storesAt_writeOctets (p : Path) (xs : List Json) : StoresAt p (writeOctets p xs) := by
  have hwrite (bs : List UInt8) (w : Workspace) : (∃ files, w.files.write p (.data bs) = .ok files
      ∧ result (writeBytes p bs) w = (.ok (), { w with files })) ∨ ∃ e, result (writeBytes p bs) w = (.error e, w) := by
    rw [writeBytes, change, result_bind, result_look]
    cases hfiles : w.files.write p (.data bs) with
    | error e => exact Or.inr ⟨e, rfl⟩
    | ok files => exact Or.inl ⟨files, rfl, rfl⟩
  intro w
  rw [writeOctets, result_bind]
  obtain ⟨files, hfiles, hresult⟩ | ⟨e, hresult⟩ := hwrite [] w
  · rw [hresult]
    dsimp only
    rw [result_bind, result_lift]
    cases Json.octets xs with
    | error e => exact ⟨1, .cons hfiles (.nil _), fun h => by cases h⟩
    | ok bs =>
      dsimp only
      obtain ⟨files', hfiles', hresult'⟩ | ⟨e, hresult'⟩ := hwrite bs { w with files }
      · rw [hresult']
        exact ⟨2, .cons hfiles (.cons hfiles' (.nil _)), fun _ => Nat.two_pos⟩
      · rw [hresult']
        exact ⟨1, .cons hfiles (.nil _), fun h => by cases h⟩
  · rw [hresult]
    exact ⟨0, .nil _, fun h => by cases h⟩

end Work

namespace ImageFile

open Work

/-! ### What encoding stores -/

@[grind ←] theorem keeps_tag5 (video : String) (p : Path) : Keeps (tag5 video p) := by
  have hdigit : Keeps do return [0x5a, 0x50, 0x30, (← get).maskDigit] :=
    keeps_bind keeps_get fun _ => keeps_pure _
  unfold tag5
  split
  · exact keeps_pure _
  · split
    · exact keeps_bind (keeps_modify fun _ => rfl) fun _ => hdigit
    · exact hdigit
  · exact keeps_pure _

@[grind ←] theorem keeps_announce : Keeps (announce picture mask) := by grind [announce]

@[grind ←] theorem keeps_stampPair : Keeps (stampPair picture mask) := by grind [stampPair]

@[grind ←] theorem keeps_encode4 (stamped : Bool) (video : String) (palette : Palette) (s : Option Subject) (target p : Path) :
    Keeps (encode4 stamped video palette s target p) := by
  unfold encode4
  split
  · exact (looks_throw _).keeps
  · refine keeps_bind (keeps_announce _ _) fun _ => keeps_bind (looks_look _).keeps fun pic => keeps_bind (keeps_lift _) ?_
    grind

@[grind ←] theorem keeps_encode5 (stamped : Bool) (video : String) (palette : Palette) (p : Path) :
    Keeps (encode5 stamped video palette p) := by grind [encode5]

theorem storesAt_encode (version : String) (stamped : Bool) (video : String) (given : Palette) (q : Path) :
    StoresAt (encodedPath q) (encode version stamped video given q) := by
  apply storesAt_bind (keeps_lift _)
  intro s
  apply storesAt_bind (looks_imagePalette _ _ _ _ _).keeps
  intro palette
  split
  · exact storesAt_bind (keeps_encode4 _ _ _ _ _ _) fun _ => storesAt_writeOctets _ _
  · exact storesAt_bind (keeps_encode5 _ _ _ _) fun _ => storesAt_writeOctets _ _
  · exact storesAt_bind (keeps_pure _) fun _ => storesAt_writeOctets _ _

/-! ### What decoding stores -/

variable {w w' : Workspace} {version video : String} {stamped : Bool} {p : Path} {u : Unit} {data : List Int}

@[grind ←] theorem storesIn_save {P : Path → Prop} (hp : P p) (pic : Picture) : StoresIn P (save stamped p pic) := by
  refine storesIn_bind (storesIn_writePicture hp pic) fun _ => Keeps.storesIn ?_
  cases stamped <;> grind

theorem storesIn_decode4 {kind : Subject} :
    StoresIn (Pictures "4" kind p) (decode4 stamped video palette (some kind) p data width height) := by
  -- the mask is stored beside the picture, wherever that is
  have hpictures {target : Path} (h : picturePath "4" kind p = .ok target) :
      Pictures "4" kind p target ∧ Pictures "4" kind p (target.rename (swap · "_image" "_zplane")) :=
    ⟨⟨target, h, Or.inl rfl⟩, target, h, Or.inr ⟨rfl, rfl⟩⟩
  rw [picturePath] at hpictures
  unfold decode4
  extract_lets header plain
  refine storesIn_lift fun word _ => ?_
  split
  · exact (keeps_pure _).storesIn
  refine storesIn_lift fun length _ => storesIn_lift fun r _ => ?_
  dsimp only
  split
  · refine storesIn_lift fun target htarget => ?_
    grind
  · refine storesIn_lift fun target htarget => ?_
    grind

theorem storesIn_decode5 (kind : Subject) :
    StoresIn (Pictures "5" kind p) (decode5 stamped video palette p data width height) := by
  refine storesIn_lift fun r _ => ?_
  dsimp only
  split
  · exact (keeps_pure _).storesIn
  · refine storesIn_lift fun target htarget => storesIn_save ⟨target, ?_, Or.inl rfl⟩ _
    exact htarget

theorem headerPath?_eq_some {header : Path} (h : headerPath? p version s = .ok (some header)) :
    (∃ kind, s = some kind) ∧ (version = "4" ∨ version = "5") := by
  unfold headerPath? at h
  split at h
  · exact ⟨⟨_, rfl⟩, Or.inl rfl⟩
  · exact ⟨⟨_, rfl⟩, Or.inr rfl⟩
  · exact ⟨⟨_, rfl⟩, Or.inl rfl⟩
  · exact ⟨⟨_, rfl⟩, Or.inr rfl⟩
  · cases h

theorem known_of_size {dimensions : Int × Int} (h : Gives (size p version s) w dimensions w') :
    (∃ kind, s = some kind) ∧ (version = "4" ∨ version = "5") ∧ w = w' := by
  obtain ⟨header, v, hheader, hsize⟩ := gives_bind.mp h
  obtain ⟨hpath, rfl⟩ := gives_lift.mp hheader
  cases header with
  | none => exact (gives_throw.mp hsize).elim
  | some header =>
    obtain ⟨⟨kind, rfl⟩, hversion⟩ := headerPath?_eq_some hpath
    refine ⟨⟨kind, rfl⟩, hversion, ?_⟩
    obtain ⟨root, v, hroot, hlift⟩ := gives_bind.mp hsize
    obtain ⟨bs, v', hbytes, hparse⟩ := gives_bind.mp hroot
    calc w = v' := (gives_look.mp hbytes).2
      _ = v := (gives_lift.mp hparse).2
      _ = w' := (gives_lift.mp hlift).2

theorem stores_decode {given : Palette} (h : Gives (decode version stamped video given p) w u w') :
    ∃ kind stored, subject p version = .ok (some kind) ∧ Stores stored w.files w'.files
    ∧ ∀ q ∈ stored, Pictures version kind p q := by
  obtain ⟨_, w₁, hsay, h₁⟩ := gives_bind.mp h
  obtain ⟨data, w₂, hdata, h₂⟩ := gives_bind.mp h₁
  obtain ⟨s, w₃, hlift, h₃⟩ := gives_bind.mp h₂
  obtain ⟨hsubject, rfl⟩ := gives_lift.mp hlift
  obtain ⟨⟨width, height⟩, w₄, hsize, h₄⟩ := gives_bind.mp h₃
  obtain ⟨⟨kind, rfl⟩, hversion, rfl⟩ := known_of_size hsize
  obtain ⟨palette, w₅, hpalette, h₅⟩ := gives_bind.mp h₄
  have hfiles : w₅.files = w.files := calc
    w₅.files = w₂.files := (looks_imagePalette _ _ _ _ _).keeps.files hpalette
    _ = w₁.files := (looks_octets p).keeps.files hdata
    _ = w.files := (keeps_say _).files hsay
  refine ⟨kind, ?_⟩
  rw [← hfiles]
  rcases hversion with rfl | rfl
  · obtain ⟨stored, hstored⟩ := storesIn_decode4 _ _ _ h₅
    exact ⟨stored, hsubject, hstored⟩
  · obtain ⟨stored, hstored⟩ := storesIn_decode5 kind _ _ _ h₅
    exact ⟨stored, hsubject, hstored⟩

/-! ### Rooms of version 4 -/

theorem mem_restored {c : Char} {xs : List Char} (h : c ∈ restored xs) : c ∈ codeEnd ∨ c ∈ xs := by
  have hcleared : ∀ {ys : List Char}, c ∈ cleared ys → c ∈ ys := fun hc =>
    (mem_replaceAfter ((mem_replaceAfter hc).resolve_left not_mem_nil)).resolve_left not_mem_nil
  exact (mem_replaceAfter h).imp_right hcleared

theorem restored_append {ys : List Char} (hmark : '_' ∉ ys) (hend : '.' ∉ ys) (xs : List Char) :
    restored (ys ++ xs) = ys ++ restored xs := by
  unfold restored cleared imageMark maskMark pictureEnd
  rw [replaceAfter_append_of_not_mem hmark, replaceAfter_append_of_not_mem hmark, replaceAfter_append_of_not_mem hend]

theorem subject_unmoved (root : String) (front : List String) {picture : String} {rest : List Char}
    (hfile : FileName ".png" picture) (hplus : '+' ∉ picture.toList) (hstart : picture.toList = ['B', 'M'] ++ rest) :
    subject (encodedPath ⟨root, front ++ [picture]⟩) "4" = .ok none := by
  have hslash := (Site.fileName_imageName hfile).slash
  have hlist : (Site.imageName picture).toList = 'B' :: 'M' :: restored rest := by
    rw [toList_imageName, hstart]
    rfl
  have hplus' : '+' ∉ (Site.imageName picture).toList := by
    rw [toList_imageName]
    exact fun h => (mem_restored h).elim (by decide) hplus
  let left := String.ofList ('M' :: restored rest)
  have hkeep : [left].filter (fun n => n ≠ "" && n ≠ ".") = [left] := by
    have hne : left ≠ "" := fun h => by simpa [left] using congrArg String.toList h
    have hdot : left ≠ "." := fun h => by simpa [left] using congrArg String.toList h
    simp [hne, hdot]
  have hname : (encodedPath ⟨root, front ++ [picture]⟩).name = left := by
    rw [hlist] at hplus' hslash
    rw [encodedPath_eq root front hfile, unflatten]
    simp only [Path.name, getLastD_concat, hlist, drop_one, tail_cons]
    rw [split, String.toList_ofList, splitBy_of_not_mem fun h => hplus' (mem_cons_of_mem _ h), map_singleton, foldl_join, hkeep]
    · simp
    · intro n hn
      rw [mem_singleton.mp hn, String.toList_ofList]
      exact fun h => hslash (mem_cons_of_mem _ h)
  have hleft : left.toList = 'M' :: restored rest := String.toList_ofList
  have hobject : starts left "OI." = false := by
    rw [starts, hleft]
    rfl
  have hroom : starts left "BM." = false := by
    rw [starts, hleft]
    rfl
  rw [subject]
  simp only [hname, hobject, hroom]
  rfl

theorem subject_room {q : Path} (hvalid : ∀ n ∈ p.parts, ValidName n) (hends : ends p.name ".dmp" = true)
    (hplus : '+' ∉ p.name.toList) (hroom : subject p "4" = .ok (some .room)) (hq : Pictures "4" .room p q) :
    subject (encodedPath q) "4" = .ok none := by
  have hstart : starts p.name "BM." = true := by
    rw [subject] at hroom
    split at hroom
    · cases hroom
    · split at hroom
      · assumption
      · cases hroom
  obtain ⟨rest, hrest⟩ : ∃ rest, p.name.toList = ['B', 'M'] ++ rest := by
    obtain ⟨rest, hrest⟩ := isPrefixOf_iff_prefix.mp hstart
    exact ⟨'.' :: rest, hrest.symm⟩
  obtain ⟨hname, hfile⟩ := name_of_ends hvalid hends
  obtain ⟨picture, hq, hpicture, heq⟩ := pictures_room hfile hname hq
  have hplus' : '+' ∉ (swap p.name ".dmp" "_image.png").toList := fun h =>
    (mem_swap (by decide) h).elim (by decide) hplus
  have hstart' : (swap p.name ".dmp" "_image.png").toList
      = ['B', 'M'] ++ replaceAfter codeEnd (imageMark ++ pictureEnd) 0 rest := by
    rw [toList_swap (by decide), hrest]
    exact replaceAfter_append_of_not_mem (by decide)
  rw [hq]
  rcases heq with rfl | rfl
  · exact subject_unmoved _ _ hpicture.toFileName hplus' hstart'
  · apply subject_unmoved _ _ hpicture.toFileName fun h => (mem_swap (by decide) h).elim (by decide) hplus'
    rw [toList_swap (by decide), hstart']
    exact replaceAfter_append_of_not_mem (by decide)

/-- Encoding a picture that decoding stored finds the image again, with what it shows, unless the image is that of a room of version 4, or a plus sign is in its name, or a mark is in the names that the picture is moved over. A room of version 4 is not even taken for a room. -/
theorem encode_decoded_path {given : Palette} (hvalid : ∀ n ∈ p.parts, ValidName n)
    (hplus : ∀ d ∈ p.parts.dropLast, '+' ∉ d.toList) (hends : ends p.name ".dmp" = true)
    (h : Gives (decode version stamped video given p) w () w') :
    ∃ kind stored, subject p version = .ok (some kind) ∧ Stores stored w.files w'.files ∧ ∀ q ∈ stored,
    (∀ stamped video given, StoresAt (encodedPath q) (encode version stamped video given q))
    ∧ (encodedPath q = p ∧ subject (encodedPath q) version = .ok (some kind) ↔ Homes version kind p)
    ∧ (version = "4" → kind = .room → '+' ∉ p.name.toList → subject (encodedPath q) version = .ok none) := by
  obtain ⟨kind, stored, hsubject, hstored, hpictures⟩ := stores_decode h
  refine ⟨kind, stored, hsubject, hstored, fun q hq => ?_⟩
  have hiff := encodedPath_iff hvalid hplus hends (hpictures q hq)
  refine ⟨fun stamped video given => storesAt_encode version stamped video given q, ?_, ?_⟩
  · constructor
    · exact fun hback => hiff.mp hback.1
    · intro hhomes
      have hback := hiff.mpr hhomes
      exact ⟨hback, hback ▸ hsubject⟩
  · rintro rfl rfl hname
    exact subject_room hvalid hends hname hsubject (hpictures q hq)

/-! ### A room and an object -/

def studyTree : FileTree where
  base := []
  entries := [ (["BM.dmp"], .file (.data [12, 0, 0, 0, 66, 77, 6, 0, 4, 0, 113, 17]) 1),
    (["HD.xml"], .file (.data (toUtf8 "<r><width>8</width><height>1</height></r>")) 1),
    (["objects"], .folder 1), (["objects", "book"], .folder 1),
    (["objects", "book", "OI.dmp"], .file (.data [14, 0, 0, 0, 79, 73, 1, 0, 6, 0, 4, 0, 113, 17]) 1),
    (["objects", "book", "OBHD.xml"], .file (.data (toUtf8 "<r><code><width>1</width><height>1</height></code></r>")) 1)]
  clock := 1

def studyWork : Workspace := { (default : Workspace) with files := studyTree }

def studyBook : Path := ⟨"/", ["objects", "book", "OI.dmp"]⟩

def studyRoom : Path := ⟨"/", ["BM.dmp"]⟩

/-- The book goes back to its folder, and the room does not. -/
theorem encode_decoded_path_study :
    (∃ w' stored, Gives (decode "4" false "ega" [] studyBook) studyWork () w' ∧ Stores stored studyTree w'.files
    ∧ stored ≠ [] ∧ ∀ q ∈ stored, encodedPath q = studyBook)
    ∧ ∃ w' stored, Gives (decode "4" false "ega" [] studyRoom) studyWork () w' ∧ Stores stored studyTree w'.files
    ∧ stored ≠ [] ∧ ∀ q ∈ stored, encodedPath q ≠ studyRoom ∧ subject (encodedPath q) "4" = .ok none := by
  have hbook : (result (decode "4" false "ega" [] studyBook) studyWork).1 = .ok () := by decide +kernel
  have hroom : (result (decode "4" false "ega" [] studyRoom) studyWork).1 = .ok () := by decide +kernel
  constructor
  · have hrun : Gives (decode "4" false "ega" [] studyBook) studyWork () _ := Prod.ext hbook rfl
    obtain ⟨kind, stored, hkind, hstored, hback⟩ :=
      encode_decoded_path (by decide) (by decide) (by decide) hrun
    obtain rfl : Subject.object = kind := by
      have hobject : subject studyBook "4" = .ok (some .object) := by decide
      rw [hobject] at hkind
      exact Option.some.inj (Except.ok.inj hkind)
    refine ⟨_, stored, hrun, hstored, hstored.ne_nil (by decide +kernel), fun q hq => ?_⟩
    exact ((hback q hq).2.1.mpr (by decide)).1
  · have hrun : Gives (decode "4" false "ega" [] studyRoom) studyWork () _ := Prod.ext hroom rfl
    obtain ⟨kind, stored, hkind, hstored, hback⟩ :=
      encode_decoded_path (by decide) (by decide) (by decide) hrun
    have hsubject : subject studyRoom "4" = .ok (some .room) := by decide
    obtain rfl : Subject.room = kind := by
      rw [hsubject] at hkind
      exact Option.some.inj (Except.ok.inj hkind)
    refine ⟨_, stored, hrun, hstored, hstored.ne_nil (by decide +kernel), fun q hq => ⟨fun heq => ?_, ?_⟩⟩
    · exact ((hback q hq).2.1.mp ⟨heq, heq ▸ hsubject⟩).1 ⟨rfl, rfl⟩
    · exact (hback q hq).2.2 rfl rfl (by decide)

end ImageFile

end ScummKit
