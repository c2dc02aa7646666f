import ScummKit.Proofs.Image.Coding
import ScummKit.Proofs.Project.PictureRuns
import ScummKit.Proofs.Project.Visits

/-!
# Pictures and masks in either order

In version 4 a picture and its mask are stored in one file, and a visit of either of them encodes both. The visit also chooses the coding: that of the game for the picture, and that of masks for the mask. So the order of the two visits decides how the picture is coded.
-/

namespace ScummKit

open Text List

variable {name : String}

theorem Text.occurs_append_apart {pattern tail : List Char} (hpattern : pattern ≠ []) (h : apart pattern tail = true)
    (xs : List Char) : occurs pattern (xs ++ tail) = (occurs pattern xs || occurs pattern tail) := by
  induction xs with
  | nil =>
    obtain ⟨c, cs, rfl⟩ := exists_cons_of_ne_nil hpattern
    rfl
  | cons x xs ih =>
    have hprefix := isPrefixOf_append_apart h x xs
    rw [cons_append] at hprefix ⊢
    rw [occurs, occurs, hprefix, ih, Bool.or_assoc]

namespace Asset

/-! ### The names of a pair -/

/-- The part that the names of a picture and of its mask have in common. -/
structure Stem (stem : String) : Prop where
  image : has stem "_image" = false
  mask : has stem "_zplane" = false
  slash : '/' ∉ stem.toList

variable {stem : String}

theorem swap_append {tail pattern new tail' : String} (hstem : has stem pattern = false)
    (h : pattern.toList ≠ [] ∧ apart pattern.toList tail.toList = true ∧
    replaceAfter pattern.toList new.toList 0 tail.toList = tail'.toList) : swap (stem ++ tail) pattern new = stem ++ tail' := by
  obtain ⟨hpattern, hapart, htail⟩ := h
  rw [← String.toList_inj, toList_swap hpattern, String.toList_append, String.toList_append,
    replaceAfter_append hapart _ _ (Nat.zero_le _), htail, replaceAfter_of_not_occurs hpattern hstem]

theorem has_append {tail pattern : String} (hpattern : pattern.toList ≠ []) (hstem : has stem pattern = false)
    (hapart : apart pattern.toList tail.toList = true) : has (stem ++ tail) pattern = has tail pattern := by
  have hstem' : occurs pattern.toList stem.toList = false := hstem
  rw [has, has, String.toList_append, occurs_append_apart hpattern hapart, hstem', Bool.false_or]

namespace Stem

theorem ends_append (tail : String) : ends (stem ++ tail) tail = true := by
  rw [ends_iff, String.toList_append]
  exact ⟨_, rfl⟩

section

variable (h : Stem stem)

include h

theorem fileName {tail : String} (htail : '/' ∉ tail.toList) : FileName tail (stem ++ tail) := by
  refine ⟨?_, ends_append tail⟩
  rw [String.toList_append, mem_append, not_or]
  exact ⟨h.slash, htail⟩

theorem valid_image : ValidName (stem ++ "_image.png") := (h.fileName (by decide)).valid (by decide)

theorem valid_mask : ValidName (stem ++ "_zplane.png") := (h.fileName (by decide)).valid (by decide)

theorem swap_image : swap (stem ++ "_image.png") "_image" "_zplane" = stem ++ "_zplane.png" := swap_append h.image (by decide)

theorem swap_mask : swap (stem ++ "_zplane.png") "_zplane" "_image" = stem ++ "_image.png" := swap_append h.mask (by decide)

theorem imageName_eq : Site.imageName (stem ++ "_image.png") = Site.imageName (stem ++ "_zplane.png") := by
  have himage : swap (stem ++ "_image.png") "_image" "" = stem ++ ".png" := swap_append h.image (by decide)
  have hkeep : swap (stem ++ "_zplane.png") "_image" "" = stem ++ "_zplane.png" := swap_append h.image (by decide)
  have hplain : swap (stem ++ ".png") "_zplane" "" = stem ++ ".png" := swap_append h.mask (by decide)
  have hmask : swap (stem ++ "_zplane.png") "_zplane" "" = stem ++ ".png" := swap_append h.mask (by decide)
  change swap (swap (swap (stem ++ "_image.png") "_image" "") "_zplane" "") ".png" ".dmp"
    = swap (swap (swap (stem ++ "_zplane.png") "_image" "") "_zplane" "") ".png" ".dmp"
  rw [himage, hkeep, hplain, hmask]

end

end Stem

theorem status_png (h : ends name ".png" = true) : Status.ofName name = .decoded := status_of_ends h (.inr rfl)

end Asset

/-- A picture of version 4 and its mask: where they lie, what they show and when they were changed, where they are stored, and the tag in front of them there. -/
structure Pair where
  front : List String
  stem : String
  pic : Picture
  layer : Picture
  time : Int
  maskTime : Int
  home : List String
  code : String
  shows : Option Asset.Subject
  tag : List Int

namespace Pair

variable (a : Pair)

def picture : List String := a.front ++ [a.stem ++ "_image.png"]

def mask : List String := a.front ++ [a.stem ++ "_zplane.png"]

def target : List String := a.home ++ [a.code]

def stamped (fields : List (String × Json)) : List (String × Json) :=
  Table.put (ledgerName a.mask) (Site.stampOf a.maskTime) (Table.put (ledgerName a.picture) (Site.stampOf a.time) fields)

def data (video : Video) (body maskBody : List Int) : List Int :=
  Word.toLE 4 (4 + a.tag.length + (video.wordSize + body.length) + (2 + maskBody.length) : Nat) ++ a.tag
    ++ Word.toLE video.wordSize (video.wordSize + body.length : Nat) ++ body
    ++ Word.toLE 2 (2 + maskBody.length : Nat) ++ maskBody

theorem areBytes_data {video : Video} {body maskBody : List Int} (htag : AreBytes a.tag) (hbody : AreBytes body)
    (hmask : AreBytes maskBody) : AreBytes (a.data video body maskBody) :=
  (((((Word.areBytes_toLE _ _).append htag).append (Word.areBytes_toLE _ _)).append hbody).append
    (Word.areBytes_toLE _ _)).append hmask

def bytes (video : Video) (palette : Palette) : Except Fault (List UInt8) := do
  let body ← Subimage.encode video a.pic video.wordSize palette
  let maskBody ← Subimage.encode .mask a.layer 2 []
  Json.octets ((a.data video body maskBody).map .int)

end Pair

namespace Site

open Work Asset

variable {s : Site} {w : Workspace} {a : Pair}
variable {rel : List String} {palette : Palette} {bs : List UInt8} {time : Int} {u : Workspace}
variable {c : Content} {sub : Option Subject} {tag : List Int} {target : Path} {v : Workspace}

/-! ### Coding a pair -/

theorem exists_octets {xs : List Int} (h : AreBytes xs) :
    ∃ bs, Json.octets (xs.map .int) = .ok bs ∧ bs.map (fun b => (b.toNat : Int)) = xs := by
  induction xs with
  | nil => exact ⟨[], rfl, rfl⟩
  | cons x xs ih =>
    obtain ⟨bs, hbs, hxs⟩ := ih fun b hb => h b (mem_cons_of_mem x hb)
    have hx := h x mem_cons_self
    refine ⟨UInt8.ofNat x.toNat :: bs, ?_, ?_⟩
    · change (if x < 0 ∨ 255 < x then _ else _) = _
      rw [if_neg (by omega), hbs]
      rfl
    · rw [map_cons, hxs, UInt8.toNat_ofNat_of_lt' (show x.toNat < 256 by omega), Int.toNat_of_nonneg hx.1]

theorem exists_pairBytes {video : Video} (htag : AreBytes a.tag)
    (hpic : (video.palette palette).Paints a.pic) (hlength : (video.palette palette).length ≤ video.limit)
    (hheight : 0 < a.pic.height) (hlayer : Palette.mask.Paints a.layer) (hheight' : 0 < a.layer.height) :
    ∃ bs, a.bytes video palette = .ok bs := by
  have hcoded : ∃ body, Subimage.encode video a.pic video.wordSize palette = .ok body ∧ AreBytes body :=
    Subimage.exists_encode hpic hheight hlength
  have hmasked : ∃ body, Subimage.encode .mask a.layer 2 [] = .ok body ∧ AreBytes body :=
    Subimage.exists_encode hlayer hheight' (Nat.le_refl 2)
  obtain ⟨body, hbody, hbytes⟩ := hcoded
  obtain ⟨maskBody, hmask, hmaskBytes⟩ := hmasked
  obtain ⟨bs, hbs, -⟩ := exists_octets (a.areBytes_data htag hbytes hmaskBytes)
  exact ⟨bs, by rw [Pair.bytes, hbody, hmask]; exact hbs⟩

/-! ### Stamping a pair -/

theorem Ready.stamped {fields : List (String × Json)} (h : s.Ready w)
    (hne : rel ≠ []) (hfile : w.files.lookup (s.src ++ rel) = some (.file c time)) (hrows : table w = .record fields) :
    ∃ v, Gives (stamp (s.path rel)) w () v ∧ v.files = w.files ∧ v.crawl = w.crawl ∧ s.Ready v
    ∧ table v = .record (Table.put (ledgerName rel) (stampOf time) fields) := by
  obtain ⟨v, hstamp⟩ := h.exists_stamp hne hfile hrows
  obtain ⟨fields', stamped, hold, hnew, hfiles, -, -, -, hcrawl, -, htime⟩ := h.gives_stamp hne hstamp
  obtain rfl : fields = fields' := Json.record.inj (hrows.symm.trans hold)
  rw [htime c time hfile] at hnew
  exact ⟨v, hstamp, hfiles, hcrawl, (calm_stamp hne (h.valid hfile) w () v h hstamp).ready, hnew⟩

theorem Ready.has_file (h : s.Ready w)
    (hfile : w.files.lookup (s.src ++ rel) = some (.file c time)) : w.files.has (s.path rel) = true := by
  rw [FileTree.has, h.get? (h.valid hfile), hfile]
  rfl

theorem Ready.gives_picture {pic : Picture} (h : s.Ready w)
    (hfile : w.files.lookup (s.src ++ rel) = some (.file (.picture pic) time)) : Gives (picture (s.path rel)) w pic w := by
  apply gives_look.mpr
  rw [FileTree.picture, FileTree.content, h.get hfile]
  exact ⟨rfl, rfl⟩

theorem Ready.exists_writeOctets {front : List String} {xs : List Json}
    (h : s.Ready w) (hname : Output name) (hdir : w.files.IsDir (s.src ++ front))
    (hnot : ¬ w.files.IsDir (s.src ++ (front ++ [name]))) (hbytes : Json.octets xs = .ok bs) :
    ∃ files, Gives (writeOctets (s.path (front ++ [name])) xs) w () { w with files }
    ∧ ∃ time, files.lookup (s.src ++ (front ++ [name])) = some (.file (.data bs) time) := by
  obtain ⟨files, hempty, time, hlookup⟩ := h.exists_writeBytes hname.1 hdir hnot []
  have hready := (calm_writeBytes (by rwa [name_path]) [] w () _ h hempty).ready
  -- the empty file is written over
  have hdir' : files.IsDir (s.src ++ front) := by
    obtain ⟨files', hwrite, heq⟩ := gives_change.mp hempty
    obtain rfl : files' = files := congrArg Workspace.files heq
    refine (FileTree.agree_write Watched h.sound ?_ ?_ hwrite).2.dirs _ hdir
    · rw [name_path]
      exact hname.1
    · rw [name_path]
      exact hname.2
  have hnot' : ¬ files.IsDir (s.src ++ (front ++ [name])) := by
    rintro ⟨_, hfolder⟩
    cases hlookup.symm.trans hfolder
  obtain ⟨files', hwrite, hstored⟩ := hready.exists_writeBytes hname.1 hdir' hnot' bs
  refine ⟨files', ?_, hstored⟩
  rw [writeOctets, Gives, hempty.result_bind, (gives_lift.mpr ⟨hbytes, rfl⟩).result_bind]
  exact hwrite

/-! ### Tags -/

theorem areBytes_tag4 (h : Gives (ImageFile.tag4 target sub) w tag v) : AreBytes tag := by
  match sub with
  | some .object =>
    obtain ⟨number, _, -, h⟩ := gives_bind.mp h
    obtain ⟨rfl, -⟩ := gives_pure.mp h
    exact AreBytes.append (by simp [AreBytes]) (Word.areBytes_toLE _ _)
  | some .room =>
    obtain ⟨rfl, -⟩ := gives_pure.mp h
    simp [AreBytes]
  | none =>
    obtain ⟨rfl, -⟩ := gives_pure.mp h
    simp [AreBytes]

theorem gives_tag4
    (h : Gives (ImageFile.tag4 target sub) w tag w) (hfiles : v.files = w.files) : Gives (ImageFile.tag4 target sub) v tag v := by
  match sub with
  | some .object =>
    obtain ⟨number, _, hid, h⟩ := gives_bind.mp h
    obtain ⟨root, _, hread, hid⟩ := gives_bind.mp hid
    obtain ⟨bs, _, hbytes, hread⟩ := gives_bind.mp hread
    have hread' : Gives (bytes (target.sibling "OBHD.xml")) v bs v :=
      gives_look.mpr ⟨hfiles ▸ (gives_look.mp hbytes).1, rfl⟩
    have hid' : Gives (ImageFile.objectId target) v number v := by
      rw [ImageFile.objectId, ImageFile.readXml, bind_assoc, Gives, hread'.result_bind,
        (gives_lift.mpr ⟨(gives_lift.mp hread).1, rfl⟩).result_bind]
      exact gives_lift.mpr ⟨(gives_lift.mp hid).1, rfl⟩
    rw [ImageFile.tag4, Gives, hid'.result_bind]
    exact gives_pure.mpr ⟨(gives_pure.mp h).1, rfl⟩
  | some .room => exact gives_pure.mpr ⟨(gives_pure.mp h).1, rfl⟩
  | none => exact gives_pure.mpr ⟨(gives_pure.mp h).1, rfl⟩

/-! ### A pair in a workspace -/

/-- A pair lies in a workspace with a ledger that can be written, and can be stored there. -/
structure Holds (s : Site) (w : Workspace) (a : Pair) (fields : List (String × Json)) : Prop where
  ready : s.Ready w
  rows : table w = .record fields
  stem : Stem a.stem
  picture : w.files.lookup (s.src ++ a.picture) = some (.file (.picture a.pic) a.time)
  mask : w.files.lookup (s.src ++ a.mask) = some (.file (.picture a.layer) a.maskTime)
  target : encodedPath (s.path a.picture) = s.path a.target
  folder : w.files.IsDir (s.src ++ a.home)
  free : ¬ w.files.IsDir (s.src ++ a.target)
  shows : subject (s.path a.target) "4" = .ok a.shows
  tagged : Gives (ImageFile.tag4 (s.path a.target) a.shows) w a.tag w

/-- What is left when a pair is stored. -/
structure Stored (s : Site) (w u : Workspace) (a : Pair) (fields : List (String × Json)) (bs : List UInt8) : Prop where
  ready : s.Ready u
  crawl : u.crawl = w.crawl
  rows : table u = .record (a.stamped fields)
  target : ∃ time, u.files.lookup (s.src ++ a.target) = some (.file (.data bs) time)

namespace Holds

variable {fields : List (String × Json)} {p : Path}
variable {video : Video}

section

variable (h : s.Holds w a fields)

include h

theorem imagePair_eq (hp : p = s.path a.picture ∨ p = s.path a.mask) : imagePair p = some (s.path a.picture, s.path a.mask) := by
  have himage : Text.has (a.stem ++ "_image.png") "_image" = true := by
    rw [has_append (by decide) h.stem.image (by decide)]
    decide
  have hnone : Text.has (a.stem ++ "_zplane.png") "_image" = false := by
    rw [has_append (by decide) h.stem.image (by decide)]
    decide
  have hmask : Text.has (a.stem ++ "_zplane.png") "_zplane" = true := by
    rw [has_append (by decide) h.stem.mask (by decide)]
    decide
  rcases hp with rfl | rfl
  · rw [Pair.picture, Pair.mask, imagePair, name_path, if_pos himage,
      rename_path s a.front _ _ (by rw [h.stem.swap_image]; exact h.stem.valid_mask), h.stem.swap_image]
  · rw [Pair.picture, Pair.mask, imagePair, name_path, if_neg (by rw [hnone]; decide), if_pos hmask,
      rename_path s a.front _ _ (by rw [h.stem.swap_mask]; exact h.stem.valid_image), h.stem.swap_mask]

theorem encodedPath_eq (hp : p = s.path a.picture ∨ p = s.path a.mask) : encodedPath p = s.path a.target := by
  have hpath {tail : String} (hslash : '/' ∉ tail.toList) (hpng : ".png".toList <:+ tail.toList) :
      encodedPath (s.path (a.front ++ [a.stem ++ tail]))
        = unflatten ⟨"/", s.tree.base ++ (s.src ++ a.front) ++ [imageName (a.stem ++ tail)]⟩ := by
    rw [path_concat]
    exact ScummKit.encodedPath_eq _ _ ((h.stem.fileName hslash).of_suffix hpng)
  rw [← h.target]
  rcases hp with hp | hp
  · rw [hp]
  · rw [hp, Pair.picture, Pair.mask, hpath (by decide) (by decide), hpath (by decide) (by decide), h.stem.imageName_eq]

theorem output_code : Output a.code := by
  have hfile : FileName ".png" (a.stem ++ "_image.png") := (h.stem.fileName (by decide)).of_suffix (by decide)
  have hout := output_unflatten "/" (s.tree.base ++ (s.src ++ a.front)) (fileName_imageName hfile)
  have htarget := h.target
  rw [Pair.picture, path_concat, ScummKit.encodedPath_eq _ _ hfile] at htarget
  rw [htarget, Pair.target, name_path] at hout
  exact hout

theorem exists_stampPair : ∃ v, Gives (ImageFile.stampPair (s.path a.picture) (s.path a.mask)) w () v
    ∧ v.files = w.files ∧ v.crawl = w.crawl ∧ s.Ready v ∧ table v = .record (a.stamped fields) := by
  obtain ⟨v, hstamp, hfiles, hcrawl, hready, htable⟩ := h.ready.stamped (by simp [Pair.picture]) h.picture h.rows
  have hmask := h.mask
  rw [← hfiles] at hmask
  obtain ⟨v', hstamp', hfiles', hcrawl', hready', htable'⟩ := hready.stamped (by simp [Pair.mask]) hmask htable
  refine ⟨v', ?_, hfiles'.trans hfiles, hcrawl'.trans hcrawl, hready', htable'⟩
  have hthere : Gives (ask (·.has (s.path a.mask))) v true v := gives_ask.mpr ⟨hready.has_file hmask, rfl⟩
  rw [ImageFile.stampPair, Gives, hstamp.result_bind, hthere.result_bind]
  exact hstamp'

theorem said (line : String) : s.Holds { w with said := line } a fields where
  ready := ⟨h.ready.root, h.ready.programs, h.ready.sound, h.ready.agree, h.ready.tidy, h.ready.noted⟩
  rows := h.rows
  stem := h.stem
  picture := h.picture
  mask := h.mask
  target := h.target
  folder := h.folder
  free := h.free
  shows := h.shows
  tagged := gives_tag4 h.tagged rfl

theorem gives_mask : Gives (ask (·.has (s.path a.mask))) w true w :=
  gives_ask.mpr ⟨h.ready.has_file h.mask, rfl⟩

theorem exists_announce : ∃ said, Gives (ImageFile.announce (s.path a.picture) (s.path a.mask)) w () { w with said } := by
  apply Exists.intro
  rw [ImageFile.announce, Gives, h.gives_mask.result_bind]
  exact gives_say.mpr rfl

theorem gives_maskFor : Gives (ImageFile.maskFor a.pic (s.path a.mask)) w a.layer w := by
  rw [ImageFile.maskFor, Gives, h.gives_mask.result_bind]
  exact h.ready.gives_picture h.mask

end

section

variable (stamped : Bool) (h : s.Holds w a fields) (hp : p = s.path a.picture ∨ p = s.path a.mask) {given : Palette}

include h hp

theorem exists_encode4 (hvideo : Video.ofText? name = some video) (hbytes : a.bytes video palette = .ok bs) :
    ∃ data u, Gives (ImageFile.encode4 stamped name palette a.shows (s.path a.target) p) w data u
    ∧ Json.octets (data.map .int) = .ok bs ∧ u.files = w.files ∧ u.crawl = w.crawl ∧ s.Ready u
    ∧ (stamped = true → table u = .record (a.stamped fields)) := by
  obtain ⟨body, hbody, hbytes⟩ := bind_eq_ok.mp hbytes
  obtain ⟨maskBody, hmaskBody, hbytes⟩ := bind_eq_ok.mp hbytes
  obtain ⟨line, hsaid⟩ := h.exists_announce
  have h' := h.said line
  obtain ⟨u, hstamp, hfiles, hcrawl, hready, htable⟩ : ∃ u, (∀ data : List Int, Gives (do
        if stamped then ImageFile.stampPair (s.path a.picture) (s.path a.mask)
        return data) { w with said := line } data u)
        ∧ u.files = w.files ∧ u.crawl = w.crawl ∧ s.Ready u ∧ (stamped = true → table u = .record (a.stamped fields)) := by
    cases stamped with
    | false => exact ⟨_, fun _ => gives_pure.mpr ⟨rfl, rfl⟩, rfl, rfl, h'.ready, nofun⟩
    | true =>
      obtain ⟨u, hstamp, hfiles, hcrawl, hready, htable⟩ := h'.exists_stampPair
      exact ⟨u, fun _ => hstamp.result_bind _, hfiles, hcrawl, hready, fun _ => htable⟩
  refine ⟨a.data video body maskBody, u, ?_, hbytes, hfiles, hcrawl, hready, htable⟩
  have hword : ImageFile.wordSize name = .ok video.wordSize := by rw [ImageFile.wordSize, hvideo]
  have hcoded : Subimage.encodeNamed name a.pic video.wordSize palette = .ok body := by
    rw [Subimage.encodeNamed, hvideo]
    exact hbody
  have hmasked : Subimage.encodeNamed "zplane" a.layer 2 [] = .ok maskBody := hmaskBody
  rw [ImageFile.encode4, h.imagePair_eq hp]
  rw [Gives, hsaid.result_bind, (h'.ready.gives_picture h'.picture).result_bind,
    (gives_lift.mpr ⟨hword, rfl⟩).result_bind, (gives_lift.mpr ⟨hcoded, rfl⟩).result_bind,
    h'.gives_maskFor.result_bind, (gives_lift.mpr ⟨hmasked, rfl⟩).result_bind, h'.tagged.result_bind]
  exact hstamp _

theorem exists_encode4_error {fault : Fault} (hvideo : Video.ofText? name = some video)
    (hfault : Subimage.encode video a.pic video.wordSize palette = .error fault) :
    ∃ said, result (ImageFile.encode4 true name palette a.shows (s.path a.target) p) w = (.error fault, { w with said }) := by
  obtain ⟨line, hsaid⟩ := h.exists_announce
  have h' := h.said line
  refine ⟨line, ?_⟩
  have hword : ImageFile.wordSize name = .ok video.wordSize := by rw [ImageFile.wordSize, hvideo]
  have hcoded : Subimage.encodeNamed name a.pic video.wordSize palette = .error fault := by
    rw [Subimage.encodeNamed, hvideo]
    exact hfault
  rw [ImageFile.encode4, h.imagePair_eq hp]
  rw [hsaid.result_bind, (h'.ready.gives_picture h'.picture).result_bind,
    (gives_lift.mpr ⟨hword, rfl⟩).result_bind, result_bind, result_lift, hcoded]

section

variable (hpalette : Gives (ImageFile.paletteFor name given (s.path a.target) "4" a.shows) w palette w)

include hpalette

theorem result_encode : result (ImageFile.encode "4" stamped name given p) w = result (do
      let data ← ImageFile.encode4 stamped name palette a.shows (s.path a.target) p
      writeOctets (s.path a.target) (data.map .int)) w := by
  have htarget : unflatten (p.rename imageName) = s.path a.target := h.encodedPath_eq hp
  change result (do
    let sub ← subject (unflatten (p.rename imageName)) "4"
    let palette ← ImageFile.paletteFor name given (unflatten (p.rename imageName)) "4" sub
    let data ← ImageFile.encode4 stamped name palette sub (unflatten (p.rename imageName)) p
    writeOctets (unflatten (p.rename imageName)) (data.map .int)) w = _
  rw [htarget, (gives_lift.mpr ⟨h.shows, rfl⟩).result_bind, hpalette.result_bind]

theorem exists_encode (hvideo : Video.ofText? name = some video) (hbytes : a.bytes video palette = .ok bs) :
    ∃ u, Gives (ImageFile.encode "4" stamped name given p) w () u
    ∧ (∃ time, u.files.lookup (s.src ++ a.target) = some (.file (.data bs) time))
    ∧ (stamped = true → s.Stored w u a fields bs) := by
  obtain ⟨data, v, hdata, hoctets, hfiles, hcrawl, hready, htable⟩ := h.exists_encode4 stamped hp hvideo hbytes
  have hfolder := h.folder
  have hfree := h.free
  rw [← hfiles] at hfolder hfree
  obtain ⟨files, hwrite, hstored⟩ := hready.exists_writeOctets h.output_code hfolder hfree hoctets
  have hgentle := calm_writeOctets (by rw [name_path]; exact h.output_code) _ v () _ hready hwrite
  refine ⟨{ v with files }, ?_, hstored, fun hstamped => ⟨hgentle.ready, hcrawl, htable hstamped, hstored⟩⟩
  rw [Gives, h.result_encode stamped hp hpalette, hdata.result_bind]
  exact hwrite

end

end

theorem watched_image : Watched (a.stem ++ "_image.png") := Or.inr (status_png (ends_of_suffix (Stem.ends_append _) (by decide)))

theorem watched_mask : Watched (a.stem ++ "_zplane.png") := Or.inr (status_png (ends_of_suffix (Stem.ends_append _) (by decide)))

theorem ledgerName_ne (h : s.Holds w a fields) : ledgerName a.mask ≠ ledgerName a.picture := by
  intro heq
  have hrel : a.mask = a.picture := ledgerName_inj (by simp [Pair.mask]) (by simp [Pair.picture])
    (h.ready.valid h.mask) (h.ready.valid h.picture) heq
  simp [Pair.mask, Pair.picture] at hrel

theorem current (h : s.Holds w a fields) (hu : s.Stored w u a fields bs) : s.Current u a.picture ∧ s.Current u a.mask := by
  refine ⟨⟨_, _, _, stampOf a.time, h.ready.lookup_eq hu.ready watched_image h.picture, hu.rows, ?_, later_self _⟩,
    ⟨_, _, _, stampOf a.maskTime, h.ready.lookup_eq hu.ready watched_mask h.mask, hu.rows, ?_, later_self _⟩⟩
  · rw [Pair.stamped, Table.find?_put, if_neg h.ledgerName_ne, Table.find?_put, if_pos rfl]
  · rw [Pair.stamped, Table.find?_put, if_pos rfl]

end Holds

/-! ### Visits of a pair -/

/-- A walk that encodes pictures and masks of version 4, in a room whose palette is known if it is needed. -/
structure Encoding (video : Video) (w : Workspace) : Prop where
  building : w.crawl.building = true
  version : w.crawl.version = "4"
  video : Video.ofText? w.crawl.video = some video
  found : w.crawl.video = "vga" → w.crawl.found = true
  images : w.crawl.targets.contains "image" = true
  masks : w.crawl.targets.contains "zplane" = true

namespace Encoding

variable {video : Video} {p : Path} {k : Kind}

section

variable (h : Encoding video w)

include h

theorem congr (hcrawl : u.crawl = w.crawl) : Encoding video u := by
  constructor <;> rw [hcrawl]
  exacts [h.building, h.version, h.video, h.found, h.images, h.masks]

theorem result_visit (hstatus : Status.ofName p.name = .decoded) (hkind : Kind.ofName4 p.name = k)
    (hk : k = .image ∨ k = .zplane) : result (visit p) w = result (do if ← outdated p then encodeKind p k) w := by
  have htargets : Gives (Work.targets (some k)) w true w := by
    rcases hk with rfl | rfl
    · rw [← h.images]
      rfl
    · rw [← h.masks]
      rfl
  have hpalette : ¬ some k = some .palette := by rcases hk with rfl | rfl <;> decide
  rw [visit, result_get, h.building, if_pos rfl, visitEncoding]
  have hkind' : Kind.ofName? "4" p.name = some k := congrArg some hkind
  rw [if_neg (by rw [hstatus]; decide), result_get, h.version, hkind', if_neg hpalette, if_pos hstatus, htargets.result_bind, if_pos rfl]

theorem gives_needsPalette : Gives needsPalette w false w := by
  have hneeds : (decide (w.crawl.video = "vga") && !w.crawl.found) = false := by
    by_cases hvga : w.crawl.video = "vga"
    · rw [h.found hvga, Bool.not_true, Bool.and_false]
    · rw [decide_eq_false hvga, Bool.false_and]
  rw [← hneeds]
  rfl

theorem result_image : result (encodeKind p .image) w = result (ImageFile.encode "4" true w.crawl.video w.crawl.palette p) w := by
  rw [encodeKind, result_get, h.gives_needsPalette.result_bind, h.version]
  exact result_withPalette false p _ w

theorem result_mask : result (encodeKind p .zplane) w = result (ImageFile.encode "4" true "zplane" w.crawl.palette p) w := by
  rw [encodeKind, result_get, h.gives_needsPalette.result_bind, h.version]
  exact result_withPalette false p _ w

theorem result_outdated (hstatus : Status.ofName p.name = .decoded)
    (hkind : Kind.ofName4 p.name = k) (hk : k = .image ∨ k = .zplane) (hnews : Gives (outdated p) w true w) :
    result (visit p) w = result (encodeKind p k) w := by
  rw [h.result_visit hstatus hkind hk, hnews.result_bind, if_pos rfl]

theorem gives_current (hready : s.Ready w) (hne : rel ≠ [])
    (hcurrent : s.Current w rel) (hstatus : Status.ofName (s.path rel).name = .decoded)
    (hkind : Kind.ofName4 (s.path rel).name = k) (hk : k = .image ∨ k = .zplane) : Gives (visit (s.path rel)) w () w := by
  rw [Gives, h.result_visit hstatus hkind hk, (hready.gives_outdated hne hcurrent).result_bind]
  rfl

end

end Encoding

/-- A picture and its mask, both of them changed, are visited one after the other. If the picture comes first, it is stored in the coding of the game. If the mask comes first, the picture is taken for a mask: it is stored in the coding of masks if it has no colours but those of masks, and otherwise the visit fails and nothing is stored or stamped. -/
theorem visit_pair_orders {video : Video} {palette : Palette} {fields : List (String × Json)}
    (h : s.Holds w a fields) (hwalk : Encoding video w)
    (hkind : Kind.ofName4 (a.stem ++ "_image.png") = .image)
    (hkind' : Kind.ofName4 (a.stem ++ "_zplane.png") = .zplane)
    (hnews : Gives (outdated (s.path a.picture)) w true w) (hnews' : Gives (outdated (s.path a.mask)) w true w)
    (hpalette : Gives (ImageFile.paletteFor w.crawl.video w.crawl.palette (s.path a.target) "4" a.shows) w palette w)
    (hpaints : (video.palette palette).Paints a.pic) (hlength : (video.palette palette).length ≤ video.limit)
    (hheight : 0 < a.pic.height) (hlayer : Palette.mask.Paints a.layer) (hheight' : 0 < a.layer.height) :
    (∃ bs u, a.bytes video palette = .ok bs ∧ Gives (do visit (s.path a.picture); visit (s.path a.mask)) w () u
        ∧ s.Stored w u a fields bs)
      ∧ (Palette.mask.Paints a.pic → ∃ bs u, a.bytes .mask [] = .ok bs
        ∧ Gives (do visit (s.path a.mask); visit (s.path a.picture)) w () u ∧ s.Stored w u a fields bs)
      ∧ (¬ Palette.mask.Paints a.pic → ∃ fault said,
        result (do visit (s.path a.mask); visit (s.path a.picture)) w = (.error fault, { w with said })) := by
  have hstatus : Status.ofName (s.path a.picture).name = .decoded := by
    rw [Pair.picture, name_path]
    exact status_png (ends_of_suffix (Stem.ends_append _) (by decide))
  have hstatus' : Status.ofName (s.path a.mask).name = .decoded := by
    rw [Pair.mask, name_path]
    exact status_png (ends_of_suffix (Stem.ends_append _) (by decide))
  have himage : Kind.ofName4 (s.path a.picture).name = .image := by
    rw [Pair.picture, name_path]
    exact hkind
  have hzplane : Kind.ofName4 (s.path a.mask).name = .zplane := by
    rw [Pair.mask, name_path]
    exact hkind'
  have htag : AreBytes a.tag := areBytes_tag4 h.tagged
  have hmask : Gives (ImageFile.paletteFor "zplane" w.crawl.palette (s.path a.target) "4" a.shows) w w.crawl.palette w :=
    gives_pure.mpr ⟨rfl, rfl⟩
  have hname : Video.ofText? "zplane" = some .mask := rfl
  have hfirst : result (visit (s.path a.mask)) w
      = result (ImageFile.encode "4" true "zplane" w.crawl.palette (s.path a.mask)) w := by
    rw [hwalk.result_outdated hstatus' hzplane (Or.inr rfl) hnews', hwalk.result_mask]
  refine ⟨?_, fun hplain => ?_, fun hplain => ?_⟩
  · obtain ⟨bs, hbytes⟩ := exists_pairBytes htag hpaints hlength hheight hlayer hheight'
    obtain ⟨u, hencode, -, hstored⟩ := h.exists_encode true (Or.inl rfl) hpalette hwalk.video hbytes
    have hstored := hstored rfl
    have hvisit : Gives (visit (s.path a.picture)) w () u := by
      rw [Gives, hwalk.result_outdated hstatus himage (Or.inl rfl) hnews, hwalk.result_image]
      exact hencode
    refine ⟨bs, u, hbytes, ?_, hstored⟩
    rw [Gives, hvisit.result_bind]
    exact (hwalk.congr hstored.crawl).gives_current hstored.ready (by simp [Pair.mask]) (h.current hstored).2 hstatus'
      hzplane (Or.inr rfl)
  · obtain ⟨bs, hbytes⟩ : ∃ bs, a.bytes .mask [] = .ok bs :=
      exists_pairBytes htag hplain (Nat.le_refl 2) hheight hlayer hheight'
    obtain ⟨u, hencode, -, hstored⟩ := h.exists_encode true (Or.inr rfl) hmask hname hbytes
    have hstored := hstored rfl
    have hvisit : Gives (visit (s.path a.mask)) w () u := hfirst.trans hencode
    refine ⟨bs, u, hbytes, ?_, hstored⟩
    rw [Gives, hvisit.result_bind]
    exact (hwalk.congr hstored.crawl).gives_current hstored.ready (by simp [Pair.picture]) (h.current hstored).1 hstatus
      himage (Or.inl rfl)
  · cases hcoded : Subimage.encode .mask a.pic 2 w.crawl.palette with
    | ok data => exact absurd (Subimage.paints_of_encode hcoded) hplain
    | error fault =>
      obtain ⟨said, hfault⟩ := h.exists_encode4_error (Or.inr rfl) hname hcoded
      refine ⟨fault, said, ?_⟩
      rw [result_bind, hfirst, h.result_encode true (Or.inr rfl) hmask, result_bind, hfault]

def bookPair : Pair where
  front := []
  stem := "_book+OI"
  pic := ⟨.rgb, 8, 1, (List.replicate 8 [0, 0, 170]).toArray⟩
  layer := ⟨.rgb, 8, 1, (List.replicate 8 [255, 255, 255]).toArray⟩
  time := 5
  maskTime := 6
  home := ["book"]
  code := "OI.dmp"
  shows := some .object
  tag := [79, 73, 7, 0]

def bookTree : FileTree where
  base := []
  entries := [ (["src"], .folder 1), (["src", "book"], .folder 1),
    (["src", "book", "OBHD.xml"], .file (.data (Text.toUtf8 "<r><id>7</id></r>")) 1),
    (["src", "_book+OI_image.png"], .file (.picture bookPair.pic) 5),
    (["src", "_book+OI_zplane.png"], .file (.picture bookPair.layer) 6)]
  clock := 9

def bookSite : Site where
  tree := bookTree
  src := ["src"]
  programs := default
  sound := ⟨by decide, by decide⟩
  valid := by decide

def bookWork : Workspace :=
  { (default : Workspace) with
    files := bookTree, ledger := ⟨⟨"/", ["src"]⟩, none, false⟩, stamps := .record []
    crawl := ⟨true, "4", "ega", ["image", "zplane"], [], false, none⟩ }

theorem holds_bookWork : bookSite.Holds bookWork bookPair [] where
  ready := ⟨rfl, rfl, bookSite.sound, .refl _, nodup_nil, fun _ => ⟨_, rfl⟩⟩
  rows := rfl
  stem := ⟨by decide, by decide, by decide⟩
  picture := rfl
  mask := rfl
  target := by decide
  folder := ⟨1, rfl⟩
  free := by
    rintro ⟨time, h⟩
    cases h
  shows := by decide
  tagged := by
    have htag : (result (ImageFile.tag4 (bookSite.path bookPair.target) bookPair.shows) bookWork).1
        = .ok bookPair.tag := by decide +kernel
    exact (looks_tag4 _ _).gives htag

/-- The book is stored if its picture comes first, and lost if its mask does. -/
theorem visit_pair_orders_book : (∃ u, Gives (do
        visit ⟨"/", ["src", "_book+OI_image.png"]⟩
        visit ⟨"/", ["src", "_book+OI_zplane.png"]⟩) bookWork () u
      ∧ ∃ time, u.files.lookup ["src", "book", "OI.dmp"] = some (.file
        (.data [20, 0, 0, 0, 79, 73, 7, 0, 6, 0, 4, 0, 1, 8, 6, 0, 4, 0, 1, 255]) time))
    ∧ ∃ fault said, result (do
        visit ⟨"/", ["src", "_book+OI_zplane.png"]⟩
        visit ⟨"/", ["src", "_book+OI_image.png"]⟩) bookWork = (.error fault, { bookWork with said }) := by
  have hpaints : ∀ x < 8, ∀ y < 1, Palette.ega.entryAt bookPair.pic x y = .ok 1 := by decide
  have hlayer : ∀ x < 8, ∀ y < 1, Palette.mask.entryAt bookPair.layer x y = .ok 1 := by decide
  have hbytes : bookPair.bytes .ega []
      = .ok [20, 0, 0, 0, 79, 73, 7, 0, 6, 0, 4, 0, 1, 8, 6, 0, 4, 0, 1, 255] := by decide
  have hblue : (Palette.mask.entryAt bookPair.pic 0 0).toOption = none := by decide
  have hpicture : (result (outdated (bookSite.path bookPair.picture)) bookWork).1 = .ok true := by decide
  have hmask : (result (outdated (bookSite.path bookPair.mask)) bookWork).1 = .ok true := by decide
  obtain ⟨⟨bs, u, hcoded, hgives, hstored⟩, -, hfails⟩ := visit_pair_orders holds_bookWork
    (⟨rfl, rfl, rfl, by decide, by decide, by decide⟩ : Encoding .ega bookWork) (by decide) (by decide) (Prod.ext hpicture rfl)
    (Prod.ext hmask rfl) (gives_pure.mpr ⟨rfl, rfl⟩) (fun x y hx hy => ⟨1, hpaints x hx y hy⟩) (by decide) (by decide)
    (fun x y hx hy => ⟨1, hlayer x hx y hy⟩) (by decide)
  obtain rfl := Except.ok.inj (hcoded.symm.trans hbytes)
  refine ⟨⟨u, hgives, hstored.target⟩, hfails fun hplain => ?_⟩
  obtain ⟨n, hn⟩ := hplain 0 0 (by decide) (by decide)
  rw [hn] at hblue
  cases hblue

end Site

end ScummKit
