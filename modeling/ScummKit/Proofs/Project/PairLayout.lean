import ScummKit.Proofs.Project.PairOrder

/-!
# The file of a pair gives both pictures back

A file of version 4 holds its length, a tag, and a picture and its mask, each behind a length that counts itself.
Whoever reads it finds each part from the lengths in front of it, so what is decoded is the picture that was
encoded, and its mask unless that is black all over (`Site.pair_restored`).
-/

namespace ScummKit

open List Work Asset

theorem Mask.length_encode {s : Stripe} {data : List Int} (h : encode s = .ok data) : 0 < data.length := by
  obtain ⟨rows, -, h⟩ := bind_eq_ok.mp h
  obtain rfl := Except.ok.inj h
  rw [rowData]
  split <;> rw [length_append] <;> exact Nat.lt_add_left _ (Nat.succ_pos _)

theorem lift_ok_bind (x : α) (f : α → Work β) : ((liftM (Except.ok x : Except Fault α) : Work α) >>= f) = f x := rfl

namespace ImageFile

/-- Saves a picture where that of a file belongs, and beside it its mask, unless that is black all over. -/
def saveBoth (stamped : Bool) (sub : Subject) (p : Path) (pic layer : Picture) : Work Unit := do
  let plain := p.rename (Text.swap · ".dmp" "_image.png")
  let target ← if sub = .object then (flatten plain 1 : Except Fault Path) else pure plain
  save stamped target pic
  if layer.pixels.all (· = [0, 0, 0]) then return
  save stamped (target.rename (Text.swap · "_image" "_zplane")) layer

/-- A stored image that can be looked at: what it shows, its data, and the size and the palette that belong to it. -/
structure Shown (w : Workspace) (p : Path) (sub : Subject) (name : String) (given palette : Palette) (data : List Int)
    (width height : Nat) : Prop where
  subject : subject p "4" = .ok (some sub)
  data : Gives (octets p) w data w
  size : Gives (size p "4" (some sub)) w ((width : Int), (height : Int)) w
  palette : Gives (paletteFor name given p "4" (some sub)) w palette w

theorem Shown.result_decode {v w : Workspace} {p : Path} {sub : Subject} {name : String} {given palette : Palette}
    {data : List Int} {width height : Nat} (hsaid : Gives (say s!"Decoding {p.text}") v () w)
    (h : Shown w p sub name given palette data width height) (stamped : Bool) :
    result (decode "4" stamped name given p) v = result (decode4 stamped name palette (some sub) p data width height) w := by
  rw [decode, hsaid.result_bind, h.data.result_bind, (gives_lift.mpr ⟨h.subject, rfl⟩).result_bind, h.size.result_bind,
    h.palette.result_bind]
  rfl

end ImageFile

namespace Pair

variable {a : Pair} {video : Video} {body maskBody : List Int} {name : String} {palette : Palette} {sub : Subject}

theorem length_data : (a.data video body maskBody).length
    = 4 + a.tag.length + (video.wordSize + body.length) + (2 + maskBody.length) := by
  simp only [data, length_append, Word.length_toLE]
  omega

theorem decode4_data (hvideo : Video.ofText? name = some video) (htag : a.tag.length = if sub = .room then 2 else 4)
    (hlength : video.wordSize + body.length < Nat.pow 256 video.wordSize)
    (hbody : 2 ≤ body.length) (hmaskBody : 2 < maskBody.length) {width height : Int} {blank blank' : Bool}
    (hpic : Subimage.decode video body width height video.wordSize palette = .ok (a.pic, blank'))
    (hlayer : Subimage.decode .mask maskBody width height 2 [] = .ok (a.layer, blank))
    (hblank : blank = a.layer.pixels.all (· = [0, 0, 0])) (stamped : Bool) (p : Path) :
    ImageFile.decode4 stamped name palette (some sub) p (a.data video body maskBody) width height
    = ImageFile.saveBoth stamped sub p a.pic a.layer := by
  have hall : (a.data video body maskBody).length = _ := length_data
  have hheader : (if some sub = some Subject.room then 6 else 8 : Int) = (4 + a.tag.length : Nat) := by
    rw [htag]
    cases sub <;> rfl
  have hsize : ImageFile.wordSize name = .ok video.wordSize := by rw [ImageFile.wordSize, hvideo]
  have hfirst : Word.decodeLE (Position.cut (a.data video body maskBody) (4 + a.tag.length : Nat)
      ((4 + a.tag.length : Nat) + video.wordSize)) video.wordSize = .ok (video.wordSize + body.length : Nat) := by
    rw [cut_at (Word.toLE 4 _ ++ a.tag) (Word.toLE video.wordSize _) ⟨_, by simp only [data, append_assoc]; rfl⟩
      (by rw [length_append, Word.length_toLE]) (by rw [Word.length_toLE])]
    exact Word.decodeLE_toLE Video.wordSize_le (by omega) (by exact_mod_cast hlength)
  have hsecond : Position.cut (a.data video body maskBody) ((4 + a.tag.length : Nat) + video.wordSize)
      ((video.wordSize + body.length : Nat) + (4 + a.tag.length : Nat)) = body :=
    cut_at (Word.toLE 4 _ ++ a.tag ++ Word.toLE video.wordSize _) body ⟨_, by simp only [data, append_assoc]; rfl⟩
      (by simp only [length_append, Word.length_toLE]; omega) (by omega)
  have hthird : Position.onward (a.data video body maskBody)
      ((video.wordSize + body.length : Nat) + (4 + a.tag.length : Nat) + 2) = maskBody := by
    rw [Position.onward, Position.bound, if_neg (by omega)]
    refine drop_left' ?_
    simp only [length_append, Word.length_toLE]
    omega
  have hcoded : Subimage.decodeNamed name body width height video.wordSize palette = .ok (a.pic, blank') := by
    rw [Subimage.decodeNamed, hvideo]
    exact hpic
  have hmasked : Subimage.decodeNamed "zplane" maskBody width height 2 [] = .ok (a.layer, blank) := hlayer
  rw [ImageFile.decode4, hheader, hsize]
  have hlong : ¬ ((a.data video body maskBody).length : Int) ≤ (4 + a.tag.length : Nat) + 4 := by omega
  have hmore : ¬ ((a.data video body maskBody).length : Int)
      ≤ (video.wordSize + body.length : Nat) + (4 + a.tag.length : Nat) + 4 := by omega
  simp only [lift_ok_bind, if_neg hlong, hfirst, hsecond, hcoded, if_neg hmore, hthird, hmasked, hblank]
  cases sub <;> rfl

end Pair

namespace Site

variable {s : Site} {w : Workspace} {a : Pair}

theorem length_tag4 {target : Path} {sub : Subject} {tag : List Int} {v : Workspace}
    (h : Gives (ImageFile.tag4 target (some sub)) w tag v) : tag.length = if sub = .room then 2 else 4 := by
  cases sub with
  | object =>
    obtain ⟨number, _, -, h⟩ := gives_bind.mp h
    obtain ⟨rfl, -⟩ := gives_pure.mp h
    rfl
  | room =>
    obtain ⟨rfl, -⟩ := gives_pure.mp h
    rfl

/-- A mask shows its first colour all over exactly if it is black. -/
theorem all_black {layer : Picture} (h : layer.Rgb) {blank : Bool}
    (hblank : blank = true ↔ ∀ px ∈ layer.pixels.toList, ∃ t, Palette.mask[0]? = some t ∧ t.Shows px) :
    blank = layer.pixels.all (· = [0, 0, 0]) := by
  have hblack : ∀ px ∈ layer.pixels.toList, (∃ t, Palette.mask[0]? = some t ∧ t.Shows px) ↔ px = [0, 0, 0] := by
    intro px hpx
    obtain ⟨x, y, z, rfl⟩ := exists_bands (h.pixel px hpx)
    constructor
    · rintro ⟨t, ht, hshows⟩
      obtain rfl := Option.some.inj ht
      obtain ⟨hx, hy, hz⟩ := (shows_iff 0 0 0 [] x y z).1 hshows
      have hzero : ∀ {b : UInt8}, (0 : Int) = b.toNat → b = 0 := fun hb => UInt8.toNat_inj.1 (Int.ofNat.inj hb.symm)
      rw [hzero hx, hzero hy, hzero hz]
    · rintro heq
      exact ⟨_, rfl, heq ▸ ⟨[], rfl⟩⟩
  rw [Bool.eq_iff_iff, hblank, ← Array.all_toList, all_eq_true]
  exact forall₂_congr fun px hpx => by rw [hblack px hpx, decide_eq_true_eq]

/-- The pictures of a pair, of one size and in the colours of their palettes, with data whose lengths can be told. -/
structure Sized (a : Pair) (video : Video) (palette : Palette) : Prop where
  pic : a.pic.Rgb
  layer : a.layer.Rgb
  width : 0 < a.pic.width ∧ a.pic.width % 8 = 0 ∧ a.layer.width = a.pic.width
  height : 0 < a.pic.height ∧ a.layer.height = a.pic.height
  valid : video = .vga → palette.Valid
  covers : (video.palette palette).Covers a.pic
  masked : Palette.mask.Covers a.layer
  fits : ∀ body, Subimage.encode video a.pic video.wordSize palette = .ok body →
    video.wordSize + body.length < Nat.pow 256 video.wordSize
  fitsMask : ∀ maskBody, Subimage.encode .mask a.layer 2 [] = .ok maskBody → 2 + maskBody.length < 65536

/-- A pair is stored behind its length. What is stored for a room or an object gives back both pictures, the mask
unless it is black all over. -/
theorem pair_restored {stamped : Bool} {fields : List (String × Json)} {video : Video} {name : String}
    {given palette : Palette} {p : Path} (h : s.Holds w a fields) (hp : p = s.path a.picture ∨ p = s.path a.mask)
    (hpalette : Gives (ImageFile.paletteFor name given (s.path a.target) "4" a.shows) w palette w)
    (hvideo : Video.ofText? name = some video) (hsized : Sized a video palette) :
    ∃ u bs data, Gives (ImageFile.encode "4" stamped name given p) w () u
    ∧ (∃ time, u.files.lookup (s.src ++ a.target) = some (.file (.data bs) time))
    ∧ a.bytes video palette = .ok bs ∧ bs.map (fun b => (b.toNat : Int)) = data
    ∧ (data.length < 2 ^ 32 → Word.decodeLE (Position.cut data 0 4) 4 = .ok data.length)
    ∧ ∀ sub, a.shows = some sub → ∀ stamped' given' q v v', Gives (say s!"Decoding {q.text}") v () v' →
    ImageFile.Shown v' q sub name given' palette data a.pic.width a.pic.height →
    result (ImageFile.decode "4" stamped' name given' q) v = result (ImageFile.saveBoth stamped' sub q a.pic a.layer) v' := by
  obtain ⟨hpos, heights, hwidth⟩ := hsized.width
  obtain ⟨hheight, hsame⟩ := hsized.height
  have htag : AreBytes a.tag := areBytes_tag4 h.tagged
  obtain ⟨body, hbody, hread⟩ : ∃ body, Subimage.encode video a.pic video.wordSize palette = .ok body ∧ _ :=
    Subimage.exists_restored hsized.pic heights hheight (Int.natCast_nonneg _) hsized.valid hsized.covers
  obtain ⟨hbytes, blank', hpic, -⟩ := hread (by exact_mod_cast hsized.fits body hbody)
  obtain ⟨maskBody, hmask, hread⟩ : ∃ maskBody, Subimage.encode .mask a.layer 2 [] = .ok maskBody ∧ _ :=
    Subimage.exists_restored hsized.layer (hwidth ▸ heights) (hsame ▸ hheight) (by decide) nofun hsized.masked
  obtain ⟨hmaskBytes, blank, hlayer, hblank⟩ := hread (by
    have hfits := hsized.fitsMask maskBody hmask
    have hpow : Nat.pow 256 Video.mask.wordSize = 65536 := rfl
    omega)
  have hoctets : AreBytes (a.data video body maskBody) := a.areBytes_data htag hbytes hmaskBytes
  obtain ⟨bs, hbs, hdata⟩ := exists_octets hoctets
  have hcoded : a.bytes video palette = .ok bs := by
    rw [Pair.bytes, hbody, hmask]
    exact hbs
  obtain ⟨u, hencode, hstored, -⟩ := h.exists_encode stamped hp hpalette hvideo hcoded
  refine ⟨u, bs, _, hencode, hstored, hcoded, hdata, fun hshort => ?_, fun sub hsub stamped' given' q v v' hsaid hshown => ?_⟩
  · have hcut : Position.cut (a.data video body maskBody) 0 4 = _ :=
      cut_at [] (Word.toLE 4 _) ⟨_, by simp only [nil_append, Pair.data, append_assoc]; rfl⟩ rfl rfl
    rw [Pair.length_data] at hshort ⊢
    rw [hcut]
    exact Word.decodeLE_toLE (by decide) (by omega) (by exact_mod_cast hshort)
  · obtain ⟨coded, hlength, -⟩ := Subimage.exists_packed hbody hheight (Video.length_palette_le hsized.valid)
    obtain ⟨codedMask, hlengthMask, hcount, hstripe⟩ := Subimage.exists_packed hmask (hsame ▸ hheight) (Nat.le_refl 2)
    have hword : 2 ≤ video.wordSize := by cases video <;> decide
    have hfirst : 1 ≤ a.pic.width / 8 := by omega
    have hbody2 : 2 ≤ body.length := by
      have := Nat.mul_le_mul hword hfirst
      omega
    have hmask2 : 2 < maskBody.length := by
      rw [hwidth] at hlengthMask hcount
      cases codedMask with
      | nil => rw [length_nil] at hcount; omega
      | cons d more =>
        obtain ⟨t, ht⟩ := hstripe d mem_cons_self
        have hd := Mask.length_encode ht
        rw [flatten_cons, length_append] at hlengthMask
        have hmaskWord : Video.mask.wordSize = 2 := rfl
        rw [hmaskWord] at hlengthMask
        omega
    have htags := length_tag4 (hsub ▸ h.tagged)
    rw [hwidth, hsame] at hlayer
    rw [hshown.result_decode hsaid, Pair.decode4_data hvideo htags (hsized.fits body hbody) hbody2 hmask2 hpic hlayer
      (all_black hsized.layer hblank)]

/-- The book's file, beside a header that tells its size. -/
def bookShelf : Workspace :=
  { bookWork with
    files := { bookTree with entries := [ (["src"], .folder 1), (["src", "book"], .folder 1), (["src", "book", "OBHD.xml"],
        .file (.data (Text.toUtf8 "<r><code><width>1</width><height>1</height></code></r>")) 1),
      (["src", "book", "OI.dmp"], .file (.data [20, 0, 0, 0, 79, 73, 7, 0, 6, 0, 4, 0, 1, 8, 6, 0, 4, 0, 1, 255]) 7)] }
    said := "Decoding /src/book/OI.dmp\n" }

theorem pair_restored_book : (∃ u, Gives (ImageFile.encode "4" false "ega" [] ⟨"/", ["src", "_book+OI_image.png"]⟩) bookWork () u
    ∧ ∃ time, u.files.lookup ["src", "book", "OI.dmp"] = some (.file
    (.data [20, 0, 0, 0, 79, 73, 7, 0, 6, 0, 4, 0, 1, 8, 6, 0, 4, 0, 1, 255]) time))
    ∧ result (ImageFile.decode "4" false "ega" [] ⟨"/", ["src", "book", "OI.dmp"]⟩) { bookShelf with said := "" }
      = result (ImageFile.saveBoth false .object ⟨"/", ["src", "book", "OI.dmp"]⟩ bookPair.pic bookPair.layer)
        bookShelf := by
  have hblue : ∀ px ∈ bookPair.pic.pixels.toList, px = [0, 0, 170] := by decide
  have hwhite : ∀ px ∈ bookPair.layer.pixels.toList, px = [255, 255, 255] := by decide
  have hbody : Subimage.encode .ega bookPair.pic 2 [] = .ok [4, 0, 1, 8] := by decide
  have hmaskBody : Subimage.encode .mask bookPair.layer 2 [] = .ok [4, 0, 1, 255] := by decide
  have hbytes : bookPair.bytes .ega []
      = .ok [20, 0, 0, 0, 79, 73, 7, 0, 6, 0, 4, 0, 1, 8, 6, 0, 4, 0, 1, 255] := by decide
  have hsized : Sized bookPair .ega [] :=
    { pic := ⟨rfl, by decide, by decide⟩
      layer := ⟨rfl, by decide, by decide⟩
      width := by decide
      height := by decide
      valid := nofun
      covers := fun px hpx => ⟨.rgb 0 0 170, by decide, [], by rw [hblue px hpx]; rfl⟩
      masked := fun px hpx => ⟨.rgb 255 255 255, by decide, [], by rw [hwhite px hpx]; rfl⟩
      fits := fun body h => by rw [← Except.ok.inj (hbody.symm.trans h)]; decide
      fitsMask := fun body h => by rw [← Except.ok.inj (hmaskBody.symm.trans h)]; decide }
  have hega : Video.ofText? "ega" = some .ega := by decide
  obtain ⟨u, bs, data, hencode, hstored, hcoded, rfl, -, hdecode⟩ : ∃ u bs data,
      Gives (ImageFile.encode "4" false "ega" [] ⟨"/", ["src", "_book+OI_image.png"]⟩) bookWork () u ∧ _ :=
    pair_restored holds_bookWork (Or.inl rfl) (gives_pure.mpr ⟨rfl, rfl⟩) hega hsized
  obtain rfl := Except.ok.inj (hbytes.symm.trans hcoded)
  refine ⟨⟨u, hencode, hstored⟩, hdecode .object rfl false [] ⟨"/", ["src", "book", "OI.dmp"]⟩ _ _ rfl ?_⟩
  have hsize : (result (ImageFile.size ⟨"/", ["src", "book", "OI.dmp"]⟩ "4" (some .object)) bookShelf).1
      = .ok (8, 1) := by decide +kernel
  exact
    { subject := by decide
      data := rfl
      size := (looks_size _ _ _).gives hsize
      palette := gives_pure.mpr ⟨rfl, rfl⟩ }

end Site

end ScummKit
