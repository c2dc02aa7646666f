import Mathlib
import ScummKit.Costume.Pict
import ScummKit.Proofs.Image.EgaStripes
import ScummKit.Proofs.Image.Palettes
import ScummKit.Proofs.Image.Tables

/-!
# Pictures of costumes and their records

The pixels of a picture are taken down its columns, gathered in runs, and each run is written with the
entry of its colour. The runs of a picture give back its pixels, and with them the picture, under any
palette that has the same colours at the same entries (`Pict.Formed.restored`): a palette that was written
and read again may differ in what its colours have beyond three bands.
-/

namespace ScummKit

open List

/-- Two colours that agree in their first three bands. -/
def Shade.Alike (s t : Shade) : Prop :=
  ∃ r g b more rest, s = .bands (r :: g :: b :: more) ∧ t = .bands (r :: g :: b :: rest)

theorem Shade.Alike.shows {s t : Shade} (h : s.Alike t) {px : Pixel} (hpx : px.length = 3) (hs : s.Shows px) : t.Shows px := by
  obtain ⟨r, g, b, more, rest, rfl, rfl⟩ := h
  obtain ⟨x, y, z, rfl⟩ := exists_bands hpx
  exact (shows_iff r g b rest x y z).2 ((shows_iff r g b more x y z).1 hs)

theorem flatMapM_ok {ε : Type} {f : α → Except ε (List β)} {g : α → List β} {xs : List α}
    (h : ∀ a ∈ xs, f a = .ok (g a)) : xs.flatMapM f = .ok (xs.flatMap g) := by
  induction xs with
  | nil => rfl
  | cons a xs ih =>
    rw [flatMapM_cons, h a mem_cons_self, ih fun b hb => h b (mem_cons_of_mem a hb)]
    rfl

namespace Costume

/-! ### Colours -/

/-- A palette of a costume and one that it is read as. -/
structure Recoloured (palette given : Palette) : Prop where
  size : palette.length = 16 ∨ palette.length = 32
  alike : List.Forall₂ Shade.Alike palette given
  valid : given.Valid

section Colours

variable {palette given : Palette} {px : Pixel}

theorem Recoloured.countSize_eq (h : Recoloured palette given) : countSize given = countSize palette := by
  rw [countSize, countSize, h.alike.length_eq]

theorem Recoloured.length_mul (h : Recoloured palette given) : palette.length * countSize palette = 256 := by
  rcases h.size with hsize | hsize <;> rw [countSize, hsize] <;> rfl

theorem countSize_pos (palette : Palette) : 0 < countSize palette := by
  rw [countSize]
  split <;> decide

section

variable (h : Recoloured palette given)

include h

theorem Recoloured.room {i : Nat} (hi : i < palette.length) : i * countSize palette + countSize palette ≤ 256 := by
  rw [← h.length_mul, ← Nat.succ_mul]
  exact Nat.mul_le_mul_right _ hi

theorem Recoloured.countSize_pow : ∃ i, countSize palette = 2 ^ i := by
  rcases h.size with hsize | hsize
  · exact ⟨4, by rw [countSize, hsize]; rfl⟩
  · exact ⟨3, by rw [countSize, hsize]; rfl⟩

theorem Recoloured.bands : ∀ s ∈ palette, ∃ r g b rest, s = .bands (r :: g :: b :: rest) := by
  intro s hs
  obtain ⟨i, hi, rfl⟩ := mem_iff_getElem.1 hs
  obtain ⟨r, g, b, more, rest, hs, -⟩ := h.alike.get hi (h.alike.length_eq ▸ hi)
  exact ⟨r, g, b, more, hs⟩

theorem Recoloured.entry (hpx : px.length = 3) (hfound : ∃ s ∈ palette, s.Shows px) :
    ∃ n s, palette.index (colourOf px) = .ok n ∧ n < palette.length ∧ Position.look given n = .ok s ∧ s.ink = .ok px := by
  obtain ⟨n, s, hfind, hget, hshows, -⟩ := findFrom_eq h.bands hpx hfound 0
  obtain ⟨hlt, rfl⟩ := List.getElem?_eq_some_iff.1 hget
  have hlt' : n < given.length := h.alike.length_eq ▸ hlt
  refine ⟨n, given[n], ?_, hlt, ?_, ?_⟩
  · rw [Palette.index, hfind, Nat.zero_add]
    rfl
  · exact look_of_getElem? (getElem?_eq_getElem hlt')
  · exact h.valid.ink (getElem_mem hlt') hpx ((h.alike.get hlt hlt').shows hpx hshows)

end

end Colours

/-! ### Runs -/

namespace PictEntry

theorem colourOf_inj {p q : Pixel} (h : colourOf p = colourOf q) : p = q := by
  have hmap : p.map (fun b => (b.toNat : Int)) = q.map fun b => (b.toNat : Int) := Shade.bands.inj h
  refine map_injective_iff.2 (fun a b hab => ?_) hmap
  exact UInt8.toNat_inj.1 (Int.ofNat_inj.1 hab)

theorem exists_runsFrom (px : Pixel) {n : Nat} (hpos : 0 < n) (hn : n ≤ 0xff) (pixels : List Pixel) : ∃ rs : List (Pixel × Nat),
    runsFrom (colourOf px) n (pixels.map colourOf) = rs.map (fun r => (colourOf r.1, r.2)) ∧
    (∀ r ∈ rs, (0 < r.2 ∧ r.2 ≤ 0xff) ∧ r.1 ∈ px :: pixels) ∧
    rs.flatMap (fun r => List.replicate r.2 r.1) = List.replicate n px ++ pixels := by
  induction pixels generalizing px n with
  | nil => exact ⟨[(px, n)], rfl, by simp [hpos, hn], by simp⟩
  | cons q rest ih =>
    rw [map_cons, runsFrom]
    split
    · rename_i hsame
      obtain ⟨hcolour, hlt⟩ := hsame
      obtain rfl := colourOf_inj hcolour
      obtain ⟨rs, hruns, hbounds, hpixels⟩ := ih q (Nat.succ_pos n) hlt
      refine ⟨rs, hruns, fun r hr => ⟨(hbounds r hr).1, mem_cons_of_mem _ (hbounds r hr).2⟩, ?_⟩
      rw [hpixels, replicate_succ', append_assoc, singleton_append]
    · obtain ⟨rs, hruns, hbounds, hpixels⟩ := ih q Nat.one_pos (by decide)
      refine ⟨(px, n) :: rs, ?_, ?_, ?_⟩
      · rw [hruns, map_cons]
      · intro r hr
        rcases mem_cons.1 hr with rfl | hr
        · exact ⟨⟨hpos, hn⟩, mem_cons_self⟩
        · exact ⟨(hbounds r hr).1, mem_cons_of_mem _ (hbounds r hr).2⟩
      · rw [flatMap_cons, hpixels, replicate_one, singleton_append]

theorem exists_runs (pixels : List Pixel) :
    ∃ rs : List (Pixel × Nat), runs (pixels.map colourOf) = rs.map (fun r => (colourOf r.1, r.2)) ∧
    (∀ r ∈ rs, (0 < r.2 ∧ r.2 ≤ 0xff) ∧ r.1 ∈ pixels) ∧ rs.flatMap (fun r => List.replicate r.2 r.1) = pixels := by
  cases pixels with
  | nil => exact ⟨[], rfl, by simp, rfl⟩
  | cons px rest =>
    obtain ⟨rs, hruns, hbounds, hpixels⟩ := exists_runsFrom px Nat.one_pos (by decide) rest
    exact ⟨rs, hruns, hbounds, hpixels⟩

end PictEntry

section Runs

variable {palette given : Palette} {px : Pixel}

def runCode (size i n : Nat) : List Int :=
  if size ≤ n then [((i * size : Nat) : Int), (n : Int)] else [((i * size + n : Nat) : Int)]

section

variable (h : Recoloured palette given) {i n : Nat}

include h

theorem Recoloured.runBytes {shade : Shade} (hindex : palette.index shade = .ok i) :
    PictEntry.runBytes palette (shade, n) = .ok (runCode (countSize palette) i n) := by
  rw [PictEntry.runBytes]
  simp only [hindex, Bind.bind, Except.bind, pure, Except.pure, runCode]
  split
  · rfl
  · rename_i hlt
    obtain ⟨e, he⟩ := h.countSize_pow
    rw [he] at hlt ⊢
    rw [Nat.mul_comm i, ← Nat.two_pow_add_eq_or_of_lt (by omega)]

theorem Recoloured.areBytes_runCode (hi : i < palette.length) (hn : n ≤ 0xff) :
    AreBytes (runCode (countSize palette) i n) := by
  have hroom := h.room hi
  have hsize := countSize_pos palette
  rw [runCode]
  split
  · exact .cons (by omega) (.singleton (by omega))
  · exact .singleton (by omega)

theorem Recoloured.runPixels_run {s : Shade} {i n room : Nat}
    (hi : i < palette.length) (hlook : Position.look given i = .ok s) (hink : s.ink = .ok px) (hpos : 0 < n)
    (hroom : n ≤ room) {rest : List Int} {pixels : List Pixel} (hrest : runPixels given (room - n) rest = .ok pixels) :
    runPixels given room (runCode (countSize palette) i n ++ rest) = .ok (List.replicate n px ++ pixels) := by
  have hsize := countSize_pos palette
  have hbyte := h.room hi
  have hcolour : ∀ k : Nat, k < countSize palette →
      ((i * countSize palette + k : Nat) : Int) % 256 / (countSize palette) = i ∧
      ((i * countSize palette + k : Nat) : Int) % countSize palette = k := by
    intro k hk
    have hlow : ((i * countSize palette + k : Nat) : Int) % 256 = (i * countSize palette + k : Nat) :=
      Int.emod_eq_of_lt (by omega) (by omega)
    rw [hlow, ← Int.natCast_ediv, ← Int.natCast_emod, Nat.mul_comm i, Nat.mul_add_div hsize,
      Nat.div_eq_of_lt hk, Nat.mul_add_mod, Nat.mod_eq_of_lt hk]
    exact ⟨rfl, rfl⟩
  have hmin : min n room = n := Nat.min_eq_left hroom
  rw [runCode]
  split
  · obtain ⟨hcol, hmod⟩ := hcolour 0 hsize
    rw [Nat.add_zero] at hcol hmod
    rw [cons_append, cons_append, nil_append, runPixels, if_neg (by omega)]
    simp only [h.countSize_eq, hcol, hmod, Int.natCast_zero, if_true, if_neg (show ¬(n : Int) ≤ 0 by omega),
      hlook, hink, hrest, hmin, Int.toNat_natCast, Bind.bind, Except.bind, pure, Except.pure]
  · obtain ⟨hcol, hmod⟩ := hcolour n (by omega)
    rw [cons_append, nil_append, runPixels, if_neg (by omega)]
    simp only [h.countSize_eq, hcol, hmod, if_neg (show ¬(n : Int) = 0 by omega),
      if_neg (show ¬(n : Int) ≤ 0 by omega), hlook, hink, hrest, hmin, Int.toNat_natCast, Bind.bind, Except.bind,
      pure, Except.pure]

end

theorem runPixels_zero (data : List Int) : runPixels given 0 data = .ok [] := by
  cases data with
  | nil => rfl
  | cons b rest => rw [runPixels, if_pos rfl]

theorem Recoloured.runPixels_runs (h : Recoloured palette given) (pixels : List Pixel)
    (hlength : ∀ px ∈ pixels, px.length = 3) (hfound : ∀ px ∈ pixels, ∃ s ∈ palette, s.Shows px) :
    ∃ body, (PictEntry.runs (pixels.map colourOf)).flatMapM (PictEntry.runBytes palette) = .ok body ∧ AreBytes body ∧
    runPixels given pixels.length body = .ok pixels := by
  obtain ⟨rs, hruns, hbounds, hpixels⟩ := PictEntry.exists_runs pixels
  have hlist : ∀ rs : List (Pixel × Nat), (∀ r ∈ rs, (0 < r.2 ∧ r.2 ≤ 0xff) ∧ r.1 ∈ pixels) →
      ∃ body, (rs.map fun r => (colourOf r.1, r.2)).flatMapM (PictEntry.runBytes palette) = .ok body ∧ AreBytes body ∧
        runPixels given (rs.flatMap fun r => List.replicate r.2 r.1).length body
          = .ok (rs.flatMap fun r => List.replicate r.2 r.1) := by
    intro rs hbounds
    induction rs with
    | nil => exact ⟨[], rfl, .nil, runPixels_zero _⟩
    | cons r rs ih =>
      obtain ⟨⟨hpos, hmost⟩, hmem⟩ := hbounds r mem_cons_self
      obtain ⟨i, s, hindex, hi, hlook, hink⟩ := h.entry (hlength r.1 hmem) (hfound r.1 hmem)
      obtain ⟨body, hbody, hbytes, hread⟩ := ih fun t ht => hbounds t (mem_cons_of_mem _ ht)
      refine ⟨runCode (countSize palette) i r.2 ++ body, ?_, (h.areBytes_runCode hi hmost).append hbytes, ?_⟩
      · rw [map_cons, flatMapM_cons, h.runBytes hindex, hbody]
        rfl
      · rw [flatMap_cons, length_append, length_replicate]
        refine h.runPixels_run hi hlook hink hpos (Nat.le_add_right _ _) ?_
        rw [Nat.add_sub_cancel_left]
        exact hread
  obtain ⟨body, hbody, hbytes, hread⟩ := hlist rs hbounds
  rw [hpixels] at hread
  exact ⟨body, by rw [hruns, hbody], hbytes, hread⟩

end Runs

/-! ### Columns -/

section Columns

variable {image : Picture}

def columns (image : Picture) : List Pixel :=
  (List.range image.width).flatMap fun x => (List.range image.height).map fun y => image.pixelAt x y

theorem columnShades_eq (h : image.Rgb) (hheight : 0 < image.height) :
    PictEntry.columnShades image image.width image.height = .ok ((columns image).map colourOf) := by
  have hcolumn : ∀ x ∈ List.range image.width, (List.range image.height).mapM (fun (y : Nat) => image.get x y)
        = .ok ((List.range image.height).map fun y => colourOf (image.pixelAt x y)) := by
    intro x hx
    exact mapM_ok fun y hy => Picture.get_of_mode h.mode (mem_range.1 hx) (mem_range.1 hy)
  rw [PictEntry.columnShades, if_neg (by omega), Int.toNat_natCast, Int.toNat_natCast, flatMapM_ok hcolumn, columns, map_flatMap]
  simp only [map_map]
  rfl

theorem mem_columns (h : image.Rgb) {px : Pixel} (hpx : px ∈ columns image) : px ∈ image.pixels.toList := by
  obtain ⟨x, hx, hpx⟩ := mem_flatMap.1 hpx
  obtain ⟨y, hy, rfl⟩ := mem_map.1 hpx
  exact h.mem (mem_range.1 hx) (mem_range.1 hy)

theorem columns_eq (hheight : 0 < image.height) : columns image = (List.range (image.width * image.height)).map
    fun n => image.pixelAt (n / image.height) (n % image.height) := Stripe.flatMap_range image.width hheight

theorem ofColumns_columns (h : image.Rgb) (hheight : 0 < image.height) :
    ofColumns image.width image.height (columns image) = image := by
  rw [ofColumns]
  refine (Picture.ofFn_congr fun x hx y hy => ?_).trans (Picture.ofFn_pixelAt h)
  have hplace : x * image.height + y < image.width * image.height := by
    have hle : (x + 1) * image.height ≤ image.width * image.height := Nat.mul_le_mul_right _ hx
    rw [Nat.succ_mul] at hle
    omega
  rw [getElem?_toArray, columns_eq hheight, getElem?_map, getElem?_range hplace, Option.map_some, Option.getD_some,
    Nat.mul_comm x, Nat.mul_add_div hheight, Nat.div_eq_of_lt hy, Nat.add_zero, Nat.mul_add_mod, Nat.mod_eq_of_lt hy]

end Columns

/-! ### Records -/

/-- A picture as it is read from a record: its numbers fit their fields, and it is painted with the colours
of the costume. -/
structure Pict.Formed (p : Pict) (redirectable : Bool) (palette : Palette) : Prop where
  image : p.image.Rgb
  width : p.width = p.image.width ∧ p.image.width < 65536
  height : p.height = p.image.height ∧ 0 < p.image.height ∧ p.image.height < 65536
  places : ∀ v ∈ [p.relativeX, p.relativeY, p.moveX, p.moveY], -0x8000 ≤ v ∧ v < 0x8000
  redirect : redirectable = false → p.redirectLimb = 0 ∧ p.redirectPict = 0
  colours : ∀ px ∈ p.image.pixels.toList, ∃ s ∈ palette, s.Shows px

/-- Pictures with the same numbers and pixels. Where they are drawn on a sheet, which limb they were met
for, and the runs they were read from, may differ. -/
def Pict.Same (p q : Pict) : Prop :=
  p = { q with sheetX := p.sheetX, sheetY := p.sheetY, limb := p.limb, data := p.data }

section Records

variable {palette given : Palette} {redirectable : Bool} {p : Pict}
variable {body : List Int}

theorem ofLE_bytes {v : Int} (h : 0 ≤ v ∧ v < 65536) : Word.ofLE [v % 256, v / 256 % 256] = v := by
  rw [Word.ofLE, Word.ofLE, Word.ofLE]
  omega

theorem runImage_eq (hp : p.image.Rgb) (hheight : 0 < p.image.height)
    (hread : runPixels given (columns p.image).length body = .ok (columns p.image)) :
    runImage given p.image.width p.image.height body = .ok p.image := by
  rw [columns_eq hheight, length_map, length_range, ← columns_eq hheight] at hread
  rw [runImage, Picture.checkSize, if_neg (by omega)]
  simp only [Bind.bind, Except.bind, Int.toNat_natCast, if_neg (show ¬(p.image.height = 0 ∧ 0 < p.image.width) by omega),
    hread, pure, Except.pure, ofColumns_columns hp hheight]

def Pict.headBytes (p : Pict) (redirectable : Bool) : List Int :=
  Word.toLE 2 p.width ++ Word.toLE 2 p.height
    ++ ([p.relativeX, p.relativeY, p.moveX, p.moveY].flatMap fun v => Word.toLE 2 (Word.signedEncode v))
    ++ if redirectable then [p.redirectLimb, p.redirectPict] else []

section

variable (h : p.Formed redirectable palette)

include h

theorem Pict.Formed.encode
    (hbody : (PictEntry.runs ((columns p.image).map colourOf)).flatMapM (PictEntry.runBytes palette) = .ok body) :
    (PictEntry.of p).encode palette redirectable = .ok ((p.headBytes redirectable ++ body).map Json.int) := by
  have hshades : PictEntry.columnShades p.image p.width p.height = .ok ((columns p.image).map colourOf) := by
    rw [h.width.1, h.height.1]
    exact columnShades_eq h.image h.height.2.1
  have hplaces : [Json.int p.relativeX, .int p.relativeY, .int p.moveX, .int p.moveY].mapM Json.integer
      = .ok [p.relativeX, p.relativeY, p.moveX, p.moveY] := rfl
  simp only [PictEntry.encode, PictEntry.of, Json.integer, hplaces, hshades, hbody, Bind.bind, Except.bind, pure,
    Except.pure, Pict.headBytes]
  cases redirectable <;> simp

theorem Pict.Formed.decode (hread : runPixels given (columns p.image).length body = .ok (columns p.image)) (limb : Int) :
    ∃ q, Pict.decode (p.headBytes redirectable ++ body) limb redirectable given = .ok q ∧ q.Same p := by
  obtain ⟨sheetX, sheetY, width, height, relativeX, relativeY, moveX, moveY, redirectLimb, redirectPict, limb', data, image⟩ := p
  have himage := runImage_eq h.image h.height.2.1 hread
  have hwidth := h.width
  have hheight := h.height
  have hplaces := h.places
  have hredirect := h.redirect
  dsimp only at himage hwidth hheight hplaces hredirect
  obtain ⟨rfl, hw⟩ := hwidth
  obtain ⟨rfl, -, hh⟩ := hheight
  obtain ⟨hrx, hry, hmx, hmy⟩ : (-0x8000 ≤ relativeX ∧ relativeX < 0x8000) ∧
      (-0x8000 ≤ relativeY ∧ relativeY < 0x8000) ∧ (-0x8000 ≤ moveX ∧ moveX < 0x8000) ∧
      (-0x8000 ≤ moveY ∧ moveY < 0x8000) := by
    simpa using hplaces
  have hsigned : ∀ {v : Int}, -0x8000 ≤ v ∧ v < 0x8000 →
      Word.signedDecode (Word.ofLE [Word.signedEncode v % 256, Word.signedEncode v / 256 % 256]) = v := by
    intro v hv
    rw [ofLE_bytes (by rw [Word.signedEncode]; omega), Word.signedDecode, Word.signedEncode]
    omega
  have hw' : Word.ofLE [(image.width) % 256, image.width / 256 % 256] = image.width :=
    ofLE_bytes (by omega)
  have hh' : Word.ofLE [image.height % 256, (image.height) / 256 % 256] = image.height :=
    ofLE_bytes (by omega)
  refine ⟨⟨0, 0, image.width, image.height, relativeX, relativeY, moveX, moveY, redirectLimb, redirectPict, limb,
    body, image⟩, ?_, rfl⟩
  cases redirectable with
  | true =>
    simp only [Pict.decode, Pict.headBytes, Word.toLE, flatMap_cons, flatMap_nil, cons_append,
      nil_append, Take.count, Take.word, Take.signed, Take.item, StateT.run, Bind.bind,
      StateT.bind, Except.bind, pure, StateT.pure, Except.pure, if_true, hw', hh', hsigned hrx, hsigned hry,
      hsigned hmx, hsigned hmy, himage]
  | false =>
    obtain ⟨rfl, rfl⟩ := hredirect rfl
    simp only [Pict.decode, Pict.headBytes, Word.toLE, flatMap_cons, flatMap_nil, cons_append,
      nil_append, Take.count, Take.word, Take.signed, StateT.run, Bind.bind,
      StateT.bind, Except.bind, pure, StateT.pure, Except.pure, Bool.false_eq_true, if_false, hw', hh', hsigned hrx,
      hsigned hry, hsigned hmx, hsigned hmy, himage]

theorem Pict.Formed.exists_body (hcolours : Recoloured palette given) :
    ∃ body, (PictEntry.of p).encode palette redirectable = .ok ((p.headBytes redirectable ++ body).map Json.int) ∧
    AreBytes body ∧ ∀ limb, ∃ q, Pict.decode (p.headBytes redirectable ++ body) limb redirectable given = .ok q ∧ q.Same p := by
  obtain ⟨body, hbody, hbytes, hread⟩ := hcolours.runPixels_runs (columns p.image)
    (fun px hpx => h.image.pixel px (mem_columns h.image hpx)) fun px hpx => h.colours px (mem_columns h.image hpx)
  exact ⟨body, h.encode hbody, hbytes, h.decode hread⟩

theorem Pict.Formed.restored (hcolours : Recoloured palette given) :
    ∃ bytes, (PictEntry.of p).encode palette redirectable = .ok (bytes.map Json.int) ∧ 1 < bytes.length ∧
    ∀ limb, ∃ q, Pict.decode bytes limb redirectable given = .ok q ∧ q.Same p := by
  obtain ⟨body, hencode, -, hdecode⟩ := h.exists_body hcolours
  refine ⟨_, hencode, ?_, hdecode⟩
  exact Nat.succ_lt_succ (Nat.succ_pos _)

end

theorem Pict.areBytes_headBytes (hredirect : redirectable = true → AreBytes [p.redirectLimb, p.redirectPict]) :
    AreBytes (p.headBytes redirectable) := by
  have hplaces : AreBytes ([p.relativeX, p.relativeY, p.moveX, p.moveY].flatMap fun v => Word.toLE 2 (Word.signedEncode v)) := by
    intro b hb
    obtain ⟨v, -, hb⟩ := mem_flatMap.1 hb
    exact Word.areBytes_toLE 2 _ b hb
  refine (((Word.areBytes_toLE 2 _).append (Word.areBytes_toLE 2 _)).append hplaces).append ?_
  split
  · exact hredirect ‹_›
  · exact .nil

/-- The record of a picture consists of bytes and gives back its pixels and its numbers. -/
theorem pict_restored (hsize : palette.length = 16 ∨ palette.length = 32) (hpalette : palette.Valid)
    (h : p.Formed redirectable palette) (hredirect : redirectable = true → AreBytes [p.redirectLimb, p.redirectPict]) :
    ∃ bytes, (PictEntry.of p).encode palette redirectable = .ok (bytes.map Json.int) ∧ AreBytes bytes ∧
    ∀ limb, ∃ q, Pict.decode bytes limb redirectable palette = .ok q ∧ q.Same p := by
  have halike : List.Forall₂ Shade.Alike palette palette := List.forall₂_same.2 fun s hs => by
    obtain ⟨r, g, b, rest, rfl, -⟩ := hpalette.bands s hs
    exact ⟨r, g, b, rest, rest, rfl, rfl⟩
  obtain ⟨body, hencode, hbody, hdecode⟩ := h.exists_body ⟨hsize, halike, hpalette⟩
  exact ⟨_, hencode, (Pict.areBytes_headBytes hredirect).append hbody, hdecode⟩

/-- Three pixels in two columns, of which the second run passes from one column to the other. -/
def stub : Pict :=
  ⟨0, 0, 2, 2, -8, -32768, 32767, 0, 255, 7, 0, [], ⟨.rgb, 2, 2, #[[0, 0, 0], [0, 0, 0xaa], [0, 0, 0xaa], [0, 0xaa, 0]]⟩⟩

theorem pict_restored_stub : ∃ bytes, (PictEntry.of stub).encode Palette.ega true = .ok (bytes.map Json.int) ∧ AreBytes bytes ∧
    ∀ limb, ∃ q, Pict.decode bytes limb true Palette.ega = .ok q ∧ q.Same stub := by
  refine pict_restored (.inl rfl) Palette.valid_ega ⟨⟨rfl, rfl, by decide⟩, ⟨rfl, by decide⟩, ⟨rfl, by decide, by decide⟩, by decide,
    nofun, fun px hpx => ?_⟩ fun _ => .cons (by decide) (.singleton (by decide))
  have hshown : ∀ px ∈ stub.image.pixels.toList, colourOf px ∈ Palette.ega := by decide
  exact ⟨colourOf px, hshown px hpx, [], (append_nil _).symm ▸ rfl⟩

end Records

end Costume

end ScummKit
