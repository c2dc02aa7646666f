import Mathlib.Tactic.Choose
import ScummKit.Proofs.Image.EgaStripes
import ScummKit.Proofs.Image.MaskStripes
import ScummKit.Proofs.Image.Palettes
import ScummKit.Proofs.Image.Tables
import ScummKit.Proofs.Image.VgaStripes

/-!
# Pictures in stripes and back

A picture is taken apart into stripes of palette entries, the stripes are coded one by one and packed
behind their offsets. Each of these steps has a way back, so the whole has one: as long as the offsets
fit their table, the picture that is decoded is the picture that was encoded
(`Subimage.picture_restored`), and it is blank exactly when it shows the first entry everywhere.
-/

namespace ScummKit

open List

/-! ### The codings -/

namespace Video

/-- How many entries the stripes of a coding tell apart. -/
def limit : Video → Nat
  | .ega => 16
  | .vga => 256
  | .mask => 2

variable {video : Video} {given : Palette}

theorem restored {height : Nat} {s : Stripe} (h : s.Whole height video.limit) (hheight : 0 < height) :
    Stripe.Restored video.encodeStripe video.decodeStripe s := by
  cases video with
  | ega => exact Ega.restored h hheight
  | vga => exact Vga.restored h hheight
  | mask => exact Mask.restored h

theorem valid_palette (h : video = .vga → given.Valid) : (video.palette given).Valid := by
  cases video with
  | vga => exact h rfl
  | ega => exact Palette.valid_ega
  | mask =>
    refine Palette.valid_of_rgb (show Palette.mask.length ≤ 256 by decide) fun s hs => ?_
    simp only [palette, Palette.mask, mem_cons, not_mem_nil, or_false] at hs
    rcases hs with rfl | rfl
    all_goals exact ⟨_, _, _, rfl⟩

theorem length_palette_le (h : video = .vga → given.Valid) : (video.palette given).length ≤ video.limit := by
  cases video with
  | vga => exact (h rfl).length
  | ega => exact Nat.le_refl 16
  | mask => exact Nat.le_refl 2

theorem wordSize_le : video.wordSize ≤ Word.maxWidth := by cases video <;> decide

end Video

/-! ### A picture and its entries -/

def Palette.Covers (palette : Palette) (p : Picture) : Prop := ∀ px ∈ p.pixels.toList, ∃ s ∈ palette, s.Shows px

def Palette.entry (palette : Palette) (px : Pixel) : Nat := (palette.index (colourOf px)).toOption.getD 0

section Entries

variable {palette : Palette} {p : Picture} {px : Pixel}

theorem Palette.Valid.entry (h : palette.Valid) (hpx : px.length = 3) (hfound : ∃ s ∈ palette, s.Shows px) :
    palette.index (colourOf px) = .ok (palette.entry px) ∧ (∃ s, palette[palette.entry px]? = some s ∧ s.ink = .ok px) ∧
    (palette.entry px = 0 ↔ ∃ t, palette[0]? = some t ∧ t.Shows px) := by
  obtain ⟨n, s, hindex, hget, hshows, hfirst⟩ := h.index hpx hfound
  have hentry : palette.entry px = n := by
    rw [Palette.entry, hindex]
    rfl
  rw [hentry]
  exact ⟨hindex, ⟨s, hget, h.ink (mem_of_getElem? hget) hpx hshows⟩, hfirst⟩

theorem Palette.Covers.entry_at (hcovers : palette.Covers p) (h : palette.Valid) (hp : p.Rgb) {x y : Nat}
    (hx : x < p.width) (hy : y < p.height) : palette.index (colourOf (p.pixelAt x y)) = .ok (palette.entry (p.pixelAt x y)) ∧
    (∃ s, palette[palette.entry (p.pixelAt x y)]? = some s ∧ s.ink = .ok (p.pixelAt x y)) ∧
    (palette.entry (p.pixelAt x y) = 0 ↔ ∃ t, palette[0]? = some t ∧ t.Shows (p.pixelAt x y)) :=
  h.entry (hp.pixel _ (hp.mem hx hy)) (hcovers _ (hp.mem hx hy))

end Entries

namespace Palette

variable {palette : Palette} {colour : Shade}

theorem findFrom_lt {i n : Nat} (h : findFrom colour i palette = .ok (some n)) :
    n < i + palette.length := by
  induction palette generalizing i with
  | nil => cases h
  | cons c palette ih =>
    obtain ⟨same, -, h⟩ := bind_eq_ok.mp h
    rw [length_cons]
    cases same with
    | true =>
      obtain rfl := Option.some.inj (Except.ok.inj h)
      omega
    | false =>
      have hlt := ih h
      omega

theorem index_lt {n : Nat} (h : palette.index colour = .ok n) : n < palette.length := by
  obtain ⟨found, hfind, h⟩ := bind_eq_ok.mp h
  cases found with
  | none => cases h
  | some m =>
    obtain rfl := Except.ok.inj h
    have hlt := findFrom_lt hfind
    omega

def entryAt (palette : Palette) (p : Picture) (x y : Nat) : Except Fault Nat := do
  palette.index (← p.get x y)

end Palette

namespace Subimage

def entries (p : Picture) (palette : Palette) (i : Nat) : List Int :=
  (List.range (p.height * 8)).map fun n => (palette.entry (p.pixelAt (i * 8 + n % 8) (n / 8)) : Int)

section Splitting

variable {p : Picture} {palette : Palette} {i : Nat}

theorem seat_rows (height n : Nat) : Stripe.seat height .rows n = n := by
  simp only [Stripe.seat, Stripe.row, Stripe.column]
  omega

/-- A stripe is made of the entries of its pixels, row by row. -/
theorem stripeOf_of_entries (entry : Nat → Nat → Nat)
    (h : ∀ y x, y < p.height → x < 8 → palette.entryAt p (i * 8 + x) y = .ok (entry y x)) :
    ∃ s, stripeOf p palette i = .ok s ∧ s.pixels.toList = (List.range (p.height * 8)).map (fun n => (entry (n / 8) (n % 8) : Int))
    ∧ s.Whole p.height palette.length := by
  have hrow : ∀ y ∈ List.range p.height, ((List.range 8).mapM fun x => do
      let n ← palette.index (← p.get (i * 8 + x : Nat) y)
      return (n : Int)) = .ok ((List.range 8).map fun x => (entry y x)) := by
    intro y hy
    apply mapM_ok
    intro x hx
    have hindex : (do let n ← palette.entryAt p (i * 8 + x) y; return (n : Int)) = .ok (entry y x) := by
      rw [h y x (mem_range.mp hy) (mem_range.mp hx)]
      rfl
    rw [← hindex, Palette.entryAt, bind_assoc]
  have hflat := Stripe.flatMap_range (f := fun y x => (entry y x : Int)) p.height (b := 8) (by decide)
  rw [flatMap_def] at hflat
  let cs : List Int := (List.range (p.height * 8)).map fun n => (entry (n / 8) (n % 8))
  have hlength : cs.length = p.height * 8 := by rw [length_map, length_range]
  have hfilled : Stripe.Filled p.height .rows ([] ++ cs) (cs.foldl Stripe.write (Stripe.new p.height .rows)) :=
    Stripe.filled_new.foldl_write (.inl rfl) (by rw [length_nil]; omega)
  rw [nil_append] at hfilled
  have hpixels : (cs.foldl Stripe.write (Stripe.new p.height .rows)).pixels.toList = cs := by
    apply ext_getElem?
    intro n
    rw [Array.getElem?_toList]
    by_cases hn : n < p.height * 8
    · have hseat := hfilled.pixels n (by omega)
      rwa [seat_rows] at hseat
    · rw [Array.getElem?_eq_none (by rw [hfilled.size]; omega), getElem?_eq_none (by omega)]
  refine ⟨_, ?_, hpixels, hfilled.height_eq, hfilled.size, ?_⟩
  · rw [stripeOf, mapM_ok hrow]
    simp only [Bind.bind, Except.bind, hflat]
    rfl
  · intro c hc
    rw [hpixels] at hc
    obtain ⟨n, hn, rfl⟩ := mem_map.mp hc
    have hn := mem_range.mp hn
    obtain ⟨colour, -, hindex⟩ := bind_eq_ok.mp (h (n / 8) (n % 8) (by omega) (by omega))
    have hlt := Palette.index_lt hindex
    omega

theorem stripeOf_eq (hp : p.Rgb) (hvalid : palette.Valid) (hcovers : palette.Covers p) (hi : i * 8 + 8 ≤ p.width) :
    ∃ s, stripeOf p palette i = .ok s ∧ s.pixels.toList = entries p palette i ∧ s.Whole p.height palette.length := by
  refine stripeOf_of_entries (fun y x => palette.entry (p.pixelAt (i * 8 + x) y)) fun y x hy hx => ?_
  have hx : i * 8 + x < p.width := by omega
  rw [Palette.entryAt, Picture.get_of_mode hp.mode hx hy]
  exact (hcovers.entry_at hvalid hp hx hy).1

end Splitting

/-! ### Putting stripes together -/

section Compositing

variable {p : Picture} {palette : Palette}

def spot (palette : Palette) (px : Pixel) : Int × Pixel := (palette.entry px, px)

def spots (p : Picture) (palette : Palette) : List (List (Int × Pixel)) :=
  (List.range p.height).map fun y => (List.range p.width).map fun x => spot palette (p.pixelAt x y)

theorem ofRows_spots (hp : p.Rgb) : Picture.ofRows .rgb p.width ((spots p palette).map fun row => row.map Prod.snd) = p := by
  have hpixels : ((spots p palette).map fun row => row.map Prod.snd).flatten = p.pixels.toList := by
    rw [hp.toList_eq, spots]
    simp only [Function.comp_def, map_map, spot]
  have hheight : ((spots p palette).map fun row => row.map Prod.snd).length = p.height := by
    rw [length_map, spots, length_map, length_range]
  rw [Picture.ofRows, hpixels, hheight, ← hp.mode]

section

variable (hp : p.Rgb) (hvalid : palette.Valid) (hcovers : palette.Covers p)

include hp hvalid hcovers

theorem blank_spots : ((spots p palette).all fun row => row.all fun px => px.1 = 0) = true ↔
    ∀ px ∈ p.pixels.toList, ∃ t, palette[0]? = some t ∧ t.Shows px := by
  rw [hp.toList_eq]
  simp only [all_eq_true, decide_eq_true_eq]
  constructor
  · intro hblank px hpx
    obtain ⟨row, hrow, hpx⟩ := mem_flatten.1 hpx
    obtain ⟨y, hy, rfl⟩ := mem_map.1 hrow
    obtain ⟨x, hx, rfl⟩ := mem_map.1 hpx
    have hzero : (palette.entry (p.pixelAt x y) : Int) = 0 :=
      hblank _ (mem_map.2 ⟨y, hy, rfl⟩) _ (mem_map.2 ⟨x, hx, rfl⟩)
    exact (hcovers.entry_at hvalid hp (mem_range.1 hx) (mem_range.1 hy)).2.2.1 (Int.natCast_eq_zero.1 hzero)
  · intro hfirst row hrow px hpx
    obtain ⟨y, hy, rfl⟩ := mem_map.1 hrow
    obtain ⟨x, hx, rfl⟩ := mem_map.1 hpx
    have hshown := hfirst (p.pixelAt x y) (mem_flatten.2 ⟨_, mem_map.2 ⟨y, hy, rfl⟩, mem_map.2 ⟨x, hx, rfl⟩⟩)
    have hzero := (hcovers.entry_at hvalid hp (mem_range.1 hx) (mem_range.1 hy)).2.2.2 hshown
    exact Int.natCast_eq_zero.2 hzero

theorem rowPixels_eq {i y : Nat}
    (hi : i * 8 + 8 ≤ p.width) (hy : y < p.height) {s : Stripe} (hs : s.pixels.toList = entries p palette i) :
    rowPixels palette s y = .ok ((List.range 8).map fun x => spot palette (p.pixelAt (i * 8 + x) y)) := by
  apply mapM_ok
  intro x hx
  have hx := mem_range.1 hx
  obtain ⟨-, ⟨t, hget, hink⟩, -⟩ := hcovers.entry_at hvalid hp (x := i * 8 + x) (by omega) hy
  have hpixel : s.pixel (y * 8 + x : Nat) = .ok (palette.entry (p.pixelAt (i * 8 + x) y)) := by
    apply Stripe.pixel_of_getElem?
    rw [← Array.getElem?_toList, hs, entries, getElem?_map, getElem?_range (by omega), Option.map_some, show (y * 8 + x) % 8 = x by omega,
      show (y * 8 + x) / 8 = y by omega]
  have hlook : Position.look palette (palette.entry (p.pixelAt (i * 8 + x) y)) = .ok t := by
    simp only [Position.look, if_neg (show ¬(palette.entry (p.pixelAt (i * 8 + x) y) : Int) < 0 by omega),
      Int.toNat_natCast, hget]
  simp only [hpixel, Bind.bind, Except.bind, hlook, hink]
  rfl

theorem composite_eq {count : Nat}
    (hcount : p.width = count * 8) {f : Nat → Stripe} (hf : ∀ i, i < count → (f i).pixels.toList = entries p palette i) :
    composite ((List.range count).map f) palette p.height
    = .ok (p, (spots p palette).all fun row => row.all fun px => px.1 = 0) := by
  have hcolumns : ((List.range count).map f).mapM (fun s => (List.range p.height).mapM (rowPixels palette s))
      = .ok ((List.range count).map fun i => (List.range p.height).map fun y =>
          (List.range 8).map fun x => spot palette (p.pixelAt (i * 8 + x) y)) := by
    rw [mapM_map]
    apply mapM_ok
    intro i hi
    have hi := mem_range.1 hi
    apply mapM_ok
    intro y hy
    exact rowPixels_eq hp hvalid hcovers (by omega) (mem_range.1 hy) (hf i hi)
  have hrows : (List.range p.height).map (fun y =>
        ((List.range count).map fun i => (List.range p.height).map fun y =>
          (List.range 8).map fun x => spot palette (p.pixelAt (i * 8 + x) y)).flatMap
          fun column => column[y]?.getD [])
      = spots p palette := by
    apply map_congr_left
    intro y hy
    rw [flatMap_map]
    simp only [getElem?_map, getElem?_range (mem_range.1 hy), Option.map_some, Option.getD_some]
    rw [Stripe.flatMap_range count (by decide), hcount]
    apply map_congr_left
    intro x _
    rw [show x / 8 * 8 + x % 8 = x by omega]
  have hsize : Picture.checkSize (((List.range count).map f).length * 8 : Nat) p.height = .ok (p.width, p.height) := by
    rw [Picture.checkSize, if_neg (by omega), length_map, length_range, ← hcount, Int.toNat_natCast, Int.toNat_natCast]
  rw [composite, hsize]
  simp only [Bind.bind, Except.bind, hcolumns, hrows, ofRows_spots hp]
  rfl

end

end Compositing

/-! ### The whole picture -/

section Whole

variable {video : Video} {p : Picture} {base : Int} {given : Palette}

theorem stripeCount_natCast (width : Nat) : stripeCount width = width / 8 := by
  change ((width : Int).tdiv (8 : Nat)).toNat = width / 8
  rw [← Int.ofNat_tdiv, Int.toNat_natCast]

theorem encode_eq_packed {stripes : List Stripe} {coded : List (List Int)} (hsplit : split p (video.palette given) = .ok stripes)
    (hcoded : stripes.mapM video.encodeStripe = .ok coded) :
    encode video p base given = .ok (packed coded video.wordSize base) := by
  rw [encode, hsplit]
  simp only [Bind.bind, Except.bind, hcoded]
  exact pack_eq Video.wordSize_le

theorem exists_restored (hp : p.Rgb) (hwidth : p.width % 8 = 0) (hheight : 0 < p.height)
    (hbase : 0 ≤ base) (hgiven : video = .vga → given.Valid)
    (hcovers : (video.palette given).Covers p) : ∃ data, encode video p base given = .ok data ∧
    (base + data.length < (Nat.pow 256 video.wordSize : Nat) →
    AreBytes data ∧ ∃ blank, decode video data p.width p.height base given = .ok (p, blank) ∧ (blank = true ↔
    ∀ px ∈ p.pixels.toList, ∃ t, (video.palette given)[0]? = some t ∧ t.Shows px)) := by
  have hvalid := Video.valid_palette hgiven
  have hcount : p.width = p.width / 8 * 8 := by omega
  have hstripe : ∀ i, i < p.width / 8 → ∃ s data t,
      stripeOf p (video.palette given) i = .ok s ∧ video.encodeStripe s = .ok data ∧ AreBytes data ∧
      video.decodeStripe p.height data = .ok t ∧
      t.pixels.toList = entries p (video.palette given) i := by
    intro i hi
    obtain ⟨s, hs, hpixels, hwhole⟩ := stripeOf_eq hp hvalid hcovers (show i * 8 + 8 ≤ p.width by omega)
    obtain ⟨data, t, hencode, hbytes, hdecode, hsame⟩ := Video.restored (hwhole.mono (Video.length_palette_le hgiven)) hheight
    rw [hwhole.height_eq] at hdecode
    exact ⟨s, data, t, hs, hencode, hbytes, hdecode, by rw [hsame, hpixels]⟩
  choose! s data t hs hencode hbytes hdecode hpixels using hstripe
  have hsplit : split p (video.palette given) = .ok ((List.range (p.width / 8)).map s) := by
    exact mapM_ok fun i hi => hs i (mem_range.1 hi)
  have hencoded : ((List.range (p.width / 8)).map s).mapM video.encodeStripe = .ok ((List.range (p.width / 8)).map data) :=
    mapM_map_ok fun i hi => hencode i (mem_range.1 hi)
  have hdecoded : ((List.range (p.width / 8)).map data).mapM (video.decodeStripe p.height)
      = .ok ((List.range (p.width / 8)).map t) :=
    mapM_map_ok fun i hi => hdecode i (mem_range.1 hi)
  refine ⟨_, encode_eq_packed hsplit hencoded, fun hfits => ⟨?_, _, ?_, blank_spots hp hvalid hcovers⟩⟩
  · apply areBytes_packed
    intro stripe hstripe
    obtain ⟨i, hi, rfl⟩ := mem_map.1 hstripe
    exact hbytes i (mem_range.1 hi)
  · have hcolumns : stripeCount p.width = ((List.range (p.width / 8)).map data).length := by
      rw [length_map, length_range, stripeCount_natCast]
    obtain ⟨table, htable, hstretches⟩ := stretches_packed Video.wordSize_le hbase hfits hcolumns
    rw [decode, htable]
    simp only [Bind.bind, Except.bind, hstretches, hdecoded]
    exact composite_eq hp hvalid hcovers hcount hpixels

/-- A picture of three bands whose colours are all in the palette is encoded. If the offsets fit their
words then the data are bytes and give back the picture, and say of it that it is blank exactly when it
shows the first entry everywhere. -/
theorem picture_restored (hp : p.Rgb) (hwidth : p.width % 8 = 0) (hheight : 0 < p.height)
    (hbase : 0 ≤ base) (hgiven : video = .vga → given.Valid)
    (hcovers : (video.palette given).Covers p) : ∃ data, encode video p base given = .ok data ∧
    (base + data.length < (Nat.pow 256 video.wordSize : Nat) →
    AreBytes data ∧ ∃ blank, decode video data p.width p.height base given = .ok (p, blank) ∧ (blank = true ↔
    ∀ px ∈ p.pixels.toList, ∃ t, (video.palette given)[0]? = some t ∧ t.Shows px)) :=
  exists_restored hp hwidth hheight hbase hgiven hcovers

end Whole

def chequer : Picture := Picture.ofFn .rgb 8 2 fun x y => if (x + y) % 2 = 0 then [0, 0, 0] else [255, 255, 255]

/-- White twice, once with a fourth band, behind black. -/
def chequerPalette : Palette := [.rgb 0 0 0, .bands [255, 255, 255, 7], .rgb 255 255 255]

theorem picture_restored_chequer : ∃ data, encode .vga chequer 4 chequerPalette = .ok data ∧ AreBytes data ∧
    decode .vga data 8 2 4 chequerPalette = .ok (chequer, false) := by
  have hcolours : ∀ px ∈ chequer.pixels.toList, px = [0, 0, 0] ∨ px = [255, 255, 255] := by decide
  have hp : chequer.Rgb := ⟨rfl, by decide, by decide⟩
  have hvalid : chequerPalette.Valid := by
    refine ⟨?_, by decide⟩
    intro s hs
    simp only [chequerPalette, mem_cons, not_mem_nil, or_false] at hs
    rcases hs with rfl | rfl | rfl
    · exact ⟨0, 0, 0, [], rfl, by decide⟩
    · exact ⟨255, 255, 255, [7], rfl, by decide⟩
    · exact ⟨255, 255, 255, [], rfl, by decide⟩
  have hcovers : chequerPalette.Covers chequer := by
    intro px hpx
    rcases hcolours px hpx with rfl | rfl
    · exact ⟨.rgb 0 0 0, by decide, [], rfl⟩
    · exact ⟨.bands [255, 255, 255, 7], by decide, [7], rfl⟩
  obtain ⟨data, hencode, hback⟩ := @picture_restored .vga chequer 4 chequerPalette hp (by decide) (by decide)
    (by decide) (fun _ => hvalid) hcovers
  have hlength : (encode .vga chequer 4 chequerPalette).toOption.map List.length = some 10 := by decide +kernel
  rw [hencode] at hlength
  obtain ⟨hbytes, blank, hdecode, hblank⟩ := hback (by
    rw [Option.some.inj hlength]
    decide)
  refine ⟨data, hencode, hbytes, ?_⟩
  have hwhite : ¬blank = true := by
    intro hall
    obtain ⟨t, ht, rest, hrest⟩ := hblank.1 hall [255, 255, 255] (by decide)
    cases ht
    cases hrest
  rw [Bool.eq_false_iff.2 hwhite] at hdecode
  exact hdecode

end Subimage

end ScummKit
