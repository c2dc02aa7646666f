import ScummKit.Picture
import ScummKit.Proofs.Image.Cursor

/-!
# Colours and entries of palettes

A picture of three bands has a colour at each place, and a palette has the colour if one of its entries
agrees with it in the first three bands. The entry that is found for a colour is the first of those, and
it leaves the very pixel that it was found for.
-/

namespace ScummKit

open List

/-! ### Pictures of three bands -/

/-- A picture of three bands with a pixel for each place. -/
structure Picture.Rgb (p : Picture) : Prop where
  mode : p.mode = .rgb
  size : p.pixels.size = p.width * p.height
  pixel : ∀ px ∈ p.pixels.toList, px.length = 3

section Pictures

variable {p : Picture} {x y : Nat}

theorem Picture.Rgb.getElem? (h : p.Rgb) (hx : x < p.width) (hy : y < p.height) :
    p.pixels[y * p.width + x]? = some (p.pixelAt x y) := by
  have hin : y * p.width + x < p.pixels.size := by
    have hrow : (y + 1) * p.width ≤ p.height * p.width := Nat.mul_le_mul_right _ hy
    rw [Nat.succ_mul] at hrow
    rw [h.size, Nat.mul_comm p.width]
    omega
  rw [Picture.pixelAt, if_pos ⟨hx, hy⟩, Array.getElem?_eq_getElem hin, Option.getD_some]

theorem Picture.Rgb.mem (h : p.Rgb) (hx : x < p.width) (hy : y < p.height) : p.pixelAt x y ∈ p.pixels.toList := by
  apply mem_of_getElem?
  rw [Array.getElem?_toList]
  exact h.getElem? hx hy

theorem Picture.Rgb.toList_eq (h : p.Rgb) : p.pixels.toList
    = ((List.range p.height).map fun y => (List.range p.width).map fun x => p.pixelAt x y).flatten := by
  rcases Nat.eq_zero_or_pos p.width with hzero | hpos
  · have hempty : p.pixels = #[] := Array.eq_empty_of_size_eq_zero (by rw [h.size, hzero, Nat.zero_mul])
    simp [hempty, hzero]
  · rw [← flatMap_def, Stripe.flatMap_range p.height hpos]
    apply ext_getElem?
    intro n
    by_cases hn : n < p.height * p.width
    · have hx : n % p.width < p.width := Nat.mod_lt n hpos
      have hy : n / p.width < p.height := (Nat.div_lt_iff_lt_mul hpos).2 hn
      rw [getElem?_map, getElem?_range hn, Option.map_some, Array.getElem?_toList,
        ← h.getElem? hx hy, Nat.mul_comm (n / p.width), Nat.div_add_mod]
    · rw [getElem?_eq_none (by rw [Array.length_toList, h.size, Nat.mul_comm]; omega),
        getElem?_eq_none (by rw [length_map, length_range]; omega)]

theorem Picture.ofFn_pixelAt (h : p.Rgb) : ofFn .rgb p.width p.height p.pixelAt = p := by
  obtain ⟨mode, width, height, pixels⟩ := p
  obtain rfl : mode = .rgb := h.mode
  have hsize : pixels.size = width * height := h.size
  rw [ofFn, mk.injEq]
  refine ⟨rfl, rfl, rfl, Array.ext (by rw [Array.size_ofFn, hsize]) fun n hn hn' => ?_⟩
  rw [Array.size_ofFn] at hn
  have hwidth : 0 < width := Nat.pos_of_mul_pos_right (Nat.zero_lt_of_lt hn)
  have hpixel := h.getElem? (Nat.mod_lt n hwidth) ((Nat.div_lt_iff_lt_mul hwidth).2 (Nat.mul_comm width height ▸ hn))
  rw [Nat.mul_comm, Nat.div_add_mod, Array.getElem?_eq_getElem hn'] at hpixel
  rw [Array.getElem_ofFn, Option.some.inj hpixel]

theorem Picture.ofFn_congr {mode : Mode} {w h : Nat} {f g : Nat → Nat → Pixel} (hfg : ∀ x < w, ∀ y < h, f x y = g x y) :
    ofFn mode w h f = ofFn mode w h g := by
  rw [ofFn, mk.injEq]
  refine ⟨rfl, rfl, rfl, congrArg _ (funext fun i => ?_)⟩
  have hw : 0 < w := Nat.pos_of_mul_pos_right (Nat.zero_lt_of_lt i.isLt)
  exact hfg _ (Nat.mod_lt _ hw) _ ((Nat.div_lt_iff_lt_mul hw).2 (Nat.mul_comm w h ▸ i.isLt))

theorem Picture.place?_natCast (hx : x < p.width) (hy : y < p.height) : p.place? x y = some (x, y) := by
  simp only [Picture.place?]
  rw [if_neg (show ¬(x : Int) < 0 by omega), if_neg (show ¬(y : Int) < 0 by omega), if_pos (by omega),
    Int.toNat_natCast, Int.toNat_natCast]

theorem Picture.get_of_mode (h : p.mode = .rgb) (hx : x < p.width) (hy : y < p.height) :
    p.get x y = .ok (.bands ((p.pixelAt x y).map fun b => (b.toNat : Int))) := by
  rw [Picture.get, place?_natCast hx hy, h]
  rfl

end Pictures

/-! ### Entries -/

/-- An entry agrees with a pixel in its first three bands. -/
def Shade.Shows (s : Shade) (px : Pixel) : Prop := ∃ rest, s = .bands (px.map (fun b => (b.toNat : Int)) ++ rest)

/-- A palette of colours of three or four bands, no more than a byte can tell apart. -/
structure Palette.Valid (palette : Palette) : Prop where
  bands : ∀ s ∈ palette, ∃ r g b rest, s = .bands (r :: g :: b :: rest) ∧ rest.length ≤ 1
  length : palette.length ≤ 256

section Entries

variable {palette : Palette} {px : Pixel} (r g b : Int) (rest : List Int)

def colourOf (px : Pixel) : Shade := .bands (px.map fun b => (b.toNat : Int))

theorem exists_bands (h : px.length = 3) : ∃ a b c, px = [a, b, c] := by
  obtain ⟨a, px, rfl⟩ := exists_cons_of_length_eq_add_one h
  obtain ⟨b, px, rfl⟩ := exists_cons_of_length_eq_add_one (Nat.succ.inj h)
  obtain ⟨c, rfl⟩ := length_eq_one_iff.1 (Nat.succ.inj (Nat.succ.inj h))
  exact ⟨a, b, c, rfl⟩

theorem agree_bands (x y z : Int) (more : List Int) :
    Palette.agree (.bands (r :: g :: b :: rest)) (.bands (x :: y :: z :: more)) 0 3 = .ok (decide (r = x ∧ g = y ∧ b = z)) := by
  have hband : ∀ (vs : List Int) (i : Nat) (v : Int), vs[i]? = some v → (Shade.bands vs).band i = .ok v := by
    intro vs i v hv
    simp only [Shade.band, Position.look, if_neg (show ¬(i : Int) < 0 by omega), Int.toNat_natCast, hv]
  simp only [Palette.agree, hband (r :: g :: b :: rest) 0 r rfl, hband (r :: g :: b :: rest) 1 g rfl,
    hband (r :: g :: b :: rest) 2 b rfl, hband (x :: y :: z :: more) 0 x rfl,
    hband (x :: y :: z :: more) 1 y rfl, hband (x :: y :: z :: more) 2 z rfl, Bind.bind, Except.bind, pure, Except.pure]
  by_cases hr : r = x <;> by_cases hg : g = y <;> by_cases hb : b = z <;> simp [hr, hg, hb]

theorem shows_iff (x y z : UInt8) :
    (Shade.bands (r :: g :: b :: rest)).Shows [x, y, z] ↔ r = x.toNat ∧ g = y.toNat ∧ b = z.toNat := by
  constructor
  · rintro ⟨more, hmore⟩
    simp only [map_cons, cons_append, Shade.bands.injEq, List.cons.injEq] at hmore
    exact ⟨hmore.1, hmore.2.1, hmore.2.2.1⟩
  · rintro ⟨rfl, rfl, rfl⟩
    exact ⟨rest, rfl⟩

theorem findFrom_eq (hbands : ∀ s ∈ palette, ∃ r g b rest, s = .bands (r :: g :: b :: rest))
    (hpx : px.length = 3) (hfound : ∃ s ∈ palette, s.Shows px) (i : Nat) :
    ∃ n s, Palette.findFrom (colourOf px) i palette = .ok (some (i + n)) ∧ palette[n]? = some s ∧
    s.Shows px ∧ ∀ j t, j < n → palette[j]? = some t → ¬t.Shows px := by
  obtain ⟨x, y, z, rfl⟩ := exists_bands hpx
  induction palette generalizing i with
  | nil =>
    obtain ⟨s, hs, -⟩ := hfound
    cases hs
  | cons s palette ih =>
    obtain ⟨r, g, b, rest, rfl⟩ := hbands s mem_cons_self
    have hagree := agree_bands r g b rest x.toNat y.toNat z.toNat []
    have hhead := shows_iff r g b rest x y z
    by_cases hsame : r = x.toNat ∧ g = y.toNat ∧ b = z.toNat
    · refine ⟨0, _, ?_, rfl, hhead.2 hsame, fun j t hj => absurd hj (Nat.not_lt_zero j)⟩
      rw [decide_eq_true hsame] at hagree
      rw [Palette.findFrom, colourOf, map_cons, map_cons, map_singleton, hagree]
      rfl
    · have htail : ∃ s ∈ palette, s.Shows [x, y, z] := by
        obtain ⟨t, ht, hshows⟩ := hfound
        rcases mem_cons.1 ht with rfl | ht
        · exact absurd (hhead.1 hshows) hsame
        · exact ⟨t, ht, hshows⟩
      obtain ⟨n, t, hfind, hget, hshows, hfirst⟩ :=
        ih (fun t ht => hbands t (mem_cons_of_mem _ ht)) (i + 1) htail
      refine ⟨n + 1, t, ?_, hget, hshows, ?_⟩
      · rw [decide_eq_false hsame] at hagree
        rw [Palette.findFrom, colourOf, map_cons, map_cons, map_singleton, hagree, show i + (n + 1) = i + 1 + n by omega]
        exact hfind
      · intro j u hj hu
        cases j with
        | zero =>
          cases hu
          exact fun hshown => hsame (hhead.1 hshown)
        | succ j => exact hfirst j u (by omega) hu

theorem Palette.Valid.index (h : palette.Valid) (hpx : px.length = 3) (hfound : ∃ s ∈ palette, s.Shows px) :
    ∃ n s, palette.index (colourOf px) = .ok n ∧ palette[n]? = some s ∧ s.Shows px ∧
    (n = 0 ↔ ∃ t, palette[0]? = some t ∧ t.Shows px) := by
  have hbands : ∀ s ∈ palette, ∃ r g b rest, s = .bands (r :: g :: b :: rest) := by
    intro s hs
    obtain ⟨r, g, b, rest, hbands, -⟩ := h.bands s hs
    exact ⟨r, g, b, rest, hbands⟩
  obtain ⟨n, s, hfind, hget, hshows, hfirst⟩ := findFrom_eq hbands hpx hfound 0
  refine ⟨n, s, ?_, hget, hshows, ?_, ?_⟩
  · rw [Palette.index, hfind, Nat.zero_add]
    rfl
  · rintro rfl
    exact ⟨s, hget, hshows⟩
  · rintro ⟨t, ht, hshown⟩
    exact Decidable.byContradiction fun hne => hfirst 0 t (Nat.pos_of_ne_zero hne) ht hshown

theorem Palette.valid_of_rgb (hlength : palette.length ≤ 256) (h : ∀ s ∈ palette, ∃ r g b, s = .rgb r g b) : palette.Valid := by
  refine ⟨fun s hs => ?_, hlength⟩
  obtain ⟨r, g, b, rfl⟩ := h s hs
  exact ⟨r, g, b, [], rfl, Nat.zero_le 1⟩

theorem Palette.valid_ega : Palette.ega.Valid := by
  refine valid_of_rgb (by decide) fun s hs => ?_
  simp only [ega, mem_cons, not_mem_nil, or_false] at hs
  rcases hs with rfl | rfl | rfl | rfl | rfl | rfl | rfl | rfl | rfl | rfl | rfl | rfl | rfl | rfl | rfl | rfl
  all_goals exact ⟨_, _, _, rfl⟩

theorem clip_toNat (b : UInt8) : Shade.clip (b.toNat : Int) = b := by
  have hlt := b.toNat_lt
  rw [Shade.clip, Int.toNat_natCast, Nat.min_eq_left (by omega), UInt8.ofNat_toNat]

theorem Palette.Valid.ink (h : palette.Valid) {s : Shade} (hs : s ∈ palette) (hpx : px.length = 3)
    (hshows : s.Shows px) : s.ink = .ok px := by
  obtain ⟨x, y, z, rfl⟩ := exists_bands hpx
  obtain ⟨r, g, b, rest, rfl, hrest⟩ := h.bands s hs
  obtain ⟨rfl, rfl, rfl⟩ := (shows_iff r g b rest x y z).1 hshows
  have hink : ∀ vs : List Int, vs.length ≤ 1 → (Shade.bands ((x.toNat) :: y.toNat :: z.toNat :: vs)).ink
        = .ok [Shade.clip x.toNat, Shade.clip y.toNat, Shade.clip z.toNat] := by
    intro vs hvs
    cases vs with
    | nil => rfl
    | cons a vs =>
      rw [eq_nil_of_length_eq_zero (Nat.le_zero.1 (Nat.le_of_succ_le_succ hvs))]
      rfl
  rw [hink rest hrest, clip_toNat, clip_toNat, clip_toNat]

end Entries

end ScummKit
