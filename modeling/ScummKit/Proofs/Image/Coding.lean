import ScummKit.Proofs.Image.Pictures

/-!
# Which pictures can be coded

A picture is coded stripe by stripe, and each pixel of a stripe has to have an entry in the palette. That is all it takes: a picture can be coded exactly if the palette paints its whole stripes (`Subimage.exists_encode`, `Subimage.paints_of_encode`), and the data are bytes.
-/

namespace ScummKit

open List

theorem mapM_eq_ok {ε : Type} {f : α → Except ε β} {xs : List α} {ys : List β} (h : xs.mapM f = .ok ys) :
    ∀ x ∈ xs, ∃ y, f x = .ok y := by
  induction xs generalizing ys with
  | nil => exact fun x hx => nomatch hx
  | cons a xs ih =>
    obtain ⟨b, bs, ha, hxs, -⟩ := mapM_cons_eq_ok.mp h
    intro x hx
    rcases mem_cons.mp hx with rfl | hx
    · exact ⟨b, ha⟩
    · exact ih hxs x hx

namespace Palette

/-- Each place in the whole stripes of a picture has an entry in a palette. -/
def Paints (palette : Palette) (p : Picture) : Prop :=
  ∀ x y, x < p.width / 8 * 8 → y < p.height → ∃ n, palette.entryAt p x y = .ok n

end Palette

namespace Subimage

variable {video : Video} {p : Picture} {palette given : Palette} {base : Int} {i : Nat}
variable {coded : List (List Int)} {data : List Int}

theorem exists_stripeOf (h : palette.Paints p) (hi : i < p.width / 8) :
    ∃ s, stripeOf p palette i = .ok s ∧ s.Whole p.height palette.length := by
  have hentry : ∀ y x, y < p.height → x < 8 → ∃ n, palette.entryAt p (i * 8 + x) y = .ok n :=
    fun y x hy hx => h (i * 8 + x) y (by omega) hy
  choose! entry hentry using hentry
  obtain ⟨s, hs, -, hwhole⟩ := stripeOf_of_entries entry hentry
  exact ⟨s, hs, hwhole⟩

theorem exists_coded (h : (video.palette given).Paints p) (hheight : 0 < p.height)
    (hlength : (video.palette given).length ≤ video.limit) : ∃ stripes coded, split p (video.palette given) = .ok stripes ∧
    stripes.mapM video.encodeStripe = .ok coded ∧ coded.length = p.width / 8 ∧
    ∀ data ∈ coded, ∃ s : Stripe, s.Whole p.height video.limit ∧ video.encodeStripe s = .ok data := by
  have hstripe : ∀ i, i < p.width / 8 → ∃ s data, stripeOf p (video.palette given) i = .ok s
      ∧ s.Whole p.height video.limit ∧ video.encodeStripe s = .ok data := by
    intro i hi
    obtain ⟨s, hs, hwhole⟩ := exists_stripeOf h hi
    have hlimit := hwhole.mono hlength
    obtain ⟨data, -, hencode, -⟩ := Video.restored hlimit hheight
    exact ⟨s, data, hs, hlimit, hencode⟩
  choose! s data hs hwhole hencode using hstripe
  refine ⟨(List.range (p.width / 8)).map s, (List.range (p.width / 8)).map data, ?_, ?_, ?_, ?_⟩
  · exact mapM_ok fun i hi => hs i (mem_range.mp hi)
  · exact mapM_map_ok fun i hi => hencode i (mem_range.mp hi)
  · rw [length_map, length_range]
  · intro d hd
    obtain ⟨i, hi, rfl⟩ := mem_map.mp hd
    exact ⟨s i, hwhole i (mem_range.mp hi), hencode i (mem_range.mp hi)⟩

theorem exists_encode (h : (video.palette given).Paints p) (hheight : 0 < p.height)
    (hlength : (video.palette given).length ≤ video.limit) : ∃ data, encode video p base given = .ok data ∧ AreBytes data := by
  obtain ⟨stripes, coded, hsplit, hcoded, -, hdata⟩ := exists_coded h hheight hlength
  refine ⟨_, encode_eq_packed hsplit hcoded, areBytes_packed fun data hmem => ?_⟩
  obtain ⟨s, hwhole, hencode⟩ := hdata data hmem
  obtain ⟨data', -, hencode', hbytes, -⟩ := Video.restored hwhole hheight
  obtain rfl := Except.ok.inj (hencode.symm.trans hencode')
  exact hbytes

theorem paints_of_encode (h : encode video p base given = .ok data) : (video.palette given).Paints p := by
  intro x y hx hy
  obtain ⟨stripes, hsplit, -⟩ := bind_eq_ok.mp h
  rw [split, stripeCount_natCast] at hsplit
  obtain ⟨s, hs⟩ := mapM_eq_ok hsplit (x / 8) (mem_range.mpr (by omega))
  obtain ⟨rows, hrows, -⟩ := bind_eq_ok.mp hs
  obtain ⟨row, hrow⟩ := mapM_eq_ok hrows y (mem_range.mpr hy)
  obtain ⟨n, hn⟩ := mapM_eq_ok hrow (x % 8) (mem_range.mpr (by omega))
  rw [show x / 8 * 8 + x % 8 = x by omega] at hn
  obtain ⟨colour, hget, hn⟩ := bind_eq_ok.mp hn
  obtain ⟨m, hindex, -⟩ := bind_eq_ok.mp hn
  exact ⟨m, bind_eq_ok.mpr ⟨colour, hget, hindex⟩⟩

theorem exists_packed (h : encode video p base given = .ok data) (hheight : 0 < p.height)
    (hlength : (video.palette given).length ≤ video.limit) :
    ∃ coded : List (List Int), data.length = video.wordSize * (p.width / 8) + coded.flatten.length ∧
    coded.length = p.width / 8 ∧ ∀ d ∈ coded, ∃ s, video.encodeStripe s = .ok d := by
  obtain ⟨stripes, coded, hsplit, hcoded, hcount, hdata⟩ := exists_coded (paints_of_encode h) hheight hlength
  refine ⟨coded, ?_, hcount, fun d hd => ?_⟩
  · rw [Except.ok.inj (h.symm.trans (encode_eq_packed hsplit hcoded)), packed, length_append, length_table, hcount]
  · obtain ⟨s, -, hs⟩ := hdata d hd
    exact ⟨s, hs⟩

/-! ### Sixteen colours -/

theorem length_flatten_le {limit : Nat} (h : ∀ data ∈ coded, data.length ≤ limit) :
    coded.flatten.length ≤ coded.length * limit := by
  induction coded with
  | nil => exact Nat.zero_le _
  | cons data coded ih =>
    rw [flatten_cons, length_append, length_cons, Nat.add_comm, Nat.succ_mul]
    exact Nat.add_le_add (ih fun d hd => h d (mem_cons_of_mem data hd)) (h data mem_cons_self)

/-- A stripe of sixteen colours never takes more bytes than it has pixels. So if a byte for each pixel
would fit behind the table then each offset in the table is that of its stripe, as it stands. -/
theorem offsets_exact : (∀ (height : Nat) (s : Stripe), 0 < height → s.Whole height 16 →
    ∃ data, Ega.encode s = .ok data ∧ data.length ≤ height * 8) ∧
    ∀ (p : Picture) (base : Int) (given : Palette), Palette.ega.Paints p → 0 < p.height → 0 ≤ base →
    base + (p.width / 4 + p.width * p.height : Nat) ≤ 65535 →
    ∃ stripes coded table, split p Palette.ega = .ok stripes ∧ stripes.mapM Ega.encode = .ok coded ∧
    encode .ega p base given = .ok (table ++ coded.flatten) ∧ table.length = 2 * coded.length ∧
    coded.length = p.width / 8 ∧ ∀ i : Nat, i < coded.length →
    Word.decodeLE (Position.cut (table ++ coded.flatten) (i * 2) (i * 2 + 2)) 2
    = .ok (base + (table ++ (coded.take i).flatten).length) := by
  refine ⟨fun height s hheight h => ?_, fun p base given hp hheight hbase hfits => ?_⟩
  · obtain ⟨data, -, hencode, -, hlength, -⟩ := Ega.exists_data h hheight
    exact ⟨data, hencode, hlength⟩
  have hpaints : (Video.ega.palette given).Paints p := hp
  obtain ⟨stripes, coded, hsplit, hcoded, hcount, hdata⟩ := exists_coded hpaints hheight (Nat.le_refl 16)
  refine ⟨stripes, coded, _, hsplit, hcoded, encode_eq_packed hsplit hcoded, length_table, hcount, ?_⟩
  intro i hi
  have hget : (starts (base + (2 : Nat) * coded.length) coded)[i]? = _ := getElem?_starts hi
  have hall : coded.flatten.length ≤ coded.length * (p.height * 8) := by
    apply length_flatten_le
    intro data hmem
    obtain ⟨s, hwhole, hencode⟩ := hdata data hmem
    obtain ⟨data', -, hencode', -, hlength, -⟩ := Ega.exists_data hwhole hheight
    obtain rfl := Except.ok.inj (hencode.symm.trans hencode')
    exact hlength
  have hpixels : coded.length * (p.height * 8) ≤ p.width * p.height := by
    rw [hcount, Nat.mul_comm p.height, ← Nat.mul_assoc]
    exact Nat.mul_le_mul_right _ (Nat.div_mul_le_self _ _)
  have hbounds := mem_starts (mem_of_getElem? hget)
  have hpow : Nat.pow 256 Video.ega.wordSize = 65536 := rfl
  rw [length_append, length_table, Int.natCast_add]
  refine (congrArg (Word.decodeLE · 2) (cut_table coded.flatten hget)).trans ?_
  refine (Word.decodeLE_toLE (by decide) (by omega) (by omega)).trans ?_
  rw [Int.natCast_mul, Int.add_assoc]
  rfl

/-- Two stripes, of one colour and of two. -/
def tiles : Picture := Picture.ofFn .rgb 16 2 fun x y => if x < 8 ∨ (x + y) % 2 = 0 then [0, 0, 0] else [255, 255, 255]

theorem offsets_exact_tiles : ∃ stripes coded table, split tiles Palette.ega = .ok stripes ∧ stripes.mapM Ega.encode = .ok coded ∧
    encode .ega tiles 2 [] = .ok (table ++ coded.flatten) ∧ table.length = 2 * coded.length ∧
    coded.length = 2 ∧ ∀ i : Nat, i < coded.length → Word.decodeLE (Position.cut (table ++ coded.flatten) (i * 2) (i * 2 + 2)) 2
    = .ok (2 + (table ++ (coded.take i).flatten).length) := by
  have hencode : encode .ega tiles 2 [] = .ok [6, 0, 8, 0, 0, 16, 16, 47, 32, 47, 32, 47, 32, 47, 16] := rfl
  exact offsets_exact.2 tiles 2 [] (paints_of_encode hencode) (by decide) (by decide) (by decide)

end Subimage

end ScummKit
