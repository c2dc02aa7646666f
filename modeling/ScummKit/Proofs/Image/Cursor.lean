import ScummKit.Image.Stripe
import ScummKit.Proofs.Image.Streams

/-!
# Cursors on stripes

A cursor visits each pixel of a stripe once, along rows or down columns. `seat` gives the pixel that it
visits after a number of steps, and `Filled` says which colours it has left behind it. A stripe that a
cursor has filled with the colours that another stripe shows it has the pixels of the other
(`Filled.pixels_eq`), whichever of the two directions the cursor takes, and however it got there.
-/

namespace ScummKit

open List
variable {n i : Nat} {xs : List α} {c : Int} {ε : Type}

theorem mapM_ok {f : α → Except ε β} {g : α → β} (h : ∀ a ∈ xs, f a = .ok (g a)) : xs.mapM f = .ok (xs.map g) := by
  induction xs with
  | nil => rfl
  | cons a xs ih =>
    rw [mapM_cons, h a mem_cons_self, ih fun b hb => h b (mem_cons_of_mem a hb)]
    rfl

theorem mapM_map_ok {e : α → β} {f : β → Except ε γ} {g : α → γ}
    (h : ∀ a ∈ xs, f (e a) = .ok (g a)) : (xs.map e).mapM f = .ok (xs.map g) := by
  rw [mapM_map]
  exact mapM_ok h

theorem look_of_getElem? {x : α} (h : xs[i]? = some x) : Position.look xs i = .ok x := by
  simp only [Position.look, if_neg (show ¬(i : Int) < 0 by omega), Int.toNat_natCast, h]

def Direction.Moving (d : Direction) : Prop := d = .rows ∨ d = .columns

namespace Stripe

/-! ### The places that a cursor visits -/

def column (height : Nat) : Direction → Nat → Nat
  | .rows, n => n % 8
  | .columns, n => n / height
  | .still _, _ => 0

def row (height : Nat) : Direction → Nat → Nat
  | .rows, n => n / 8
  | .columns, n => n % height
  | .still _, _ => 0

def seat (height : Nat) (d : Direction) (n : Nat) : Nat := row height d n * 8 + column height d n

section Places

variable {height : Nat} {d : Direction} {m n : Nat}

theorem column_lt (hd : d.Moving) (hn : n < height * 8) : column height d n < 8 := by
  rcases hd with rfl | rfl
  · exact Nat.mod_lt n (by decide)
  · exact (Nat.div_lt_iff_lt_mul (by omega)).2 (Nat.mul_comm height 8 ▸ hn)

theorem row_lt (hd : d.Moving) (hn : n < height * 8) : row height d n < height := by
  rcases hd with rfl | rfl
  · exact (Nat.div_lt_iff_lt_mul (by decide)).2 hn
  · exact Nat.mod_lt n (by omega)

theorem seat_lt (hd : d.Moving) (hn : n < height * 8) : seat height d n < height * 8 := by
  have hcolumn := column_lt hd hn
  have hrow := row_lt hd hn
  rw [seat]
  omega

theorem seat_inj (hd : d.Moving) (hm : m < height * 8) (hn : n < height * 8) (h : seat height d m = seat height d n) : m = n := by
  have hcolumnM := column_lt hd hm
  have hcolumnN := column_lt hd hn
  simp only [seat] at h
  have hrow : row height d m = row height d n := by omega
  have hcolumn : column height d m = column height d n := by omega
  rcases hd with rfl | rfl
  · simp only [row, column] at hrow hcolumn
    omega
  · simp only [row, column] at hrow hcolumn
    rw [← Nat.div_add_mod m height, hrow, hcolumn, Nat.div_add_mod]

theorem exists_seat (hd : d.Moving) (hm : m < height * 8) : ∃ n, n < height * 8 ∧ seat height d n = m := by
  rcases hd with rfl | rfl
  · refine ⟨m, hm, ?_⟩
    simp only [seat, row, column]
    omega
  · -- the column of `m` is full, and the one it stands in is filled down to its row
    have hrow : m / 8 < height := (Nat.div_lt_iff_lt_mul (by decide)).2 hm
    have hcolumn : m % 8 < 8 := Nat.mod_lt m (by decide)
    have hbound : height * (m % 8 + 1) ≤ height * 8 := Nat.mul_le_mul_left height hcolumn
    rw [Nat.mul_succ] at hbound
    refine ⟨m / 8 + height * (m % 8), by omega, ?_⟩
    simp only [seat, row, column]
    rw [Nat.add_mul_mod_self_left, Nat.mod_eq_of_lt hrow, Nat.add_mul_div_left _ _ (by omega), Nat.div_eq_of_lt hrow]
    omega

theorem flatMap_range {f : Nat → Nat → α} (a : Nat) {b : Nat} (hb : 0 < b) :
    (List.range a).flatMap (fun i => (List.range b).map fun j => f i j)
    = (List.range (a * b)).map fun n => f (n / b) (n % b) := by
  induction a with
  | zero => simp
  | succ a ih =>
    have hlast : (List.range b).map (fun j => f a j) = ((List.range b).map (a * b + ·)).map fun n => f (n / b) (n % b) := by
      rw [map_map]
      apply map_congr_left
      intro j hj
      have hlt := mem_range.1 hj
      rw [Function.comp_apply, Nat.mul_comm a b, Nat.mul_add_div hb, Nat.mul_add_mod,
        Nat.div_eq_of_lt hlt, Nat.mod_eq_of_lt hlt, Nat.add_zero]
    rw [range_succ, flatMap_append, ih, Nat.succ_mul, range_add, map_append, ← hlast, flatMap_singleton]

theorem places_eq (hd : d.Moving) (hheight : 0 < height) :
    places height d = (List.range (height * 8)).map fun n => (column height d n, row height d n) := by
  rcases hd with rfl | rfl
  · exact flatMap_range height (by decide)
  · rw [Nat.mul_comm]
    exact flatMap_range 8 hheight

end Places

/-! ### Steps of a cursor -/

/-- The cursor of a stripe has made some steps. Behind the last pixel it makes no more. -/
structure Stands (height : Nat) (d : Direction) (n : Nat) (s : Stripe) : Prop where
  height_eq : s.height = height
  direction : s.direction = d
  size : s.pixels.size = height * 8
  x : s.x = column height d n
  y : s.y = row height d n

section Steps

variable {height : Nat} {d : Direction} {s : Stripe}

theorem stands_reset (d : Direction) (hheight : s.height = height) (hsize : s.pixels.size = height * 8) :
    Stands height d 0 (s.reset d) := by
  refine ⟨hheight, rfl, hsize, ?_, ?_⟩ <;> cases d <;> simp [reset, column, row]

theorem stands_new (height : Nat) (d : Direction) : Stands height d 0 (new height d) :=
  @stands_reset height (new height d) d rfl (by simp only [new, Array.size_replicate]; omega)

theorem Stands.not_within (h : Stands height d (height * 8) s) (hd : d.Moving) : s.within = false := by
  rw [Stripe.within, h.x, h.y, h.height_eq]
  rcases hd with rfl | rfl
  · simp [row]
  · rcases Nat.eq_zero_or_pos height with rfl | hheight
    · simp [row]
    · simp [column, Nat.mul_div_cancel_left 8 hheight]

section

variable (h : Stands height d n s)

include h

theorem Stands.within (hd : d.Moving) (hn : n < height * 8) : s.within = true := by
  have hcolumn := column_lt hd hn
  have hrow := row_lt hd hn
  simp only [Stripe.within, h.x, h.y, h.height_eq, Bool.and_eq_true, decide_eq_true_eq]
  omega

theorem Stands.advance (hheight : 0 < height) :
    s.advance = { s with x := column height d (n + 1), y := row height d (n + 1) } := by
  cases d with
  | rows =>
    simp only [Stripe.advance, h.direction, h.x, h.y, column, row]
    by_cases hlast : 8 ≤ n % 8 + 1
    · rw [if_pos hlast, show (n + 1) % 8 = 0 by omega, show (n + 1) / 8 = n / 8 + 1 by omega]
    · rw [if_neg hlast, show (n + 1) % 8 = n % 8 + 1 by omega, show (n + 1) / 8 = n / 8 by omega]
  | columns =>
    have hn : n + 1 = n % height + 1 + height * (n / height) := by
      have := Nat.mod_add_div n height
      omega
    have hmod := Nat.mod_lt n hheight
    simp only [Stripe.advance, h.direction, h.height_eq, h.x, h.y, column, row]
    by_cases hlast : (height : Int) ≤ (n % height : Nat) + 1
    · have hend : n % height + 1 = height := by omega
      rw [if_pos hlast, hn, hend, Nat.add_mul_mod_self_left, Nat.add_mul_div_left _ _ hheight,
        Nat.mod_self, Nat.div_self hheight, Nat.add_comm 1]
    · have hlt : n % height + 1 < height := by omega
      rw [if_neg hlast, hn, Nat.add_mul_mod_self_left, Nat.add_mul_div_left _ _ hheight,
        Nat.mod_eq_of_lt hlt, Nat.div_eq_of_lt hlt, Nat.zero_add]
  | still _ =>
    obtain ⟨_, _, x, y, _, _, direction⟩ := s
    obtain ⟨-, rfl, -, rfl, rfl⟩ := h
    rfl

theorem Stands.place (hwithin : s.within) : 0 < height ∧ s.y * 8 + s.x = seat height d n ∧ seat height d n < s.pixels.size := by
  rw [Stripe.within, Bool.and_eq_true, decide_eq_true_eq, decide_eq_true_eq, h.height_eq] at hwithin
  rw [seat, ← h.x, ← h.y, h.size]
  omega

theorem Stands.write (hwithin : s.within) (c : Int) : Stands height d (n + 1) (s.write c) ∧
    (s.write c).pixels = s.pixels.setIfInBounds (seat height d n) c := by
  obtain ⟨hheight, hseat, -⟩ := h.place hwithin
  have hstands : Stands height d n { s with pixels := s.pixels.setIfInBounds (seat height d n) c } :=
    ⟨h.height_eq, h.direction, (Array.size_setIfInBounds ..).trans h.size, h.x, h.y⟩
  rw [Stripe.write, if_pos hwithin, hseat, hstands.advance hheight]
  exact ⟨⟨hstands.height_eq, hstands.direction, hstands.size, rfl, rfl⟩, rfl⟩

end

end Steps

/-! ### Stripes in the filling -/

/-- A cursor has left these colours behind it and stands on the next pixel. -/
structure Filled (height : Nat) (d : Direction) (cs : List Int) (s : Stripe) : Prop extends Stands height d cs.length s where
  pixels : ∀ i, i < cs.length → s.pixels[seat height d i]? = cs[i]?

section Filling

variable {height : Nat} {d : Direction} {cs : List Int} {s : Stripe}

theorem filled_new : Filled height d [] (new height d) where
  toStands := stands_new height d
  pixels := fun _ hi => absurd hi (Nat.not_lt_zero _)

section

variable (h : Filled height d cs s) (hd : d.Moving)

include h hd

theorem Filled.write (hroom : cs.length < height * 8) (c : Int) : Filled height d (cs ++ [c]) (s.write c) := by
  obtain ⟨hstands, hpixels⟩ := h.toStands.write (h.within hd hroom) c
  refine ⟨by rwa [length_append], fun i hi => ?_⟩
  rw [length_append, length_singleton] at hi
  rw [hpixels, Array.getElem?_setIfInBounds]
  by_cases hlast : i = cs.length
  · subst hlast
    rw [if_pos rfl, if_pos (h.size ▸ seat_lt hd hroom), getElem?_concat_length]
  · have hne : seat height d cs.length ≠ seat height d i := fun heq =>
      hlast (seat_inj hd (by omega) (by omega) heq.symm)
    rw [if_neg hne, h.pixels i (by omega), getElem?_append_left (by omega)]

theorem Filled.writeMany_full (hfull : cs.length = height * 8) (c : Int) (n : Nat) : Stripe.writeMany c n s = s := by
  have hwithin : s.within = false := Stands.not_within (hfull ▸ h.toStands) hd
  induction n with
  | zero => rfl
  | succ n ih => rw [Stripe.writeMany, Stripe.write, hwithin, if_neg (by decide), ih]

theorem Filled.foldl_write {xs : List Int} (hroom : cs.length + xs.length ≤ height * 8) :
    Filled height d (cs ++ xs) (xs.foldl Stripe.write s) := by
  induction xs generalizing cs s with
  | nil => rwa [append_nil]
  | cons c xs ih =>
    rw [length_cons] at hroom
    have hnext := ih (h.write hd (by omega) c) (by rw [length_append, length_singleton]; omega)
    rwa [append_assoc] at hnext

end

end Filling

/-! ### Whole stripes -/

/-- A stripe of a height with a colour below a limit for each pixel. -/
structure Whole (height limit : Nat) (s : Stripe) : Prop where
  height_eq : s.height = height
  size : s.pixels.size = height * 8
  colour : ∀ c ∈ s.pixels.toList, 0 ≤ c ∧ c < limit

theorem Whole.mono {height limit more : Nat} {s : Stripe} (h : s.Whole height limit) (hle : limit ≤ more) : s.Whole height more :=
  ⟨h.height_eq, h.size, fun c hc => by
    have := h.colour c hc
    omega⟩

/-- The data of a stripe are bytes and give its pixels back. -/
def Restored (encode : Stripe → Except Fault (List Int)) (decode : Int → List Int → Except Fault Stripe) (s : Stripe) : Prop :=
  ∃ data t, encode s = .ok data ∧ AreBytes data ∧ decode s.height data = .ok t ∧ t.pixels = s.pixels

def shown (s : Stripe) (height : Nat) (d : Direction) : List Int :=
  (List.range (height * 8)).map fun n => s.pixels[seat height d n]?.getD 0

section Showing

variable {height limit : Nat} {d : Direction} {s : Stripe}

theorem length_shown : (s.shown height d).length = height * 8 := by rw [shown, length_map, length_range]

theorem Whole.getElem?_shown (h : Whole height limit s) (hd : d.Moving) (hn : n < height * 8) :
    (s.shown height d)[n]? = s.pixels[seat height d n]? := by
  have hin : seat height d n < s.pixels.size := h.size ▸ seat_lt hd hn
  rw [shown, getElem?_map, getElem?_range hn, Option.map_some, Array.getElem?_eq_getElem hin, Option.getD_some]

theorem Whole.mem_shown (h : Whole height limit s) (hd : d.Moving) (hc : c ∈ s.shown height d) : 0 ≤ c ∧ c < limit := by
  obtain ⟨n, hn⟩ := List.mem_iff_getElem?.1 hc
  obtain ⟨hlt, -⟩ := List.getElem?_eq_some_iff.1 hn
  rw [length_shown] at hlt
  rw [h.getElem?_shown hd hlt, ← Array.getElem?_toList] at hn
  exact h.colour c (List.mem_iff_getElem?.2 ⟨_, hn⟩)

theorem pixel_of_getElem? (h : s.pixels[i]? = some c) : s.pixel i = .ok c := by
  simp only [pixel, if_neg (show ¬(i : Int) < 0 by omega), Int.toNat_natCast, h]

section

variable (h : Whole height limit s) (hd : d.Moving)

include h hd

theorem Whole.pixel_seat (hn : n < height * 8) : s.pixel (seat height d n) = .ok ((s.shown height d)[n]?.getD 0) := by
  have hin : seat height d n < s.pixels.size := h.size ▸ seat_lt hd hn
  rw [h.getElem?_shown hd hn, pixel_of_getElem? (Array.getElem?_eq_getElem hin), Array.getElem?_eq_getElem hin]
  rfl

theorem Whole.colourAt (hn : n < height * 8) :
    s.colourAt (column height d n) (row height d n) = .ok ((s.shown height d)[n]?.getD 0) := by
  have := h.pixel_seat hd hn
  exact this

theorem Whole.colours (hheight : 0 < height) : s.colours d = .ok (s.shown height d) := by
  rw [Stripe.colours, h.height_eq, Int.toNat_natCast, places_eq hd hheight, mapM_map]
  have hall : ∀ n ∈ List.range (height * 8),
      s.colourAt (column height d n) (row height d n) = .ok (s.pixels[seat height d n]?.getD 0) := by
    intro n hn
    have hlt := mem_range.1 hn
    rw [h.colourAt hd hlt, h.getElem?_shown hd hlt]
  exact mapM_ok hall

end

theorem Filled.pixels_eq {t : Stripe} (h : Filled height d (s.shown height d) t)
    (hs : Whole height limit s) (hd : d.Moving) : t.pixels = s.pixels := by
  apply Array.ext_getElem?
  intro i
  by_cases hi : i < height * 8
  · obtain ⟨n, hn, rfl⟩ := exists_seat hd hi
    rw [h.pixels n (length_shown ▸ hn), hs.getElem?_shown hd hn]
  · rw [Array.getElem?_eq_none (by rw [h.size]; omega), Array.getElem?_eq_none (by rw [hs.size]; omega)]

end Showing

/-! ### Calls in any order -/

/-- What a stripe is asked for from outside. -/
inductive Call where
  | reset (d : Direction)
  | write (colour : Int)
  | writeByte (byte : Int)
  | read

def Call.run (s : Stripe) : Call → Except Fault Stripe
  | .reset d => .ok (s.reset d)
  | .write c => .ok (s.write c)
  | .writeByte b => .ok (s.writeByte b)
  | .read => do return (← s.read).2

/-- The direction of a cursor and how many pixels it was to visit since it got this direction. -/
def Call.track : Direction × Nat → Call → Direction × Nat
  | _, .reset d => (d, 0)
  | (d, k), .write _ => (d, k + 1)
  | (d, k), .writeByte _ => (d, k + 8)
  | (d, k), .read => (d, k + 1)

section Calls

variable {height k : Nat} {d : Direction} {s t : Stripe} {p : Direction × Nat}

theorem Stands.read (h : Stands height d n s) (hwithin : s.within) :
    ∃ c t, s.read = .ok (c, t) ∧ s.pixels[seat height d n]? = some c ∧ t.pixels = s.pixels ∧ Stands height d (n + 1) t := by
  obtain ⟨hheight, hseat, hlt⟩ := h.place hwithin
  have hstands : Stands height d n { s with lastX := s.x, lastY := s.y } :=
    ⟨h.height_eq, h.direction, h.size, h.x, h.y⟩
  have hpixel := Array.getElem?_eq_getElem hlt
  have hread : s.read = .ok (s.pixels[seat height d n], Stripe.advance { s with lastX := s.x, lastY := s.y }) := by
    rw [Stripe.read, if_pos hwithin, hseat, pixel_of_getElem? hpixel]
    rfl
  rw [hstands.advance hheight] at hread
  exact ⟨_, _, hread, hpixel, rfl, h.height_eq, h.direction, h.size, rfl, rfl⟩

theorem read_beyond (hwithin : ¬ s.within) : s.read = .ok (0, s) := by
  rw [read, if_neg hwithin]
  rfl

/-- The cursor of a stripe after a number of visits to pixels, of which those behind the last one do not move it. -/
abbrev After (height : Nat) (d : Direction) (k : Nat) (s : Stripe) : Prop := Stands height d (min k (height * 8)) s

theorem After.beyond (h : After height d k s) (hd : d.Moving) (hk : height * 8 ≤ k) : ¬ s.within := by
  rw [After, Nat.min_eq_right hk] at h
  rw [h.not_within hd]
  decide

/-- A cursor that does not move stands anywhere after any number of steps. -/
theorem Stands.still {m : Nat} (h : Stands height (.still c) m s) (n : Nat) : Stands height (.still c) n s :=
  ⟨h.height_eq, h.direction, h.size, h.x, h.y⟩

theorem After.step (h : After height d k s) (ht : s.within → Stands height d (min k (height * 8) + 1) t)
    (hs : ¬ s.within → t = s) : After height d (k + 1) t := by
  by_cases hd : d.Moving
  · by_cases hk : k < height * 8
    · have hmin : min k (height * 8) = k := Nat.min_eq_left (Nat.le_of_lt hk)
      rw [After, hmin] at h
      rw [hmin] at ht
      rw [After, Nat.min_eq_left hk]
      exact ht (h.within hd hk)
    · rw [hs (h.beyond hd (Nat.le_of_not_lt hk)), After, show min (k + 1) (height * 8) = min k (height * 8) by omega]
      exact h
  · obtain ⟨c, rfl⟩ : ∃ c, d = .still c := by
      cases d with
      | still c => exact ⟨c, rfl⟩
      | _ => simp [Direction.Moving] at hd
    by_cases hwithin : s.within
    · exact (ht hwithin).still _
    · exact hs hwithin ▸ Stands.still h _

theorem After.write (h : After height d k s) (c : Int) : After height d (k + 1) (s.write c) := by
  refine h.step (fun hwithin => (Stands.write h hwithin c).1) fun hwithin => ?_
  rw [Stripe.write, if_neg hwithin]

theorem After.writes (h : After height d k s) (cs : List Int) : After height d (k + cs.length) (cs.foldl Stripe.write s) := by
  induction cs generalizing k s with
  | nil => exact h
  | cons c cs ih =>
    rw [length_cons, Nat.add_comm cs.length, ← Nat.add_assoc]
    exact ih (h.write c)

theorem After.run (h : After height p.1 p.2 s) (call : Call) :
    ∃ t, call.run s = .ok t ∧ After height (call.track p).1 (call.track p).2 t := by
  cases call with
  | reset d =>
    refine ⟨_, rfl, ?_⟩
    exact stands_reset d h.height_eq h.size
  | write c => exact ⟨_, rfl, h.write c⟩
  | writeByte b =>
    have hwrites := h.writes ((Bits.ofInt 8 b).reverse.map fun b => (Bits.toNat b))
    exact ⟨_, rfl, hwrites⟩
  | read =>
    rw [Call.run]
    by_cases hwithin : s.within
    · obtain ⟨c, t, hread, -, -, hstands⟩ := Stands.read h hwithin
      rw [hread]
      exact ⟨t, rfl, h.step (fun _ => hstands) (absurd hwithin)⟩
    · rw [read_beyond hwithin]
      exact ⟨s, rfl, h.step (absurd · hwithin) fun _ => rfl⟩

theorem After.runs (h : After height p.1 p.2 s) (calls : List Call) :
    ∃ t, calls.foldlM Call.run s = .ok t ∧ After height (calls.foldl Call.track p).1 (calls.foldl Call.track p).2 t := by
  induction calls generalizing p s with
  | nil => exact ⟨s, rfl, h⟩
  | cons call calls ih =>
    obtain ⟨t, ht, hafter⟩ := h.run call
    obtain ⟨u, hu, hlast⟩ := ih hafter
    exact ⟨u, by rw [foldlM_cons, ht]; exact hu, hlast⟩

/-- Calls in any order are answered and keep the number of pixels. Since it got its direction the cursor visits each pixel
once, along the rows or down the columns, and calls behind the last one change nothing. -/
theorem each_pixel_visited_once (height : Nat) (d₀ : Direction) (calls : List Call) :
    (∀ n, seat height .rows n = n ∧ seat height .columns n = n % height * 8 + n / height) ∧
    ∃ s, calls.foldlM Call.run (new height d₀) = .ok s ∧ s.pixels.size = height * 8 ∧
    ∀ d k, calls.foldl Call.track (d₀, 0) = (d, k) → d.Moving →
    (∀ i < height * 8, ∃ n < height * 8, seat height d n = i ∧ ∀ m < height * 8, seat height d m = i → m = n) ∧
    (k < height * 8 → (∀ c, (s.write c).pixels = s.pixels.setIfInBounds (seat height d k) c) ∧
      ∃ c t, s.read = .ok (c, t) ∧ s.pixels[seat height d k]? = some c ∧ t.pixels = s.pixels) ∧
    (height * 8 ≤ k → (∀ c, s.write c = s) ∧ s.read = .ok (0, s)) := by
  have hnew : After height d₀ 0 (new height d₀) := by
    rw [After, Nat.zero_min]
    exact stands_new height d₀
  obtain ⟨s, hs, hafter⟩ := After.runs (p := (d₀, 0)) hnew calls
  refine ⟨fun n => ⟨?_, rfl⟩, s, hs, hafter.size, fun d k htrack hd => ⟨fun i hi => ?_, fun hk => ?_, fun hk => ?_⟩⟩
  · simp only [seat, row, column]
    omega
  · obtain ⟨n, hn, rfl⟩ := exists_seat hd hi
    exact ⟨n, hn, rfl, fun m hm heq => seat_inj hd hm hn heq⟩
  · rw [htrack, After, Nat.min_eq_left (Nat.le_of_lt hk)] at hafter
    have hwithin := hafter.within hd hk
    obtain ⟨c, t, hread, hpixel, hsame, -⟩ := hafter.read hwithin
    exact ⟨fun c => (hafter.write hwithin c).2, c, t, hread, hpixel, hsame⟩
  · rw [htrack] at hafter
    have hbeyond := hafter.beyond hd hk
    exact ⟨fun c => by rw [Stripe.write, if_neg hbeyond], read_beyond hbeyond⟩

end Calls
end Stripe

end ScummKit
