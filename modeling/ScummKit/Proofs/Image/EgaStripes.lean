import ScummKit.Image.Ega
import ScummKit.Proofs.Image.Cursor

/-!
# Stripes of sixteen colours give their pixels back

The colours of a stripe down its columns are one list, and every command of the writer stands for a
stretch of it. `Draws` says that some data paint such a stretch behind all that comes before it, which
a command needs that copies from the column to the left. `Holding` is what the writer keeps to: its
data paint all colours but those held back, and the options that are left describe the latter.
-/

namespace ScummKit.Ega

open List

variable {i : Nat}
variable {height : Nat} {cs : List Int} {m k n : Nat} {s : Stripe} {c first second : Int} {o : Options}

/-! ### What data paint -/

/-- Some data stand for these commands, whatever comes behind them. -/
def Spells (data : List Int) (commands : List Command) : Prop :=
  ∀ after more, parse after = .ok more → parse (data ++ after) = .ok (commands ++ more)

/-- Some data paint a stretch of a list of colours behind what comes before it. -/
def Draws (height : Nat) (cs : List Int) (data : List Int) (m k : Nat) : Prop :=
  ∃ commands, Spells data commands ∧ ∀ s, s.Filled height .columns (cs.take m) →
    ∃ t, commands.foldlM Command.paint s = .ok t ∧ t.Filled height .columns (cs.take k)

section Drawing

variable {data more : List Int}

theorem draws_nil : Draws height cs [] m m := ⟨[], fun _ _ h => h, fun s h => ⟨s, rfl, h⟩⟩

theorem Draws.append (h : Draws height cs data m k) (hmore : Draws height cs more k n) : Draws height cs (data ++ more) m n := by
  obtain ⟨commands, hspells, hpaint⟩ := h
  obtain ⟨commands', hspells', hpaint'⟩ := hmore
  refine ⟨commands ++ commands', ?_, ?_⟩
  · intro after rest hrest
    rw [append_assoc, append_assoc]
    exact hspells _ _ (hspells' _ _ hrest)
  · intro s hs
    obtain ⟨t, ht, hfilled⟩ := hpaint s hs
    obtain ⟨t', ht', hfilled'⟩ := hpaint' t hfilled
    refine ⟨t', ?_, hfilled'⟩
    rw [foldlM_append, ht]
    exact ht'

theorem draws_of_paint {command : Command} (hspells : Spells data [command]) (hpaint : ∀ s, s.Filled height .columns (cs.take m) →
    ∃ t, command.paint s = .ok t ∧ t.Filled height .columns (cs.take k)) : Draws height cs data m k := by
  refine ⟨[command], hspells, ?_⟩
  intro s hs
  obtain ⟨t, ht, hfilled⟩ := hpaint s hs
  refine ⟨t, ?_, hfilled⟩
  rw [foldlM_cons, ht]
  rfl

/-! ### Painting a stretch -/

section

variable (h : s.Filled height .columns (cs.take m))

include h

theorem filled_write (hcs : cs.length = height * 8) {c : Int} (hc : cs[m]? = some c) :
    (s.write c).Filled height .columns (cs.take (m + 1)) := by
  obtain ⟨hm, -⟩ := List.getElem?_eq_some_iff.1 hc
  have hroom : (cs.take m).length < height * 8 := by
    rw [List.length_take]
    omega
  rw [take_add_one, hc]
  exact h.write (.inr rfl) hroom c

theorem ditherMany_stretch (hcs : cs.length = height * 8) (hfirst : 0 < n → cs[m]? = some first)
    (hsecond : 1 < n → cs[m + 1]? = some second) (hstretch : ∀ i, m ≤ i → i + 2 < m + n → cs[i + 2]? = cs[i]?) :
    (ditherMany first second n s).Filled height .columns (cs.take (m + n)) := by
  induction n generalizing m s first second with
  | zero => exact h
  | succ n ih =>
    have hnext := filled_write h hcs (hfirst (by omega))
    rw [show m + (n + 1) = m + 1 + n by omega]
    apply ih hnext
    · intro hn
      exact hsecond (by omega)
    · intro hn
      rw [hstretch m (Nat.le_refl m) (by omega)]
      exact hfirst (by omega)
    · intro i hi hlt
      exact hstretch i (by omega) (by omega)

theorem pixel_left (hheight : 0 < height) (hm : height ≤ m) {c : Int} (hc : cs[m - height]? = some c)
    (hlength : (cs.take m).length = m) : s.pixel (8 * (s.y : Int) + s.x - 1) = .ok c := by
  have hpixel : s.pixels[Stripe.seat height .columns (m - height)]? = some c := by
    rw [h.pixels _ (by omega), getElem?_take_of_lt (by omega), hc]
  have hcolumn : m / height = (m - height) / height + 1 := Nat.div_eq_sub_div hheight hm
  have hrow : m % height = (m - height) % height := Nat.mod_eq_sub_mod hm
  have hx := h.x
  have hy := h.y
  rw [hlength] at hx hy
  simp only [Stripe.column, Stripe.row] at hx hy
  have hplace : 8 * (s.y : Int) + s.x - 1 = (Stripe.seat height .columns (m - height)) := by
    simp only [Stripe.seat, Stripe.row, Stripe.column]
    omega
  rw [hplace]
  exact Stripe.pixel_of_getElem? hpixel

theorem copyMany_stretch (hcs : cs.length = height * 8) (hheight : 0 < height) (hbound : m + n ≤ cs.length)
    (hstretch : ∀ i, m ≤ i → i < m + n → height ≤ i ∧ cs[i]? = cs[i - height]?) :
    ∃ t, copyMany n s = .ok t ∧ t.Filled height .columns (cs.take (m + n)) := by
  induction n generalizing m s with
  | zero => exact ⟨s, rfl, h⟩
  | succ n ih =>
    obtain ⟨hcolumn, hsame⟩ := hstretch m (Nat.le_refl m) (by omega)
    have hc : cs[m]? = some cs[m] := getElem?_eq_getElem (by omega)
    have hpixel := pixel_left h hheight hcolumn (hsame ▸ hc) (by rw [length_take]; omega)
    obtain ⟨t, ht, hfilled⟩ := ih (filled_write h hcs hc) (by omega) fun i hi hlt => hstretch i (by omega) (by omega)
    refine ⟨t, ?_, ?_⟩
    · rw [copyMany, hpixel]
      exact ht
    · rw [show m + (n + 1) = m + 1 + n by omega]
      exact hfilled

end

end Drawing

/-! ### Commands in bytes -/

section Commands

variable {a b : Int}

theorem or_copy {n : Nat} (h : n < 64) : Bits.or 0x80 n = ((n + 128 : Nat) : Int) := by
  have hor := Bits.or_shift (i := 7) 1 (Nat.lt_trans h (by decide))
  rw [Nat.add_comm]
  exact hor

theorem or_dither {n : Nat} (h : n < 64) : Bits.or 0xc0 n = ((n + 192 : Nat) : Int) := by
  have hor := Bits.or_shift (i := 6) 3 h
  rw [Nat.add_comm]
  exact hor

theorem or_nibbles (ha : 0 ≤ a) (hb : 0 ≤ b ∧ b < 16) : Bits.or (Bits.shift a 4) b = 16 * a + b := by
  obtain ⟨a, rfl⟩ := Int.eq_ofNat_of_zero_le ha
  obtain ⟨b, rfl⟩ := Int.eq_ofNat_of_zero_le hb.1
  have hlt : b < Nat.pow 2 4 := by
    have hpow : Nat.pow 2 4 = 16 := rfl
    omega
  have hor := Bits.or_shift a hlt
  have hpow : Nat.pow 2 4 = 16 := rfl
  rw [hpow] at hor
  omega

/-- Some bytes stand for a command that paints not fewer pixels. -/
def Codes (n : Nat) (data : List Int) (command : Command) : Prop := Spells data [command] ∧ AreBytes data ∧ data.length ≤ n

section

variable (hpos : 0 < n) (hshort : n ≤ 255)

include hpos hshort

theorem codes_copy : Codes n (if (0x3f : Int) < n then [0x80, (n : Int)] else [Bits.or 0x80 n]) (.copy n) := by
  by_cases hlong : (0x3f : Int) < n
  · rw [if_pos hlong]
    refine ⟨fun after more hmore => ?_, .cons (by decide) (.singleton (by omega)), by simp; omega⟩
    rw [cons_append, singleton_append, parse.eq_def]
    simp only [hmore]
    rfl
  · have hkind : ((n + 128 : Nat) : Int) / 64 % 4 = 2 := by omega
    have hcount : ((n + 128 : Nat) : Int) % 64 = n := by omega
    rw [if_neg hlong, or_copy (by omega)]
    refine ⟨fun after more hmore => ?_, .singleton (by omega), hpos⟩
    rw [singleton_append, parse.eq_def]
    simp only [hkind, hcount, hmore, if_neg (show ¬(n : Int) = 0 by omega)]
    rfl

theorem codes_repeat (hc : 0 ≤ c ∧ c < 16) :
    Codes n (if (7 : Int) < n then [c, (n : Int)] else [Bits.or (Bits.shift n 4) c]) (.repeat n c) := by
  by_cases hlong : (7 : Int) < n
  · have htwo : ¬c / 64 % 4 = 2 := by omega
    have hthree : ¬c / 64 % 4 = 3 := by omega
    have hcount : c / 16 % 16 = 0 := by omega
    have hcolour : c % 16 = c := by omega
    rw [if_pos hlong]
    refine ⟨fun after more hmore => ?_, .cons (by omega) (.singleton (by omega)), by simp; omega⟩
    rw [cons_append, singleton_append, parse.eq_def]
    simp only [if_neg htwo, if_neg hthree, hcount, hcolour, hmore]
    rfl
  · have htwo : ¬(16 * n + c) / 64 % 4 = 2 := by omega
    have hthree : ¬(16 * n + c) / 64 % 4 = 3 := by omega
    have hcount : (16 * n + c) / 16 % 16 = n := by omega
    have hcolour : (16 * n + c) % 16 = c := by omega
    rw [if_neg hlong, or_nibbles (by omega) hc]
    refine ⟨fun after more hmore => ?_, .singleton (by omega), hpos⟩
    rw [singleton_append, parse.eq_def]
    simp only [if_neg htwo, if_neg hthree, hcount, hcolour, hmore, if_neg (show ¬(n : Int) = 0 by omega)]
    rfl

theorem codes_dither (htwo : 1 < n) (ha : 0 ≤ a ∧ a < 16) (hb : 0 ≤ b ∧ b < 16) :
    Codes n (if (0x3f : Int) < n then [0xc0, Bits.or (Bits.shift a 4) b, (n : Int)]
    else [Bits.or 0xc0 n, Bits.or (Bits.shift a 4) b]) (.dither n a b) := by
  have hfirst : (16 * a + b) / 16 % 16 = a := by omega
  have hsecond : (16 * a + b) % 16 = b := by omega
  rw [or_nibbles ha.1 hb]
  by_cases hlong : (0x3f : Int) < n
  · rw [if_pos hlong]
    refine ⟨fun after more hmore => ?_, .cons (by decide) (.cons (by omega) (.singleton (by omega))), by simp; omega⟩
    rw [cons_append, cons_append, singleton_append, parse.eq_def]
    simp only [hfirst, hsecond, hmore]
    rfl
  · have hkind : ((n + 192 : Nat) : Int) / 64 % 4 = 3 := by omega
    have hcount : ((n + 192 : Nat) : Int) % 64 = n := by omega
    rw [if_neg hlong, or_dither (by omega)]
    refine ⟨fun after more hmore => ?_, .cons (by omega) (.singleton (by omega)), htwo⟩
    rw [cons_append, singleton_append, parse.eq_def]
    simp only [hkind, hcount, hfirst, hsecond, hmore, if_neg (show ¬(n : Int) = 0 by omega)]
    rfl

end

end Commands

/-! ### The command for a stretch -/

/-- The commands that are left describe a stretch of a list of colours. -/
structure Fits (height : Nat) (cs : List Int) (o : Options) (m k : Nat) : Prop where
  repeats : o.canRepeat = true → ∀ i, m ≤ i → i + 1 < k → cs[i + 1]? = cs[i]?
  dithers : o.canDither = true → ∀ i, m ≤ i → i + 2 < k → cs[i + 2]? = cs[i]?
  copies : o.canCopy = true → ∀ i, m ≤ i → i < k → height ≤ i ∧ cs[i]? = cs[i - height]?

def stretch (cs : List Int) (m k : Nat) : List Int := (cs.take k).drop m

/-- A picture's colours down its columns. -/
structure Columns (height : Nat) (cs : List Int) : Prop where
  positive : 0 < height
  length : cs.length = height * 8
  colour : ∀ c ∈ cs, 0 ≤ c ∧ c < 16

section Sequences

theorem length_stretch (h : k ≤ cs.length) : (stretch cs m k).length = k - m := by
  rw [stretch, length_drop, length_take]
  omega

theorem getElem?_stretch (h : m + i < k) : (stretch cs m k)[i]? = cs[m + i]? := by
  rw [stretch, getElem?_drop, getElem?_take_of_lt h]

theorem Columns.getElem? (h : Columns height cs) (hi : i < cs.length) : ∃ c, cs[i]? = some c ∧ 0 ≤ c ∧ c < 16 := by
  have hc : cs[i]? = some cs[i] := getElem?_eq_getElem hi
  exact ⟨cs[i], hc, h.colour _ (getElem_mem hi)⟩

section

variable (h : Fits height cs o m (m + n)) (hcs : Columns height cs)

include h hcs

theorem draws_repeat (hrepeat : o.canRepeat = true) {data : List Int} {c : Int} (hc : cs[m]? = some c)
    (hdata : Spells data [.repeat n c]) : Draws height cs data m (m + n) := by
  have hwrite : ∀ n s, Stripe.writeMany c n s = ditherMany c c n s := by
    intro n
    induction n with
    | zero => exact fun _ => rfl
    | succ n ih => exact fun s => ih (s.write c)
  refine draws_of_paint hdata fun s hs => ⟨_, rfl, ?_⟩
  rw [hwrite]
  refine ditherMany_stretch hs hcs.length (fun _ => hc) (fun hn => ?_) fun i hi hlt => ?_
  · rw [h.repeats hrepeat m (Nat.le_refl m) (by omega), hc]
  · rw [h.repeats hrepeat (i + 1) (by omega) hlt, h.repeats hrepeat i hi (by omega)]

theorem draws_sequence (hpos : 0 < n) (hshort : n ≤ 255) (hbound : m + n ≤ cs.length) (hsome : o.none = false)
    (hsingle : n ≤ 1 → o.canRepeat = true) :
    ∃ data, sequence (stretch cs m (m + n)) o = .ok data ∧ AreBytes data ∧ data.length ≤ n ∧ Draws height cs data m (m + n) := by
  obtain ⟨a, ha, hcolourA⟩ := hcs.getElem? (show m < cs.length by omega)
  have hlength : (stretch cs m (m + n)).length = n := by
    rw [length_stretch hbound]
    omega
  have hfirst : Position.look (stretch cs m (m + n)) 0 = .ok a := by
    apply look_of_getElem? (i := 0)
    rw [getElem?_stretch (by omega)]
    exact ha
  rw [sequence, hlength, hfirst]
  by_cases hcopy : o.canCopy = true
  · obtain ⟨hspells, hbytes, hsmall⟩ := codes_copy hpos hshort
    exact ⟨_, if_pos hcopy, hbytes, hsmall, draws_of_paint hspells fun s hs =>
      copyMany_stretch hs hcs.length hcs.positive hbound (h.copies hcopy)⟩
  · rw [if_neg hcopy]
    by_cases hrepeat : o.canRepeat = true
    · rw [if_pos hrepeat]
      obtain ⟨hspells, hbytes, hsmall⟩ := codes_repeat hpos hshort hcolourA
      exact ⟨_, rfl, hbytes, hsmall, draws_repeat h hcs hrepeat ha hspells⟩
    · have hdither : o.canDither = true := by
        cases hd : o.canDither with
        | true => rfl
        | false =>
          simp only [Options.none, hcopy, hrepeat, hd] at hsome
          cases hsome
      have htwo : 1 < n := Nat.lt_of_not_le fun hle => hrepeat (hsingle hle)
      obtain ⟨b, hb, hcolourB⟩ := hcs.getElem? (show m + 1 < cs.length by omega)
      have hsecond : Position.look (stretch cs m (m + n)) 1 = .ok b := by
        apply look_of_getElem? (i := 1)
        rw [getElem?_stretch (by omega)]
        exact hb
      rw [if_neg hrepeat, if_pos hdither, hsecond]
      obtain ⟨hspells, hbytes, hsmall⟩ := codes_dither hpos hshort htwo hcolourA hcolourB
      exact ⟨_, rfl, hbytes, hsmall, draws_of_paint hspells fun s hs =>
        ⟨_, rfl, ditherMany_stretch hs hcs.length (fun _ => ha) (fun _ => hb) (h.dithers hdither)⟩⟩

end

end Sequences

/-! ### The writer -/

def matchedAt (height : Nat) (cs : List Int) (k : Nat) : Bool := decide (height ≤ k ∧ cs[k]? = cs[k - height]?)

/-- The writer has taken `k` colours, of which its data paint the first `m`. -/
structure Holding (height : Nat) (cs : List Int) (m k : Nat) (p : Pending) : Prop where
  started : m < k ∨ k = 0 ∧ m = 0
  bound : k ≤ cs.length
  draws : Draws height cs p.out 0 m
  areBytes : AreBytes p.out
  small : p.out.length ≤ m
  buffer : p.buffer = stretch cs m k
  short : k ≤ m + 255
  fits : Fits height cs p.options m k
  possible : p.options.none = false
  single : k ≤ m + 1 → p.options.canRepeat = true
  matched : p.matched = true → matchedAt height cs (k - 1) = true

section Writing

variable {p : Pending}

theorem holding_start : Holding height cs 0 0 ⟨[], [], ⟨true, true, true⟩, false⟩ where
  started := .inr ⟨rfl, rfl⟩
  bound := Nat.zero_le _
  draws := draws_nil
  areBytes := .nil
  small := Nat.le_refl 0
  buffer := rfl
  short := Nat.zero_le _
  fits := by constructor <;> intro _ i _ hi <;> omega
  possible := rfl
  single := fun _ => rfl
  matched := by intro h; cases h

theorem stretch_concat (hm : m ≤ k) (hc : cs[k]? = some c) : stretch cs m k ++ [c] = stretch cs m (k + 1) := by
  obtain ⟨hk, -⟩ := List.getElem?_eq_some_iff.1 hc
  rw [stretch, stretch, List.take_add_one, hc, List.drop_append_of_le_length]
  · rfl
  · rw [List.length_take]
    omega

theorem eq_of_guard {P : Prop} [Decidable P] {x y : Option Int} (hp : P) (h : (decide P && decide (x ≠ y)) = false) : x = y := by
  rcases Bool.and_eq_false_iff.1 h with hnot | hsame
  · exact absurd hp (of_decide_eq_false hnot)
  · exact Decidable.not_not.1 (of_decide_eq_false hsame)

theorem Fits.narrow (h : Fits height cs o m k) (hk : k ≤ cs.length) (hc : cs[k]? = some c) :
    Fits height cs (Ega.narrow o (stretch cs m k) c (matchedAt height cs k)) m (k + 1) := by
  have hlength : (stretch cs m k).length = k - m := length_stretch hk
  constructor
  · intro hrepeat i hi hlt
    simp only [Ega.narrow, Bool.and_eq_true, Bool.not_eq_true'] at hrepeat
    by_cases hlast : i + 1 = k
    · have hin : (stretch cs m k)[k - m - 1]? = cs[m + (k - m - 1)]? := getElem?_stretch (by omega)
      have hget : (stretch cs m k).getLast? = cs[i]? := by
        rw [getLast?_eq_getElem?, hlength, hin]
        congr 1
        omega
      rw [hget] at hrepeat
      rw [hlast, hc]
      exact (eq_of_guard (by omega) hrepeat.2).symm
    · exact h.repeats hrepeat.1 i hi (by omega)
  · intro hdither i hi hlt
    simp only [Ega.narrow, Bool.and_eq_true, Bool.not_eq_true', hlength] at hdither
    by_cases hlast : i + 2 = k
    · have hin : (stretch cs m k)[k - m - 2]? = cs[m + (k - m - 2)]? := getElem?_stretch (by omega)
      rw [hin, show m + (k - m - 2) = i by omega] at hdither
      rw [hlast, hc]
      exact (eq_of_guard (by omega) hdither.2).symm
    · exact h.dithers hdither.1 i hi (by omega)
  · intro hcopy i hi hlt
    simp only [Ega.narrow, Bool.and_eq_true] at hcopy
    by_cases hlast : i = k
    · subst hlast
      exact of_decide_eq_true hcopy.2
    · exact h.copies hcopy.1 i hi (by omega)

theorem Holding.getElem?_buffer (h : Holding height cs m k p) (hi : m + i < k) : p.buffer[i]? = cs[m + i]? := by
  rw [h.buffer, getElem?_stretch hi]

theorem Holding.extend (h : Holding height cs m k p) (hc : cs[k]? = some c) (hlt : k < m + 255)
    (hsome : (narrow p.options p.buffer c (matchedAt height cs k)).none = false) :
    Holding height cs m (k + 1) ⟨p.out, p.buffer ++ [c],
    narrow p.options p.buffer c (matchedAt height cs k), matchedAt height cs k⟩ := by
  obtain ⟨hk, -⟩ := List.getElem?_eq_some_iff.1 hc
  have hm : m ≤ k := by
    have := h.started
    omega
  have hbuffer := h.buffer
  exact
    { started := .inl (by omega)
      bound := hk
      draws := h.draws
      areBytes := h.areBytes
      small := h.small
      buffer := (congrArg (· ++ [c]) hbuffer).trans (stretch_concat hm hc)
      short := by omega
      fits := by rw [hbuffer]; exact h.fits.narrow h.bound hc
      possible := hsome
      single := by
        intro hsingle
        have hempty : p.buffer = [] := by
          apply eq_nil_of_length_eq_zero
          rw [hbuffer, length_stretch h.bound]
          omega
        simp only [narrow, hempty, h.single (by omega)]
        rfl
      matched := fun hmatched => hmatched }

section

variable (h : Holding height cs m k p) (hcs : Columns height cs) (hc : cs[k]? = some c)

include h hcs hc

theorem Holding.flush (hmk : m < k) : ∃ written, sequence p.buffer p.options = .ok written ∧
    Holding height cs k (k + 1) ⟨p.out ++ written, [c], ⟨true, true, matchedAt height cs k⟩, matchedAt height cs k⟩ := by
  obtain ⟨hk, -⟩ := List.getElem?_eq_some_iff.1 hc
  have hshort := h.short
  obtain ⟨n, rfl⟩ : ∃ n, k = m + n := ⟨k - m, by omega⟩
  obtain ⟨written, hwritten, hbytes, hlength, hdraws⟩ := draws_sequence h.fits hcs (by omega) (by omega) h.bound
    h.possible fun hn => h.single (by omega)
  refine ⟨written, by rw [h.buffer, hwritten], ?_⟩
  exact
    { started := .inl (by omega)
      bound := hk
      draws := h.draws.append hdraws
      areBytes := h.areBytes.append hbytes
      small := length_append ▸ Nat.add_le_add h.small hlength
      buffer := by
        rw [← stretch_concat (Nat.le_refl _) hc, stretch, drop_eq_nil_of_le]
        · rfl
        · rw [length_take]
          exact Nat.min_le_left _ _
      short := by omega
      fits :=
        { repeats := fun _ i hi hlt => by omega
          dithers := fun _ i hi hlt => by omega
          copies := fun hmatched i hi hlt => by
            have : i = m + n := by omega
            subst this
            exact of_decide_eq_true hmatched }
      possible := rfl
      single := fun _ => rfl
      matched := fun hmatched => hmatched }

theorem Holding.cut (hpair : p.buffer = [first, second]) :
    Holding height cs (m + 1) (k + 1) ⟨p.out ++ [Bits.or 0x10 first], [second, c],
    ⟨second = c, second ≠ c, matchedAt height cs k && p.matched⟩, matchedAt height cs k⟩ := by
  obtain ⟨hk, -⟩ := List.getElem?_eq_some_iff.1 hc
  have hlength : (stretch cs m k).length = 2 := by rw [← h.buffer, hpair]; rfl
  rw [length_stretch h.bound] at hlength
  obtain rfl : k = m + 2 := by omega
  have hfirst : cs[m]? = some first := by
    have hget := h.getElem?_buffer (i := 0) (by omega)
    rw [hpair] at hget
    exact hget.symm
  have hsecond : cs[m + 1]? = some second := by
    rw [← h.getElem?_buffer (by omega), hpair]
    rfl
  have hcolour : 0 ≤ first ∧ first < 16 := hcs.colour first (mem_of_getElem? hfirst)
  have hbyte : Bits.or 0x10 first = 16 * 1 + first := or_nibbles (a := 1) (by decide) hcolour
  have hone : Fits height cs ⟨true, false, false⟩ m (m + 1) := by
    constructor
    · omega
    · intro hfalse
      cases hfalse
    · intro hfalse
      cases hfalse
  have hdraws : Draws height cs [Bits.or 0x10 first] m (m + 1) :=
    draws_repeat hone hcs rfl hfirst (codes_repeat Nat.one_pos (by decide) hcolour).1
  exact
    { started := .inl (by omega)
      bound := hk
      draws := h.draws.append hdraws
      areBytes := h.areBytes.append (.singleton (by omega))
      small := length_append ▸ Nat.add_le_add h.small (Nat.le_refl 1)
      buffer := by
        rw [← stretch_concat (by omega) hc, ← stretch_concat (Nat.le_refl _) hsecond, stretch, drop_eq_nil_of_le]
        · rfl
        · rw [length_take]
          exact Nat.min_le_left _ _
      short := by omega
      fits :=
        { repeats := by
            intro hsame i hi hlt
            obtain rfl : i = m + 1 := by omega
            rw [hsecond, hc, of_decide_eq_true hsame]
          dithers := by
            omega
          copies := by
            intro hboth i hi hlt
            obtain ⟨hlast, hbefore⟩ := Bool.and_eq_true_iff.1 hboth
            rcases (by omega : i = m + 1 ∨ i = m + 2) with rfl | rfl
            · exact of_decide_eq_true (h.matched hbefore)
            · exact of_decide_eq_true hlast }
      possible := by
        by_cases hsame : second = c
        · simp [Options.none]
        · simp [Options.none]
      single := by
        omega
      matched := fun hmatched => hmatched }

theorem Holding.step : ∃ m' p', Ega.step p (c, matchedAt height cs k) = .ok p' ∧ Holding height cs m' (k + 1) p' := by
  have hlength : p.buffer.length = k - m := by rw [h.buffer, length_stretch h.bound]
  have hstarted := h.started
  have hshort := h.short
  rw [Ega.step]
  by_cases hend : (narrow p.options p.buffer c (matchedAt height cs k)).none ∨ p.buffer.length = 0xff
  · simp only [if_pos hend]
    have hmk : m < k := by
      rcases hstarted with hlt | ⟨rfl, rfl⟩
      · exact hlt
      · -- with nothing held back every command but copying is left
        have hempty : p.buffer = [] := eq_nil_of_length_eq_zero hlength
        rcases hend with hnone | hfull
        · have hrepeat : p.options.canRepeat = true := h.single (by omega)
          simp [narrow, Options.none, hempty, hrepeat] at hnone
        · omega
    split
    · rename_i first second hpair hoptions
      exact ⟨m + 1, _, rfl, h.cut hcs hc hpair⟩
    · obtain ⟨written, hwritten, hholding⟩ := h.flush hcs hc hmk
      rw [hwritten]
      exact ⟨k, _, rfl, hholding⟩
  · simp only [if_neg hend]
    have hpossible : (narrow p.options p.buffer c (matchedAt height cs k)).none = false :=
      Bool.eq_false_iff.2 fun hnone => hend (.inl hnone)
    have hlt : k < m + 255 := by
      omega
    exact ⟨m, _, rfl, h.extend hc hlt hpossible⟩

end

def columnPairs (height : Nat) (cs : List Int) (n : Nat) : List (Int × Bool) :=
  (List.range n).map fun k => (cs[k]?.getD 0, matchedAt height cs k)

theorem holding_foldlM (hcs : Columns height cs) {n : Nat} (hn : n ≤ cs.length) :
    ∃ m p, (columnPairs height cs n).foldlM Ega.step ⟨[], [], ⟨true, true, true⟩, false⟩ = .ok p ∧ Holding height cs m n p := by
  induction n with
  | zero => exact ⟨0, _, rfl, holding_start⟩
  | succ n ih =>
    obtain ⟨m, p, hfold, hholding⟩ := ih (by omega)
    obtain ⟨c, hc, -⟩ := hcs.getElem? (show n < cs.length by omega)
    obtain ⟨m', p', hstep, hnext⟩ := hholding.step hcs hc
    refine ⟨m', p', ?_, hnext⟩
    rw [columnPairs, range_succ, map_append, foldlM_append]
    simp only [columnPairs] at hfold
    rw [hfold, map_singleton, hc]
    show Ega.step p (c, matchedAt height cs n) >>= pure = _
    rw [hstep]
    rfl

end Writing

/-! ### Stripes -/

section Stripes

section

variable (h : s.Whole height 16) (hheight : 0 < height)

include h hheight

theorem columns_shown : Columns height (s.shown height .columns) where
  positive := hheight
  length := Stripe.length_shown
  colour := fun _ hc => h.mem_shown (.inr rfl) hc

theorem colourAt_left {n : Nat} (hn : n < height * 8) (hleft : height ≤ n) :
    s.colourAt ((Stripe.column height .columns n : Int) - 1) (Stripe.row height .columns n)
    = .ok ((s.shown height .columns)[n - height]?.getD 0) := by
  have hbefore := h.colourAt (.inr rfl) (show n - height < height * 8 by omega)
  have hcolumn : n / height = (n - height) / height + 1 := Nat.div_eq_sub_div hheight hleft
  have hrow : n % height = (n - height) % height := Nat.mod_eq_sub_mod hleft
  simp only [Stripe.column, Stripe.row] at hbefore ⊢
  rw [hcolumn, hrow, Int.natCast_add, Int.natCast_one, Int.add_sub_cancel]
  exact hbefore

theorem columnColours_eq : columnColours s = .ok (columnPairs height (s.shown height .columns) (height * 8)) := by
  rw [columnColours, h.height_eq, Int.toNat_natCast, Stripe.places_eq (.inr rfl) hheight, mapM_map]
  apply mapM_ok
  intro n hn
  have hn := mem_range.1 hn
  have hcolour := h.colourAt (.inr rfl) hn
  have hlength : (s.shown height .columns).length = height * 8 := Stripe.length_shown
  have hsome : (s.shown height .columns)[n]? = some (s.shown height .columns)[n] :=
    getElem?_eq_getElem (by omega)
  simp only [Function.comp_apply, hcolour]
  by_cases hleft : height ≤ n
  · have hcolumn : 0 < Stripe.column height .columns n := Nat.div_pos hleft hheight
    have hsome' : (s.shown height .columns)[n - height]? = some (s.shown height .columns)[n - height] :=
      getElem?_eq_getElem (by omega)
    simp only [if_pos hcolumn, colourAt_left h hheight hn hleft, matchedAt, hleft, true_and, hsome, hsome',
      Option.some.injEq]
    rfl
  · have hcolumn : ¬0 < Stripe.column height .columns n := by
      simp only [Stripe.column, Nat.div_eq_of_lt (Nat.lt_of_not_le hleft)]
      omega
    simp only [if_neg hcolumn, matchedAt, hleft]
    rfl

/-- The data of a stripe are bytes, not more than it has pixels, and give the pixels back. -/
theorem exists_data : ∃ data t, encode s = .ok data ∧ AreBytes data ∧ data.length ≤ height * 8 ∧
    decode height data = .ok t ∧ t.pixels = s.pixels := by
  have hcs := columns_shown h hheight
  have hlength := hcs.length
  obtain ⟨m, p, hfold, hholding⟩ := holding_foldlM hcs (Nat.le_of_eq hlength.symm)
  have hshort := hholding.short
  have hsmall := hholding.small
  obtain ⟨n, hn⟩ : ∃ n, height * 8 = m + n := ⟨height * 8 - m, by have := hholding.started; omega⟩
  rw [hn] at hholding
  obtain ⟨last, hlast, hbytes, hlastLength, hdraws⟩ := draws_sequence hholding.fits hcs
    (by have := hholding.started; omega) (by omega) hholding.bound hholding.possible
    fun hle => hholding.single (by omega)
  obtain ⟨commands, hspells, hpaint⟩ := hholding.draws.append hdraws
  have hparse := hspells [] [] (by rw [parse])
  rw [append_nil, append_nil] at hparse
  obtain ⟨t, ht, hfilled⟩ := hpaint (Stripe.new height .columns) Stripe.filled_new
  rw [← hn, take_of_length_le (Nat.le_of_eq hlength)] at hfilled
  refine ⟨p.out ++ last, t, ?_, hholding.areBytes.append hbytes, ?_, ?_, hfilled.pixels_eq h (.inr rfl)⟩
  · rw [encode, columnColours_eq h hheight]
    simp only [Bind.bind, Except.bind, hfold, hholding.buffer, hlast]
    rfl
  · rw [length_append]
    omega
  · rw [decode, hparse]
    exact ht

theorem restored : Stripe.Restored encode decode s := by
  obtain ⟨data, t, hencode, hbytes, -, hdecode, hpixels⟩ := exists_data h hheight
  exact ⟨data, t, hencode, hbytes, h.height_eq ▸ hdecode, hpixels⟩

/-- A stripe of sixteen colours of any height is written in bytes from which its pixels are read again. -/
theorem stripe_restored : ∃ data t, encode s = .ok data ∧ AreBytes data ∧ decode height data = .ok t ∧ t.pixels = s.pixels := by
  obtain ⟨data, t, hencode, hbytes, -, hdecode, hpixels⟩ := exists_data h hheight
  exact ⟨data, t, hencode, hbytes, hdecode, hpixels⟩

end

/-- Two colours in turn, the first of them again, and columns like those to the left. -/
def weave : Stripe := Stripe.ofPixels 3 [1, 1, 2, 2, 2, 7, 7, 7, 2, 2, 2, 2, 2, 2, 2, 2, 1, 1, 3, 3, 3, 3, 3, 4]

theorem stripe_restored_weave :
    ∃ data t, encode weave = .ok data ∧ AreBytes data ∧ decode 3 data = .ok t ∧ t.pixels = weave.pixels :=
  stripe_restored ⟨rfl, rfl, by decide⟩ (by decide)

end Stripes

end ScummKit.Ega
