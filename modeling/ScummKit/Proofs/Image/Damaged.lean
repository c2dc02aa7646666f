import ScummKit.Proofs.Image.EgaStripes
import ScummKit.Proofs.Image.MaskStripes
import ScummKit.Proofs.Image.VgaStripes

/-!
# Stripes of any data

Whatever the data are, a stripe that is read has a pixel at each place. Data of sixteen colours and of masks
give colours of their palettes, and are refused only if they end inside a command (`decode_damaged`). Data of
256 colours are never refused, but the steps between colours are not kept within the palette: the pixels have
the colours that the data turn to (`Vga.decode_turns`).
-/

namespace ScummKit

open List

/-! ### Stripes with a property -/

/-- A stripe of a height, each of whose pixels has a property. -/
structure Stripe.Spread (height : Nat) (P : Int → Prop) (s : Stripe) : Prop where
  height_eq : s.height = height
  size : s.pixels.size = height * 8
  colour : ∀ c ∈ s.pixels.toList, P c

namespace Stripe

variable {height : Nat} {P : Int → Prop} {s : Stripe} {c : Int}

theorem spread_new (h : P 0) (d : Direction) : Spread height P (new height d) where
  height_eq := rfl
  size := by simp only [new, Array.size_replicate]; omega
  colour := by
    intro c hc
    rwa [eq_of_mem_replicate hc]

theorem advance_eq (s : Stripe) : ∃ x y, s.advance = { s with x, y } := by
  rw [advance]
  split
  · split <;> exact ⟨_, _, rfl⟩
  · split <;> exact ⟨_, _, rfl⟩
  · exact ⟨s.x, s.y, rfl⟩

theorem Spread.write (h : Spread height P s) (hc : P c) : Spread height P (s.write c) := by
  rw [Stripe.write]
  split
  · obtain ⟨x, y, hadvance⟩ := advance_eq { s with pixels := s.pixels.setIfInBounds (s.y * 8 + s.x) c }
    rw [hadvance]
    refine ⟨h.height_eq, (Array.size_setIfInBounds ..).trans h.size, fun a ha => ?_⟩
    rw [Array.toList_setIfInBounds] at ha
    rcases mem_or_eq_of_mem_set ha with ha | rfl
    · exact h.colour a ha
    · exact hc
  · exact h

theorem Spread.foldl_write (h : Spread height P s) {cs : List Int} (hcs : ∀ c ∈ cs, P c) :
    Spread height P (cs.foldl Stripe.write s) := by
  induction cs generalizing s with
  | nil => exact h
  | cons c cs ih => exact ih (h.write (hcs c mem_cons_self)) fun a ha => hcs a (mem_cons_of_mem c ha)

theorem Spread.writeMany (h : Spread height P s) (hc : P c) (n : Nat) : Spread height P (Stripe.writeMany c n s) := by
  rw [writeMany_eq_foldl]
  exact h.foldl_write fun a ha => eq_of_mem_replicate ha ▸ hc

end Stripe

/-! ### Data that end inside a command -/

/-- Data of commands that end inside one. A command is a byte with operands behind it, of which it needs at
least some. -/
inductive Truncated (least operands : Int → Nat) : List Int → Prop
  | here {byte : Int} {ops : List Int} (h : ops.length < least byte) : Truncated least operands (byte :: ops)
  | behind {byte : Int} {ops rest : List Int} (h : ops.length = operands byte) (hrest : Truncated least operands rest) :
      Truncated least operands (byte :: (ops ++ rest))

/-- A reader of commands that gives good results for each of them. -/
structure Reader (read : List Int → Except Fault (List β)) (good : β → Prop) (least operands : Int → Nat) : Prop where
  nil : read [] = .ok []
  short {byte : Int} {ops : List Int} (h : ops.length < least byte) : read (byte :: ops) = .error .outOfRange
  last {byte : Int} {ops : List Int} (h : least byte ≤ ops.length) (hops : ops.length < operands byte) :
    ∃ bs, read (byte :: ops) = .ok bs ∧ ∀ b ∈ bs, good b
  whole {byte : Int} {ops : List Int} (h : ops.length = operands byte) :
    ∃ bs, (∀ b ∈ bs, good b) ∧ ∀ rest, read (byte :: (ops ++ rest)) = (read rest).map (bs ++ ·)

section Readers

variable {read : List Int → Except Fault (List β)} {good : β → Prop} {least operands : Int → Nat} {data : List Int}

theorem Reader.outcome (h : Reader read good least operands) (data : List Int) :
    (∃ bs, read data = .ok bs ∧ ∀ b ∈ bs, good b) ∨ read data = .error .outOfRange ∧ Truncated least operands data := by
  match data with
  | [] => exact .inl ⟨[], h.nil, forall_mem_nil _⟩
  | byte :: tail =>
    by_cases hshort : tail.length < least byte
    · exact .inr ⟨h.short hshort, .here hshort⟩
    by_cases hlast : tail.length < operands byte
    · exact .inl (h.last (Nat.le_of_not_lt hshort) hlast)
    have hops : (tail.take (operands byte)).length = operands byte := length_take_of_le (Nat.le_of_not_lt hlast)
    have htail : tail.take (operands byte) ++ tail.drop (operands byte) = tail := take_append_drop ..
    obtain ⟨bs, hbs, hread⟩ := h.whole hops
    have htotal := hread (tail.drop (operands byte))
    rw [htail] at htotal
    rcases h.outcome (tail.drop (operands byte)) with ⟨cs, hcs, hgood⟩ | ⟨herror, hcut⟩
    · refine .inl ⟨bs ++ cs, by rw [htotal, hcs]; rfl, fun b hb => ?_⟩
      exact (mem_append.1 hb).elim (hbs b) (hgood b)
    · refine .inr ⟨by rw [htotal, herror]; rfl, ?_⟩
      rw [← htail]
      exact .behind hops hcut
termination_by data.length
decreasing_by rw [length_drop, length_cons]; omega

theorem Reader.truncated (h : Reader read good least operands) (hcut : Truncated least operands data) :
    read data = .error .outOfRange := by
  induction hcut with
  | here hshort => exact h.short hshort
  | behind hops _ ih =>
    obtain ⟨bs, -, hread⟩ := h.whole hops
    rw [hread, ih]
    rfl

/-- A decoder that gives a whole stripe, or refuses data that end inside a command and no others. -/
def Decodes (decoded : Except Fault Stripe) (height limit : Nat) (cut : Prop) : Prop :=
  ((∃ s, decoded = .ok s ∧ s.Whole height limit) ∨ decoded = .error .outOfRange) ∧ (decoded = .error .outOfRange ↔ cut)

theorem Reader.decodes (h : Reader read good least operands) {height limit : Nat} {paint : List β → Except Fault Stripe}
    (hpaint : ∀ bs, (∀ b ∈ bs, good b) → ∃ s, paint bs = .ok s ∧ s.Whole height limit) :
    Decodes (read data >>= paint) height limit (Truncated least operands data) := by
  rcases h.outcome data with ⟨bs, hread, hgood⟩ | ⟨herror, hcut⟩
  · obtain ⟨s, hs, hwhole⟩ := hpaint bs hgood
    have htotal : (read data >>= paint) = .ok s := by rw [hread]; exact hs
    refine ⟨.inl ⟨s, htotal, hwhole⟩, fun herror => ?_, fun hcut => ?_⟩
    · cases htotal.symm.trans herror
    · cases hread.symm.trans (h.truncated hcut)
  · have htotal : (read data >>= paint) = .error .outOfRange := by rw [herror]; rfl
    exact ⟨.inr htotal, fun _ => hcut, fun _ => htotal⟩

end Readers

/-! ### Sixteen colours -/

namespace Ega

/-- How many bytes belong to the command of a byte. -/
def operands (byte : Int) : Nat :=
  if byte / 64 % 4 = 2 then if byte % 64 = 0 then 1 else 0
  else if byte / 64 % 4 = 3 then if byte % 64 = 0 then 2 else 1
  else if byte / 16 % 16 = 0 then 1 else 0

def IsColour (c : Int) : Prop := 0 ≤ c ∧ c < (16 : Nat)

def Command.Proper : Command → Prop
  | .copy _ => True
  | .dither _ first second => IsColour first ∧ IsColour second
  | .repeat _ colour => IsColour colour

theorem isColour_mod (v : Int) : IsColour (v % 16) := by
  rw [IsColour]
  omega

/-- The command of a byte and its operands. -/
def command (byte : Int) (ops : List Int) : Command :=
  if byte / 64 % 4 = 2 then .copy (if byte % 64 = 0 then ops.headD 0 else byte % 64)
  else if byte / 64 % 4 = 3 then
    .dither (if byte % 64 = 0 then ops.getD 1 0 else byte % 64) (ops.headD 0 / 16 % 16) (ops.headD 0 % 16)
  else .repeat (if byte / 16 % 16 = 0 then ops.headD 0 else byte / 16 % 16) (byte % 16)

theorem proper_command (byte : Int) (ops : List Int) : (command byte ops).Proper := by
  rw [command]
  split
  · trivial
  · split
    · exact ⟨isColour_mod _, isColour_mod _⟩
    · exact isColour_mod _

theorem parse_command {byte : Int} {ops : List Int} (h : ops.length = operands byte) (rest : List Int) :
    parse (byte :: (ops ++ rest)) = do return command byte ops :: (← parse rest) := by
  rw [parse.eq_def]
  rcases ops with _ | ⟨a, _ | ⟨b, _ | ⟨c, ops⟩⟩⟩ <;> grind [operands, command]

theorem reader : Reader parse Command.Proper operands operands where
  nil := by rw [parse]
  short {byte ops} h := by
    rcases ops with _ | ⟨a, _ | ⟨b, ops⟩⟩ <;> grind [parse, operands]
  last h hops := absurd hops (Nat.not_lt.2 h)
  whole {byte ops} h := by
    refine ⟨[command byte ops], forall_mem_singleton.2 (proper_command byte ops), fun rest => ?_⟩
    rw [parse_command h]
    cases parse rest <;> rfl

/-- A stripe while it is painted: the cursor never leaves it further than to the column behind the last. -/
structure Painted (height : Nat) (s : Stripe) : Prop extends s.Spread height IsColour where
  direction : s.direction = .columns
  x : s.x ≤ 8
  y : s.y < height

variable {height : Nat} {s : Stripe} {c : Int}

section

variable (h : Painted height s)

include h

theorem Painted.write (hc : IsColour c) : Painted height (s.write c) := by
  have hspread := h.toSpread.write hc
  have hy := h.y
  by_cases hwithin : s.within
  · rw [Stripe.write, if_pos hwithin, Stripe.advance, h.direction] at hspread ⊢
    rw [Stripe.within, Bool.and_eq_true, decide_eq_true_eq] at hwithin
    dsimp only at hspread ⊢
    split at hspread
    · rename_i hlast
      rw [if_pos hlast]
      exact ⟨hspread, rfl, hwithin.1, by dsimp only; omega⟩
    · rename_i hlast
      rw [if_neg hlast]
      rw [h.height_eq] at hlast
      exact ⟨hspread, rfl, h.x, by dsimp only; omega⟩
  · rwa [Stripe.write, if_neg hwithin]

theorem Painted.pixel : ∃ c, s.pixel (8 * (s.y : Int) + s.x - 1) = .ok c ∧ IsColour c := by
  have hx := h.x
  have hy := h.y
  have hsize := h.size
  rw [Stripe.pixel]
  generalize hj : (if 8 * (s.y : Int) + s.x - 1 < 0 then 8 * (s.y : Int) + s.x - 1 + s.pixels.size
    else 8 * s.y + s.x - 1) = j
  have hbounds : 0 ≤ j ∧ j.toNat < s.pixels.size := by
    split at hj <;> omega
  rw [if_neg (by omega), Array.getElem?_eq_getElem hbounds.2]
  exact ⟨_, rfl, h.colour _ (Array.getElem_mem_toList hbounds.2)⟩

theorem Painted.copyMany (n : Nat) : ∃ t, copyMany n s = .ok t ∧ Painted height t := by
  induction n generalizing s with
  | zero => exact ⟨s, rfl, h⟩
  | succ n ih =>
    obtain ⟨c, hpixel, hc⟩ := h.pixel
    obtain ⟨t, ht, hpainted⟩ := ih (h.write hc)
    refine ⟨t, ?_, hpainted⟩
    rw [Ega.copyMany, hpixel]
    exact ht

theorem Painted.ditherMany {first second : Int} (hfirst : IsColour first) (hsecond : IsColour second)
    (n : Nat) : Painted height (ditherMany first second n s) := by
  induction n generalizing s first second with
  | zero => exact h
  | succ n ih => exact ih (h.write hfirst) hsecond hfirst

theorem Painted.writeMany (hc : IsColour c) (n : Nat) : Painted height (s.writeMany c n) := by
  induction n generalizing s with
  | zero => exact h
  | succ n ih => exact ih (h.write hc)

theorem Painted.paint {command : Command} (hcommand : command.Proper) : ∃ t, command.paint s = .ok t ∧ Painted height t := by
  cases command with
  | copy n => exact h.copyMany n.toNat
  | dither n first second => exact ⟨_, rfl, h.ditherMany hcommand.1 hcommand.2 n.toNat⟩
  | «repeat» n colour => exact ⟨_, rfl, h.writeMany hcommand n.toNat⟩

theorem Painted.foldlM {commands : List Command} (hcommands : ∀ c ∈ commands, c.Proper) :
    ∃ t, commands.foldlM Command.paint s = .ok t ∧ Painted height t := by
  induction commands generalizing s with
  | nil => exact ⟨s, rfl, h⟩
  | cons command commands ih =>
    obtain ⟨t, ht, hpainted⟩ := h.paint (hcommands command mem_cons_self)
    obtain ⟨u, hu, hlast⟩ := ih hpainted fun c hc => hcommands c (mem_cons_of_mem command hc)
    exact ⟨u, by rw [foldlM_cons, ht]; exact hu, hlast⟩

theorem Painted.whole : s.Whole height 16 := ⟨h.height_eq, h.size, h.colour⟩

end

theorem painted_new (h : 0 < height) : Painted height (Stripe.new height .columns) where
  toSpread := Stripe.spread_new ⟨by decide, by decide⟩ _
  direction := rfl
  x := Nat.zero_le 8
  y := h

end Ega

/-! ### Masks -/

namespace Mask

def least (n : Int) : Nat := if Bits.test n 7 then 0 else n.toNat

/-- How many bytes belong to a count: the rows it counts, or the one it repeats. -/
def operands (n : Int) : Nat := if Bits.test n 7 then 1 else n.toNat

theorem reader : Reader parse (fun _ => True) least operands where
  nil := by rw [parse]
  short {n ops} h := by
    rw [least] at h
    split at h
    · cases h
    · rename_i hrun
      rw [parse.eq_def]
      simp only [if_neg hrun, if_neg (Nat.not_le.2 h)]
  last {n ops} h hops := by
    rw [least] at h
    rw [operands] at hops
    split at hops
    · rename_i hrun
      obtain rfl := eq_nil_of_length_eq_zero (Nat.lt_one_iff.1 hops)
      rw [parse.eq_def]
      simp only [if_pos hrun]
      exact ⟨_, rfl, fun _ _ => trivial⟩
    · rename_i hrun
      rw [if_neg hrun] at h
      exact absurd hops (Nat.not_lt.2 h)
  whole {n ops} h := by
    rw [operands] at h
    split at h
    · rename_i hrun
      obtain ⟨row, rfl⟩ := length_eq_one_iff.1 h
      refine ⟨List.replicate (n % 128).toNat row, fun _ _ => trivial, fun rest => ?_⟩
      rw [singleton_append, parse.eq_def]
      simp only [if_pos hrun]
      cases parse rest <;> rfl
    · rename_i hrun
      refine ⟨ops, fun _ _ => trivial, fun rest => ?_⟩
      rw [parse.eq_def]
      simp only [if_neg hrun, length_append, ← h, Nat.le_add_right, take_left', drop_left']
      cases parse rest <;> rfl

theorem spread_writeByte {height : Nat} {s : Stripe} (h : s.Spread height fun c => 0 ≤ c ∧ c < (2 : Nat)) (row : Int) :
    (s.writeByte row).Spread height fun c => 0 ≤ c ∧ c < (2 : Nat) := by
  have hbits : ∀ c ∈ (Bits.ofInt 8 row).reverse.map fun b => (Bits.toNat b : Int), 0 ≤ c ∧ c < 2 := by
    intro c hc
    obtain ⟨b, -, rfl⟩ := mem_map.1 hc
    have := Bits.toNat_lt b
    omega
  have hwritten := h.foldl_write hbits
  rwa [foldl_map] at hwritten

end Mask

/-- Any data of sixteen colours or of a mask give a whole stripe, unless they end inside a command. -/
theorem decode_damaged {height : Nat} (hheight : 0 < height) (data : List Int) :
    Decodes (Ega.decode height data) height 16 (Truncated Ega.operands Ega.operands data) ∧
    Decodes (Mask.decode height data) height 2 (Truncated Mask.least Mask.operands data) := by
  refine ⟨Ega.reader.decodes fun commands hcommands => ?_, Mask.reader.decodes fun rows _ => ?_⟩
  · obtain ⟨s, hs, hpainted⟩ := (Ega.painted_new hheight).foldlM hcommands
    exact ⟨s, hs, hpainted.whole⟩
  · have hspread : (rows.foldl Stripe.writeByte (.new height .rows)).Spread height fun c => 0 ≤ c ∧ c < (2 : Nat) := by
      have hnew : (Stripe.new height .rows).Spread height fun c => 0 ≤ c ∧ c < (2 : Nat) :=
        Stripe.spread_new (by decide) _
      exact foldlRecOn rows _ hnew fun s hs row _ => Mask.spread_writeByte hs row
    obtain ⟨hsame, hsize, hcolour⟩ := hspread.writeMany (c := 0) (by decide) _
    exact ⟨_, rfl, hsame, hsize, hcolour⟩

/-- An alternation whose count is missing, which is a run of rows with none to repeat. -/
theorem decode_damaged_alternation : 0 < 2 ∧
    Decodes (Ega.decode (2 : Nat) [0xc0, 0x12]) 2 16 (Truncated Ega.operands Ega.operands [0xc0, 0x12]) ∧
    Decodes (Mask.decode (2 : Nat) [0xc0, 0x12]) 2 2 (Truncated Mask.least Mask.operands [0xc0, 0x12]) :=
  ⟨by decide, decode_damaged (by decide) _⟩

/-! ### 256 colours -/

namespace Vga

/-- The colours that bits turn to, one after the other. -/
def turns (key : Key) (mode : Mode) (bits : List Bool) (colour step : Int) : List Int :=
  match bits with
  | [] => []
  | b :: rest =>
    match mode with
    | .write => turns key (if b then .command else .write) rest colour step
    | .command => turns key (if b then .shift else .colour) rest colour step
    | .colour =>
      let colour : Int := Bits.value ((b :: rest).take key.colourBits)
      colour :: turns key .write ((b :: rest).drop key.colourBits) colour (-1)
    | .shift =>
      if key.stepped then
        let step' : Int := (Bits.value ((b :: rest).take 3) : Int) - 4
        if step' = 0 then turns key .count (rest.drop 2) colour step
        else (colour + step') :: turns key .write (rest.drop 2) (colour + step') step'
      else
        let step := if b then -step else step
        (colour + step) :: turns key .write rest (colour + step) step
    | .count => turns key .write (rest.drop 7) colour step
termination_by (bits.length, mode.rank)
decreasing_by
  all_goals simp_wf
  all_goals simp only [Prod.lex_def, Mode.rank]
  all_goals grind

variable {height : Nat} {P : Int → Prop} {s : Stripe} {colour step : Int}

theorem spread_paint (key : Key) (mode : Mode) (bits : List Bool) (h : s.Spread height P) (hcolour : P colour)
    (hturns : ∀ c ∈ turns key mode bits colour step, P c) : (paint key mode bits colour step s).Spread height P := by
  -- a turn is the head of the rest of the turns, and is written at once
  fun_induction paint key mode bits colour step s with
  | case1 => exact h
  | case2 c step s rest ih =>
    rw [turns] at hturns
    exact ih h hcolour hturns
  | case3 c step s b rest hb ih =>
    rw [turns, if_neg hb] at hturns
    exact ih (h.write hcolour) hcolour hturns
  | case4 c step s b rest ih =>
    rw [turns] at hturns
    exact ih h hcolour hturns
  | case5 _ step s b rest c ih =>
    rw [turns, forall_mem_cons] at hturns
    exact ih (h.write hturns.1) hturns.1 hturns.2
  | case6 c step s b rest hstepped _ hzero ih =>
    rw [turns, if_pos hstepped, if_pos hzero] at hturns
    exact ih h hcolour hturns
  | case7 c _ s b rest hstepped step hzero ih =>
    rw [turns, if_pos hstepped, if_neg hzero, forall_mem_cons] at hturns
    exact ih (h.write hturns.1) hturns.1 hturns.2
  | case8 c _ s b rest hstepped step ih =>
    rw [turns, if_neg hstepped, forall_mem_cons] at hturns
    exact ih (h.write hturns.1) hturns.1 hturns.2
  | case9 c step s b rest count ih =>
    rw [turns] at hturns
    exact ih (h.writeMany hcolour count) hcolour hturns

/-- The first colour of a stream and those it turns to. -/
def shadesOf (code colour : Int) (stream : List Int) : List Int :=
  colour :: turns (Key.ofCode code) .write (Bits.ofBytes stream) colour (-1)

/-- Data of any kind but the plain one give a whole stripe with the colours that they turn to, so if these are of the
palette, its pixels are. -/
theorem decode_turns (height : Nat) {code : Int} (hcode : code ≠ 1) (colour b : Int) (more : List Int) :
    ∃ s, decode height (code :: colour :: b :: more) = .ok s ∧
    (s.Spread height fun c => c ∈ 0 :: shadesOf code colour (b :: more)) ∧
    (AreBytes (shadesOf code colour (b :: more)) → s.Whole height 256) := by
  have hcolour : colour ∈ 0 :: shadesOf code colour (b :: more) := mem_cons_of_mem 0 mem_cons_self
  have hnew : (Stripe.new height (Key.ofCode code).direction).Spread height (· ∈ 0 :: shadesOf code colour (b :: more)) :=
    Stripe.spread_new mem_cons_self _
  have hspread := spread_paint (Key.ofCode code) .write (Bits.ofBytes (b :: more)) (hnew.write hcolour) hcolour fun c hc =>
    mem_cons_of_mem 0 (mem_cons_of_mem colour hc)
  refine ⟨_, by rw [decode, if_neg hcode], hspread, fun hbytes => ⟨hspread.height_eq, hspread.size, fun c hc => ?_⟩⟩
  rcases mem_cons.1 (hspread.colour c hc) with rfl | hc
  · decide
  · exact hbytes c hc

theorem decode_turns_ramp : ∃ s, decode (1 : Nat) [18, 7, 3, 0] = .ok s ∧
    (s.Spread 1 fun c => c ∈ 0 :: shadesOf 18 7 [3, 0]) ∧ (AreBytes (shadesOf 18 7 [3, 0]) → s.Whole 1 256) :=
  decode_turns 1 (by decide) 7 3 [0]

/-- A step down from the first colour leaves the palette. -/
theorem not_decode_whole : ¬ ∀ (height : Nat) (code colour b : Int) (more : List Int), 0 < height → code ≠ 1 →
    AreBytes (code :: colour :: b :: more) → ∃ s, decode height (code :: colour :: b :: more) = .ok s ∧ s.Whole height 256 := by
  intro h
  obtain ⟨s, hs, hwhole⟩ := h 1 18 0 3 [] Nat.one_pos (by decide) (.cons (by decide) (.cons (by decide) (.singleton (by decide))))
  have hdecode : decode (1 : Nat) [18, 0, 3] = .ok { Stripe.new 1 .columns with pixels := #[0, -1, -1, -1, -1, -1, -1, 0], x := 7 } := by
    have hbits : Bits.ofBytes [3] = [true, true, false, false, false, false, false, false] := by decide
    have hplain : ¬ (Key.ofCode 18).stepped = true := by decide
    simp only [decode, hbits, paint, hplain, ↓reduceIte]
    rfl
  obtain rfl := Except.ok.inj (hdecode.symm.trans hs)
  exact absurd (hwhole.colour (-1) (by decide)) (by decide)

end Vga

end ScummKit
