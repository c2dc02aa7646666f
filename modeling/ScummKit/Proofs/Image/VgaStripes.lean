import ScummKit.Image.Vga
import ScummKit.Proofs.Image.Cursor

/-!
# Stripes of 256 colours give their pixels back

The bits of a stripe are those of its runs and of its changes of colour. Each lemma on `paint` says
what one such group of bits writes, whatever follows it; put together along the colours of a stripe
they give all of them (`paint_bitsFrom`). In the first method the reader has to know the last step as
well as the writer does, in the second method neither looks at it.
-/

namespace ScummKit

open List

theorem Stripe.writeMany_eq_foldl (c : Int) (n : Nat) (s : Stripe) :
    Stripe.writeMany c n s = (List.replicate n c).foldl Stripe.write s := by
  induction n generalizing s with
  | zero => rfl
  | succ n ih => exact ih (s.write c)

namespace Vga

variable {cs : List Int}

/-! ### What groups of bits write -/

section Painting

variable {key : Key} {rest bits : List Bool} {c step : Int} {s : Stripe}

theorem paint_again : paint key .write (false :: rest) c step s = paint key .write rest c step (s.write c) := by
  rw [paint]
  rfl

theorem paint_command : paint key .write (true :: rest) c step s = paint key .command rest c step s := by
  rw [paint]
  rfl

theorem paint_run (n : Nat) : paint key .write (List.replicate n false ++ rest) c step s
    = paint key .write rest c step ((List.replicate n c).foldl Stripe.write s) := by
  induction n generalizing s with
  | zero => rfl
  | succ n ih =>
    rw [replicate_succ, cons_append, paint_again, ih]
    rfl

theorem paint_colour (hkey : key.colourBits = 8) (hbits : bits.length = 8) :
    paint key .write (true :: false :: bits ++ rest) c step s
    = paint key .write rest (Bits.value bits) (-1) (s.write (Bits.value bits)) := by
  obtain ⟨b, bits, rfl⟩ := exists_cons_of_length_eq_add_one hbits
  rw [cons_append, paint_command, cons_append, paint]
  show paint key .colour (b :: (bits ++ rest)) c step s = _
  rw [paint, hkey]
  have htake : (b :: (bits ++ rest)).take 8 = b :: bits := by
    rw [← hbits, ← cons_append, take_left]
  have hdrop : (b :: (bits ++ rest)).drop 8 = rest := by
    rw [← hbits, ← cons_append, drop_left]
  simp only [htake, hdrop]

theorem paint_step (hkey : key.stepped = false) (b : Bool) : paint key .write (true :: true :: b :: rest) c step s
    = paint key .write rest (c + if b then -step else step) (if b then -step else step)
    (s.write (c + if b then -step else step)) := by
  rw [paint_command, paint]
  show paint key .shift (b :: rest) c step s = _
  rw [paint, hkey]
  rfl

theorem paint_shift (hkey : key.stepped = true) (hbits : bits.length = 3)
    {d : Int} (hd : (Bits.value bits : Int) - 4 = d) (hzero : d ≠ 0) :
    paint key .write (true :: true :: bits ++ rest) c step s = paint key .write rest (c + d) d (s.write (c + d)) := by
  obtain ⟨b, bits, rfl⟩ := exists_cons_of_length_eq_add_one hbits
  have htwo : bits.length = 2 := Nat.succ.inj hbits
  rw [cons_append, paint_command, cons_append, paint]
  show paint key .shift (b :: (bits ++ rest)) c step s = _
  have htake : (b :: (bits ++ rest)).take 3 = b :: bits := by
    rw [← hbits, ← cons_append, take_left]
  have hdrop : (bits ++ rest).drop 2 = rest := by rw [← htwo, drop_left]
  rw [paint, if_pos hkey]
  simp only [htake, hdrop, hd, if_neg hzero]

theorem paint_count (hkey : key.stepped = true) (hbits : bits.length = 8) :
    paint key .write (true :: true :: (Bits.ofInt 3 4 ++ (bits ++ rest))) c step s
    = paint key .write rest c step ((List.replicate (Bits.value bits) c).foldl Stripe.write s) := by
  obtain ⟨b, bits, rfl⟩ := exists_cons_of_length_eq_add_one hbits
  have hseven : bits.length = 7 := Nat.succ.inj hbits
  rw [paint_command, paint]
  show paint key .shift (false :: ([false, true] ++ (b :: bits ++ rest))) c step s = _
  rw [paint, if_pos hkey]
  show paint key .count (b :: (bits ++ rest)) c step s = _
  have htake : (b :: (bits ++ rest)).take 8 = b :: bits := by
    rw [← hbits, ← cons_append, take_left]
  have hdrop : (bits ++ rest).drop 7 = rest := by rw [← hseven, drop_left]
  rw [paint]
  simp only [htake, hdrop, Stripe.writeMany_eq_foldl]

end Painting

/-! ### What the bits of a stripe write -/

/-- A key of the writer: colours have eight bits, and the reader's last step is the writer's in the
method that looks at it. -/
structure Agrees (stepped : Bool) (key : Key) (writer reader : Int) : Prop where
  colourBits : key.colourBits = 8
  method : key.stepped = stepped
  step : stepped = false → reader = writer
  unit : writer = 1 ∨ writer = -1

section Writing

variable {stepped : Bool} {key : Key} {rest : List Bool} {before colour writer reader : Int}
  {s : Stripe}

theorem value_count {n : Nat} (h : n < 32) : Bits.value (Bits.ofInt 5 n ++ [false, false, false]) = n := by
  have hzeros : Bits.ofInt 5 n ++ [false, false, false] = ((Bits.ofInt 5 n ++ [false]) ++ [false]) ++ [false] := by
    simp
  have hfive := Bits.value_ofInt (n := 5) (v := n) (by omega) (by exact_mod_cast h)
  rw [hzeros, Bits.value_concat, Bits.value_concat, Bits.value_concat]
  simp only [Bits.toNat, Bool.false_eq_true, if_false]
  omega

section

variable (h : Agrees stepped key writer reader)

include h

theorem paint_runBits (count : Nat) : paint key .write (runBits stepped count ++ rest) before reader s
    = paint key .write rest before reader ((List.replicate count before).foldl Stripe.write s) := by
  rw [runBits]
  by_cases hcounted : stepped ∧ 13 < count ∧ count < 32
  · have hlength : (Bits.ofInt 5 count ++ [false, false, false]).length = 8 := by
      rfl
    have hgroup : [true, true] ++ Bits.ofInt 3 4 ++ Bits.ofInt 5 count ++ [false, false, false] ++ rest
        = true :: true :: (Bits.ofInt 3 4 ++ ((Bits.ofInt 5 count ++ [false, false, false]) ++ rest)) := by
      simp only [append_assoc, cons_append, nil_append]
    rw [if_pos hcounted, hgroup, paint_count (h.method.trans hcounted.1) hlength, value_count hcounted.2.2]
  · rw [if_neg hcounted, paint_run]

theorem paint_plain (hcolour : 0 ≤ colour ∧ colour < 256) :
    paint key .write (true :: false :: Bits.ofInt 8 colour ++ rest) before reader s
    = paint key .write rest colour (-1) (s.write colour) := by
  rw [paint_colour h.colourBits (Bits.length_ofInt 8 colour), Bits.value_ofInt (n := 8) hcolour.1 hcolour.2]

theorem paint_changeBits (hcolour : 0 ≤ colour ∧ colour < 256) (hne : colour ≠ before) (rest : List Bool) (s : Stripe) :
    ∃ reader', Agrees stepped key (changeBits stepped before colour writer).2 reader' ∧
    paint key .write (true :: (changeBits stepped before colour writer).1 ++ rest) before reader s
    = paint key .write rest colour reader' (s.write colour) := by
  have hback : before + (colour - before) = colour := by omega
  cases stepped with
  | true =>
    by_cases hnear : -4 ≤ colour - before ∧ colour - before < 4
    · have hsmall : colour - before + 4 < Nat.pow 2 3 := by
        have height : Nat.pow 2 3 = 8 := rfl
        omega
      have hvalue : Bits.value (Bits.ofInt 3 (colour - before + 4)) - 4 = colour - before := by
        rw [Bits.value_ofInt (by omega) hsmall]
        omega
      simp only [changeBits, if_true, if_pos hnear]
      refine ⟨colour - before, ⟨h.colourBits, h.method, by simp, h.unit⟩, ?_⟩
      rw [paint_shift h.method (Bits.length_ofInt 3 _) hvalue (by omega), hback]
    · simp only [changeBits, if_neg hnear]
      exact ⟨-1, ⟨h.colourBits, h.method, by simp, .inr rfl⟩, paint_plain h hcolour⟩
  | false =>
    have hreader := h.step rfl
    have hunit := h.unit
    by_cases hnext : colour - before = 1 ∨ colour - before = -1
    · by_cases hsame : colour - before = writer
      · simp only [changeBits, if_pos hnext, if_pos hsame]
        refine ⟨writer, ⟨h.colourBits, h.method, fun _ => rfl, h.unit⟩, ?_⟩
        show paint key .write (true :: true :: false :: rest) before reader s = _
        rw [paint_step h.method, hreader, ← hsame]
        simp only [Bool.false_eq_true, if_false, hback]
      · have hturn : -writer = colour - before := by omega
        simp only [changeBits, if_pos hnext, if_neg hsame]
        refine ⟨colour - before, ⟨h.colourBits, h.method, fun _ => rfl, hnext⟩, ?_⟩
        show paint key .write (true :: true :: true :: rest) before reader s = _
        rw [paint_step h.method, hreader, hturn]
        simp only [if_true, hback]
    · simp only [changeBits, if_neg hnext]
      exact ⟨-1, ⟨h.colourBits, h.method, fun _ => rfl, .inr rfl⟩, paint_plain h hcolour⟩

theorem paint_bitsFrom (hcs : AreBytes cs) (count : Nat) (before : Int) (rest : List Bool) (s : Stripe) :
    ∃ c step, paint key .write (bitsFrom stepped before writer count cs ++ rest) before reader s
    = paint key .write rest c step ((List.replicate count before ++ cs).foldl Stripe.write s) := by
  induction cs generalizing before writer reader count s with
  | nil =>
    refine ⟨before, reader, ?_⟩
    rw [bitsFrom, paint_runBits h, append_nil]
  | cons colour cs ih =>
    have hcs' : AreBytes cs := fun b hb => hcs b (mem_cons_of_mem colour hb)
    by_cases hsame : colour = before
    · obtain ⟨c, step, hpaint⟩ := ih h hcs' (count + 1) before s
      refine ⟨c, step, ?_⟩
      rw [bitsFrom, if_pos hsame, hpaint, replicate_succ', append_assoc, hsame]
      rfl
    · obtain ⟨reader', hagrees, hchange⟩ := paint_changeBits h (hcs colour mem_cons_self) hsame
        (bitsFrom stepped colour (changeBits stepped before colour writer).2 0 cs ++ rest)
        ((List.replicate count before).foldl Stripe.write s)
      obtain ⟨c, step, hpaint⟩ := ih hagrees hcs' 0 colour (((List.replicate count before).foldl Stripe.write s).write colour)
      refine ⟨c, step, ?_⟩
      rw [bitsFrom, if_neg hsame]
      simp only [append_assoc]
      rw [paint_runBits h]
      refine Eq.trans ?_ (hchange.trans (hpaint.trans ?_))
      · simp only [cons_append]
      · simp only [replicate_zero, nil_append, foldl_append, foldl_cons]

end

end Writing

/-! ### Stripes -/

section Stripes

variable {stepped : Bool} {d : Direction} {height : Nat} {s : Stripe} (a b : List Int)

theorem keyCode_isByte (hd : d.Moving) : 0 ≤ keyCode stepped d ∧ keyCode stepped d < 256 := by
  rcases hd with rfl | rfl <;> cases stepped <;> decide

theorem ofCode_keyCode (hd : d.Moving) : Key.ofCode (keyCode stepped d) = ⟨d, 8, stepped⟩ := by
  rcases hd with rfl | rfl <;> cases stepped <;> decide

theorem keyCode_ne_one (hd : d.Moving) : keyCode stepped d ≠ 1 := by
  rcases hd with rfl | rfl <;> cases stepped <;> decide

theorem eq_cons_of_ofBytes {data : List Int} {b : Int} {bits : List Bool} (hdata : AreBytes data)
    (hb : 0 ≤ b ∧ b < 256) (h : Bits.ofBytes data = Bits.ofInt 8 b ++ bits) :
    ∃ rest, data = b :: rest ∧ AreBytes rest ∧ Bits.ofBytes rest = bits := by
  cases data with
  | nil =>
    have hlength := congrArg List.length h
    rw [length_append, Bits.length_ofInt] at hlength
    change 0 = _ at hlength
    omega
  | cons a rest =>
    obtain ⟨hhead, htail⟩ := append_inj h (by rw [Bits.length_ofInt, Bits.length_ofInt])
    have hab : a = b := Bits.ofInt_inj (n := 8) (hdata a mem_cons_self) hb hhead
    exact ⟨rest, by rw [hab], fun c hc => hdata c (mem_cons_of_mem a hc), htail⟩

theorem paint_zeros {key : Key} {t : Stripe} (h : t.Filled height d cs) (hd : d.Moving)
    (hfull : cs.length = height * 8) (c step : Int) (n : Nat) : paint key .write (List.replicate n false) c step t = t := by
  rw [← append_nil (List.replicate n false), paint_run, ← Stripe.writeMany_eq_foldl, h.writeMany_full hd hfull, paint]

theorem exists_stripeBytes (stepped : Bool) (hd : d.Moving) {first : Int} (hbytes : AreBytes (first :: cs)) :
    ∃ stream b more zeros, Bitstream.fresh.writeBits (stripeBits stepped d (first :: cs)) = .ok stream ∧
    AreBytes stream.data.toList ∧ stream.data.toList = keyCode stepped d :: first :: b :: more ∧
    Bits.ofBytes (b :: more) = bitsFrom stepped first (-1) 0 cs ++ List.replicate (zeros + 1) false := by
  obtain ⟨stream, zeros, -, hwrite, hdata, hbits⟩ :=
    Bitstream.writeBits_fresh (stripeBits stepped d (first :: cs))
  rw [stripeBits, append_assoc] at hbits
  obtain ⟨more, hcode, hmore, hbits⟩ := eq_cons_of_ofBytes hdata (keyCode_isByte hd) hbits
  obtain ⟨tail, rfl, -, hbits⟩ := eq_cons_of_ofBytes hmore (hbytes first mem_cons_self) hbits
  cases tail with
  | nil =>
    -- the zeros are not in any byte
    have hlength := congrArg List.length hbits
    rw [length_append, length_replicate] at hlength
    change 0 = _ at hlength
    omega
  | cons b rest => exact ⟨stream, b, rest, zeros, hwrite, hdata, hcode, hbits⟩

theorem encodeAs_restored (stepped : Bool) (h : s.Whole height 256) (hheight : 0 < height)
    (hd : d.Moving) : Stripe.Restored (encodeAs stepped d) decode s := by
  have hbytes : AreBytes (s.shown height d) := fun c hc => h.mem_shown hd hc
  have hlength : (s.shown height d).length = height * 8 := Stripe.length_shown
  have hfilled : Stripe.Filled height d ([] ++ s.shown height d) ((s.shown height d).foldl Stripe.write (Stripe.new height d)) :=
    Stripe.filled_new.foldl_write hd (by rw [length_nil]; omega)
  obtain ⟨first, cs, hcs⟩ := exists_cons_of_length_pos (show 0 < (s.shown height d).length by omega)
  obtain ⟨stream, b, more, zeros, hwrite, hdata, hstream, hbits⟩ :=
    exists_stripeBytes stepped hd (hcs ▸ hbytes)
  have hagrees : Agrees stepped ⟨d, 8, stepped⟩ (-1) (-1) := ⟨rfl, rfl, fun _ => rfl, .inr rfl⟩
  obtain ⟨c, step, hpaint⟩ := paint_bitsFrom hagrees (fun b hb => hbytes b (hcs ▸ mem_cons_of_mem first hb)) 0 first
    (List.replicate (zeros + 1) false) ((Stripe.new height d).write first)
  rw [replicate_zero, nil_append, ← foldl_cons, ← hcs] at hpaint
  refine ⟨stream.data.toList, (s.shown height d).foldl Stripe.write (Stripe.new height d), ?_, hdata, ?_, hfilled.pixels_eq h hd⟩
  · rw [encodeAs, h.colours hd hheight]
    simp only [Bind.bind, Except.bind, hcs ▸ hwrite]
    rfl
  · rw [hstream, h.height_eq, decode, if_neg (keyCode_ne_one hd), ofCode_keyCode hd, hbits, hpaint,
      paint_zeros hfilled hd hlength]

theorem mem_shorter : shorter a b ∈ [a, b] := by
  rw [shorter]
  split <;> simp

theorem length_shorter : (shorter a b).length = min a.length b.length := by
  rw [shorter]
  split <;> omega

/-- The writer tries three ways and takes the shortest. -/
theorem exists_shortest (h : s.Whole height 256) (hheight : 0 < height) :
    ∃ a b c data, encodeAs true .rows s = .ok a ∧ encodeAs false .columns s = .ok b ∧
    encodeAs false .rows s = .ok c ∧ encode s = .ok data ∧ data ∈ [a, b, c] ∧ ∀ e ∈ [a, b, c], data.length ≤ e.length := by
  obtain ⟨a, -, ha, -⟩ := encodeAs_restored true h hheight (.inl rfl)
  obtain ⟨b, -, hb, -⟩ := encodeAs_restored false h hheight (.inr rfl)
  obtain ⟨c, -, hc, -⟩ := encodeAs_restored false h hheight (.inl rfl)
  refine ⟨a, b, c, shorter (shorter a b) c, ha, hb, hc, by rw [encode, ha, hb, hc]; rfl, ?_, ?_⟩
  · have hab := mem_shorter a b
    have hall := mem_shorter (shorter a b) c
    simp only [mem_cons, not_mem_nil, or_false] at hab hall ⊢
    rcases hall with hall | hall
    · rw [hall]
      exact hab.imp_right .inl
    · exact .inr (.inr hall)
  · simp only [forall_mem_cons, length_shorter]
    exact ⟨by omega, by omega, by omega, nofun⟩

theorem restored (h : s.Whole height 256) (hheight : 0 < height) : Stripe.Restored encode decode s := by
  obtain ⟨a, b, c, data, ha, hb, hc, hencode, hmem, -⟩ := exists_shortest h hheight
  have hrest {stepped d} (hd : d.Moving) (hdata : encodeAs stepped d s = .ok data) :
      Stripe.Restored encode decode s := by
    obtain ⟨data', t, hdata', hbytes, hdecode, hpixels⟩ := encodeAs_restored stepped h hheight hd
    obtain rfl := Except.ok.inj (hdata.symm.trans hdata')
    exact ⟨data, t, hencode, hbytes, hdecode, hpixels⟩
  simp only [mem_cons, not_mem_nil, or_false] at hmem
  rcases hmem with rfl | rfl | rfl
  · exact hrest (.inl rfl) ha
  · exact hrest (.inr rfl) hb
  · exact hrest (.inl rfl) hc

/-- A stripe of 256 colours comes back from each of the four ways of writing it, by either method and in
either direction, and so from the shortest of the three that are tried. -/
theorem shortest_restored (h : s.Whole height 256) (hheight : 0 < height) :
    (∀ stepped d, d.Moving → Stripe.Restored (encodeAs stepped d) decode s) ∧ Stripe.Restored encode decode s ∧
    ∃ a b c data, encodeAs true .rows s = .ok a ∧ encodeAs false .columns s = .ok b ∧
    encodeAs false .rows s = .ok c ∧ encode s = .ok data ∧ data ∈ [a, b, c] ∧ ∀ e ∈ [a, b, c], data.length ≤ e.length :=
  ⟨fun stepped _ hd => encodeAs_restored stepped h hheight hd, restored h hheight, exists_shortest h hheight⟩

/-- Colours one step apart, far apart, and a run long enough to be counted. -/
def ramp : Stripe := Stripe.ofPixels 3 ([10, 11, 12, 11, 10, 200] ++ List.replicate 18 7)

theorem shortest_restored_ramp : (∀ stepped d, d.Moving → Stripe.Restored (encodeAs stepped d) decode ramp) ∧
    Stripe.Restored encode decode ramp ∧ ∃ a b c data, encodeAs true .rows ramp = .ok a ∧ encodeAs false .columns ramp = .ok b ∧
    encodeAs false .rows ramp = .ok c ∧ encode ramp = .ok data ∧ data ∈ [a, b, c] ∧
    ∀ e ∈ [a, b, c], data.length ≤ e.length := shortest_restored ⟨rfl, rfl, by decide⟩ (by decide : 0 < 3)

end Stripes

end Vga

end ScummKit
