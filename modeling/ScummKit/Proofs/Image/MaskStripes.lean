import ScummKit.Image.Mask
import ScummKit.Proofs.Image.Cursor

/-!
# Stripes of masks give their pixels back

The writer of a mask holds rows back until it knows whether they repeat. `Spells` says which rows some
data stand for, whatever follows them, and `Holding` is what the writer keeps to: the data written so
far are packets that stand for all rows but those held back. No packet counts more than 127 rows, and
together they count the rows of the stripe (`packets_restored`).
-/

namespace ScummKit.Mask

open List

variable {pixels : List Int}
variable {n : Nat} {kind kind' : Kind}

/-! ### Rows -/

/-- Some data stand for these rows, whatever comes behind them. -/
def Spells (data rows : List Int) : Prop :=
  ∀ after more, parse after = .ok more → parse (data ++ after) = .ok (rows ++ more)

/-- A stretch of rows as it is written: one row that repeats, or rows one by one. -/
inductive Packet where
  | run (count : Nat) (row : Int)
  | literal (rows : List Int)

namespace Packet

def rows : Packet → List Int
  | run count row => List.replicate count row
  | literal rows => rows

def count (q : Packet) : Nat := q.rows.length

def data : Packet → List Int
  | run count row => [((count + 128 : Nat) : Int), row]
  | literal rows => (rows.length : Int) :: rows

end Packet

variable {packets : List Packet} {q : Packet}

section Spelling

variable {data more rows : List Int} {row : Int}

theorem spells_packets (h : ∀ q ∈ packets, Spells q.data q.rows) :
    Spells (packets.flatMap Packet.data) (packets.flatMap Packet.rows) := by
  induction packets with
  | nil => exact fun _ _ h => h
  | cons q packets ih =>
    intro after more hmore
    rw [flatMap_cons, flatMap_cons, append_assoc, append_assoc]
    exact h q mem_cons_self _ _ (ih (fun r hr => h r (mem_cons_of_mem q hr)) _ _ hmore)

theorem Spells.parse (h : Spells data rows) : parse data = .ok rows := by
  have hend : Mask.parse [] = .ok [] := by rw [Mask.parse]
  have hall := h _ _ hend
  rwa [append_nil, append_nil] at hall

theorem or_top (h : n < 128) : Bits.or n 0x80 = ((n + 128 : Nat) : Int) := Bits.or_shift_right (i := 7) 1 h

theorem runBytes_replicate (h : n < 128) (hpos : 0 < n) : runBytes (List.replicate n row) = (Packet.run n row).data := by
  rw [runBytes, length_replicate, or_top h, take_replicate, Nat.min_eq_left hpos]
  rfl

theorem spells_packet (h : q.count ≤ 0x7f) : Spells q.data q.rows := by
  intro after more hmore
  have hpow : Nat.pow 2 7 = 128 := rfl
  cases q with
  | run n row =>
    rw [Packet.count, Packet.rows, length_replicate] at h
    have htest : Bits.test (n + 128 : Nat) 7 = true := by
      simp only [Bits.test, hpow, decide_eq_true_eq]
      omega
    have hcount : (((n + 128 : Nat) : Int) % 128).toNat = n := by omega
    rw [Packet.data, cons_append, singleton_append, Mask.parse, if_pos htest, hcount]
    simp only [hmore]
    rfl
  | literal rows =>
    have hlength : rows.length ≤ 0x7f := h
    have htest : ¬Bits.test (rows.length) 7 = true := by
      simp only [Bits.test, hpow, decide_eq_true_eq]
      omega
    have hcount : rows.length ≤ (rows ++ after).length := by
      rw [length_append]
      omega
    rw [Packet.data, cons_append, Mask.parse, if_neg htest]
    simp only [Int.toNat_natCast, if_pos hcount, take_left, drop_left, hmore]
    rfl

end Spelling

/-! ### The writer -/

/-- What rows may be held back in each way of writing them. -/
def Kind.Holds : Kind → List Int → Prop
  | .undecided, buffer => buffer.length ≤ 1
  | .repeating, buffer => ∃ n row, buffer = List.replicate n row ∧ 0 < n ∧ n < 128
  | .literal, buffer => 1 < buffer.length ∧ buffer.length < 128

/-- The data written so far stand for the rows before those held back. -/
structure Holding (rows : List Int) (p : Pending) : Prop where
  parted : ∃ packets : List Packet, rows = packets.flatMap Packet.rows ++ p.buffer ∧
    p.out = packets.flatMap Packet.data ∧ ∀ q ∈ packets, q.count ≤ 0x7f
  out : AreBytes p.out
  buffer : AreBytes p.buffer
  holds : p.kind.Holds p.buffer

section Writing

variable {rows out buffer : List Int} {row : Int}
variable {p : Pending}

theorem areBytes_run (h : n < 128) (hpos : 0 < n) (hbuffer : AreBytes (List.replicate n row)) :
    AreBytes (Packet.run n row).data := .cons (by omega) (.singleton (hbuffer row (mem_replicate.2 ⟨by omega, rfl⟩)))

theorem areBytes_literal (h : buffer.length < 128) (hbuffer : AreBytes buffer) :
    AreBytes (Packet.literal buffer).data := .cons (by omega) hbuffer

theorem Holding.hold (h : Holding rows ⟨out, buffer, kind⟩)
    (hrow : 0 ≤ row ∧ row < 256) (hholds : kind'.Holds (buffer ++ [row])) :
    Holding (rows ++ [row]) ⟨out, buffer ++ [row], kind'⟩ := by
  obtain ⟨packets, hrows, hout⟩ := h.parted
  refine ⟨⟨packets, ?_, hout⟩, h.out, h.buffer.append (.singleton hrow), hholds⟩
  rw [hrows, append_assoc]

theorem Holding.write {keep : List Int}
    (h : Holding rows ⟨out, buffer, kind⟩) (hq : q.count ≤ 0x7f) (hdata : AreBytes q.data)
    (hkeep : AreBytes keep) (hholds : kind'.Holds keep) (hall : buffer ++ [row] = q.rows ++ keep) :
    Holding (rows ++ [row]) ⟨out ++ q.data, keep, kind'⟩ := by
  obtain ⟨packets, hrows, hout, hcounts⟩ := h.parted
  refine ⟨⟨packets ++ [q], ?_, ?_, ?_⟩, h.out.append hdata, hkeep, hholds⟩
  · rw [hrows, append_assoc, hall, flatMap_append, flatMap_singleton, append_assoc]
  · rw [flatMap_append, flatMap_singleton, ← hout]
  · rw [forall_mem_append, forall_mem_singleton]
    exact ⟨hcounts, hq⟩

section

variable (hrow : 0 ≤ row ∧ row < 256)

include hrow

theorem Holding.step_undecided (h : Holding rows ⟨out, buffer, .undecided⟩) : Holding (rows ++ [row])
    (step ⟨out, buffer, .undecided⟩ row) := by
  have hlength : buffer.length ≤ 1 := h.holds
  apply h.hold hrow
  by_cases hone : buffer.length = 1
  · obtain ⟨first, rfl⟩ := length_eq_one_iff.1 hone
    simp only [head?_cons, Option.some.injEq]
    by_cases hsame : first = row
    · rw [if_pos hsame, hsame]
      exact ⟨2, row, rfl, by decide, by decide⟩
    · rw [if_neg hsame]
      exact ⟨by simp, by simp⟩
  · rw [if_neg hone]
    show (buffer ++ [row]).length ≤ 1
    rw [length_append, length_singleton]
    omega

theorem Holding.step_repeating (h : Holding rows ⟨out, buffer, .repeating⟩) : Holding (rows ++ [row])
    (step ⟨out, buffer, .repeating⟩ row) := by
  obtain ⟨n, first, hbuffer, hpos, hlt⟩ : ∃ n first, buffer = List.replicate n first ∧ 0 < n ∧ n < 128 :=
    h.holds
  have hhead : buffer.head? = some first := by rw [hbuffer, head?_replicate, if_neg (by omega)]
  have hlength : buffer.length = n := by rw [hbuffer, length_replicate]
  by_cases hend : buffer.head? ≠ some row ∨ buffer.length = 0x7f
  · have hcount : (Packet.run n first).count ≤ 0x7f := by
      rw [Packet.count, Packet.rows, length_replicate]
      omega
    have hrun : runBytes buffer = (Packet.run n first).data := hbuffer ▸ runBytes_replicate hlt hpos
    rw [step, if_pos hend, hrun]
    exact h.write hcount (areBytes_run hlt hpos (hbuffer ▸ h.buffer)) (.singleton hrow) (Nat.le_refl 1)
      (congrArg (· ++ [row]) hbuffer)
  · rw [step, if_neg hend]
    have hsame : first = row := by
      apply Option.some.inj
      rw [← hhead]
      exact Decidable.byContradiction fun hne => hend (.inl hne)
    refine h.hold hrow ⟨n + 1, first, ?_, by omega, by omega⟩
    rw [hbuffer, hsame, replicate_succ']

theorem Holding.step_literal (h : Holding rows ⟨out, buffer, .literal⟩) : Holding (rows ++ [row])
    (step ⟨out, buffer, .literal⟩ row) := by
  obtain ⟨hmany, hlt⟩ : 1 < buffer.length ∧ buffer.length < 128 := h.holds
  by_cases hlast : buffer.getLast? = some row
  · -- the last row begins a run, so it is not written with the rows before it
    have hlength : buffer.dropLast.length < 128 := by
      rw [length_dropLast]
      omega
    have hinit : AreBytes buffer.dropLast := fun b hb => h.buffer b (dropLast_subset buffer hb)
    have hpair : Kind.repeating.Holds [row, row] := ⟨2, row, rfl, by decide, by decide⟩
    rw [step, if_pos hlast]
    apply h.write (q := .literal buffer.dropLast) (Nat.le_of_lt_succ hlength)
      (areBytes_literal hlength hinit) (.cons hrow (.singleton hrow)) hpair
    obtain ⟨init, rfl⟩ := getLast?_eq_some_iff.1 hlast
    rw [dropLast_concat, append_assoc]
    rfl
  · rw [step, if_neg hlast]
    by_cases hfull : buffer.length = 0x7f
    · rw [if_pos hfull]
      exact h.write (q := .literal buffer) (Nat.le_of_lt_succ hlt) (areBytes_literal hlt h.buffer)
        (.singleton hrow) (Nat.le_refl 1) rfl
    · rw [if_neg hfull]
      apply h.hold hrow
      show 1 < (buffer ++ [row]).length ∧ (buffer ++ [row]).length < 128
      rw [length_append, length_singleton]
      omega

theorem Holding.next (h : Holding rows p) : Holding (rows ++ [row]) (step p row) := by
  obtain ⟨out, buffer, kind⟩ := p
  cases kind with
  | undecided => exact h.step_undecided hrow
  | repeating => exact h.step_repeating hrow
  | literal => exact h.step_literal hrow

end

theorem Holding.foldl (h : Holding rows p) {more : List Int} (hmore : AreBytes more) :
    Holding (rows ++ more) (more.foldl step p) := by
  induction more generalizing rows p with
  | nil => rwa [append_nil]
  | cons row more ih =>
    have hnext := h.next (hmore row mem_cons_self)
    have hrest := ih hnext fun b hb => hmore b (mem_cons_of_mem row hb)
    rwa [append_assoc] at hrest

/-- What is still held back at the end is one packet more. -/
theorem Holding.last (h : Holding rows p) (hp : rows.foldl step ⟨[], [], .undecided⟩ = p) :
    ∃ q : Packet, q.count ≤ 0x7f ∧ AreBytes q.data ∧ q.rows = p.buffer ∧ rowData rows = p.out ++ q.data := by
  rw [rowData, hp]
  obtain ⟨out, buffer, kind⟩ := p
  obtain ⟨-, -, hbuffer, hholds⟩ := h
  cases kind with
  | undecided =>
    have hlength : buffer.length < 128 := Nat.lt_of_le_of_lt hholds (by decide)
    exact ⟨.literal buffer, Nat.le_of_lt_succ hlength, areBytes_literal hlength hbuffer, rfl, rfl⟩
  | literal =>
    have hlength : buffer.length < 128 := hholds.2
    exact ⟨.literal buffer, Nat.le_of_lt_succ hlength, areBytes_literal hlength hbuffer, rfl, rfl⟩
  | repeating =>
    obtain ⟨n, row, rfl, hpos, hlt⟩ : ∃ n row, buffer = List.replicate n row ∧ 0 < n ∧ n < 128 := hholds
    refine ⟨.run n row, ?_, areBytes_run hlt hpos hbuffer, rfl, ?_⟩
    · rw [Packet.count, Packet.rows, length_replicate]
      omega
    · rw [← runBytes_replicate hlt hpos]

theorem rowData_eq (hrows : AreBytes rows) :
    ∃ packets : List Packet, rowData rows = packets.flatMap Packet.data ∧ AreBytes (rowData rows) ∧
    packets.flatMap Packet.rows = rows ∧ ∀ q ∈ packets, q.count ≤ 0x7f := by
  have hstart : Holding [] ⟨[], [], .undecided⟩ := ⟨⟨[], rfl, rfl, nofun⟩, .nil, .nil, Nat.zero_le 1⟩
  have hend := hstart.foldl hrows
  rw [nil_append] at hend
  obtain ⟨packets, hparted, hout, hcounts⟩ := hend.parted
  obtain ⟨q, hq, hdata, hlast, heq⟩ := hend.last rfl
  rw [heq]
  refine ⟨packets ++ [q], ?_, hend.out.append hdata, ?_, ?_⟩
  · rw [flatMap_append, flatMap_singleton, ← hout]
  · rw [flatMap_append, flatMap_singleton, hlast, ← hparted]
  · rw [forall_mem_append, forall_mem_singleton]
    exact ⟨hcounts, hq⟩

end Writing

/-! ### Pixels -/

def rowBits (row : Int) : List Int := (Bits.ofInt 8 row).reverse.map fun b => (Bits.toNat b : Int)

theorem rowOf_ofBits (bits : List Bool) : rowOf (bits.reverse.map fun b => (Bits.toNat b : Int)) = Bits.value bits := by
  induction bits with
  | nil => rfl
  | cons b bits ih =>
    have hlt : Bits.toNat b < Nat.pow 2 1 := Bits.toNat_lt b
    rw [reverse_cons, map_append, map_singleton, rowOf, foldl_append, ← rowOf, foldl_cons, foldl_nil, ih, Bits.or_shift _ hlt, Bits.value, Nat.add_comm, Nat.mul_comm 2]

section

variable (h : ∀ c ∈ pixels, 0 ≤ c ∧ c < 2)

include h

theorem exists_rowOf : ∃ bits, pixels = bits.reverse.map (fun b => (Bits.toNat b : Int)) ∧ bits.length = pixels.length ∧
    rowOf pixels = Bits.value bits := by
  have hpixels : pixels = ((pixels.map fun c => decide (c = 1)).reverse.reverse).map fun b => (Bits.toNat b : Int) := by
    have hsame : ∀ c ∈ pixels, Bits.toNat (decide (c = 1)) = id c := by
      intro c hc
      have hbounds := h c hc
      rcases (by omega : c = 0 ∨ c = 1) with rfl | rfl <;> rfl
    rw [reverse_reverse, map_map]
    exact ((map_congr_left hsame).trans (map_id pixels)).symm
  refine ⟨_, hpixels, by rw [length_reverse, length_map], ?_⟩
  rw [← rowOf_ofBits, ← hpixels]

theorem rowBits_rowOf (hlength : pixels.length = 8) : rowBits (rowOf pixels) = pixels := by
  obtain ⟨bits, hpixels, hbits, hrow⟩ := exists_rowOf h
  rw [rowBits, hrow, Bits.ofInt_value (by omega), hbits, hlength, replicate_zero, append_nil, ← hpixels]

theorem rowOf_isByte (hlength : pixels.length = 8) : 0 ≤ rowOf pixels ∧ rowOf pixels < 256 := by
  obtain ⟨bits, -, hbits, hrow⟩ := exists_rowOf h
  have hlt := Bitstream.value_lt_byte bits (by omega)
  omega

end

theorem foldl_writeByte (rows : List Int) (s : Stripe) :
    rows.foldl Stripe.writeByte s = (rows.flatMap rowBits).foldl Stripe.write s := by
  have hrow : ∀ (s : Stripe) (row : Int), s.writeByte row = (rowBits row).foldl Stripe.write s := by
    intro s row
    rw [Stripe.writeByte, rowBits, foldl_map]
  rw [foldl_flatMap, funext fun s => funext (hrow s)]

def rowsOf (height : Nat) (s : Stripe) : List (List Int) :=
  (List.range height).map fun y => (List.range 8).map fun x => s.pixels[y * 8 + x]?.getD 0

section Stripes

variable {height : Nat} {s : Stripe}

theorem flatten_rowsOf : (rowsOf height s).flatten = s.shown height .rows := by
  have hflat := Stripe.flatMap_range (f := fun y x => s.pixels[y * 8 + x]?.getD 0) height (show 0 < 8 by decide)
  rw [rowsOf, ← flatMap_def, hflat]
  rfl

section

variable (h : s.Whole height 2)

include h

theorem mem_rowsOf {row : List Int} (hrow : row ∈ rowsOf height s) : row.length = 8 ∧ ∀ c ∈ row, 0 ≤ c ∧ c < 2 := by
  constructor
  · obtain ⟨y, -, rfl⟩ := mem_map.1 hrow
    rw [length_map, length_range]
  · intro c hc
    apply h.mem_shown (.inl rfl)
    rw [← flatten_rowsOf]
    exact mem_flatten.2 ⟨row, hrow, hc⟩

theorem encode_eq : encode s = .ok (rowData ((rowsOf height s).map rowOf)) := by
  have hrows : ∀ y ∈ List.range height, ((List.range 8).mapM fun (x : Nat) => s.colourAt x y)
        = .ok ((List.range 8).map fun x => s.pixels[y * 8 + x]?.getD 0) := by
    intro y hy
    apply mapM_ok
    intro x hx
    have hy := mem_range.1 hy
    have hx := mem_range.1 hx
    have hin : y * 8 + x < s.pixels.size := by
      rw [h.size]
      omega
    have hpixel := Stripe.pixel_of_getElem? (Array.getElem?_eq_getElem hin)
    rw [Array.getElem?_eq_getElem hin]
    exact hpixel
  rw [encode, h.height_eq, Int.toNat_natCast, mapM_ok hrows]
  rfl

theorem exists_packets : ∃ packets : List Packet, encode s = .ok (packets.flatMap Packet.data) ∧
    AreBytes (packets.flatMap Packet.data) ∧ (∀ q ∈ packets, q.count ≤ 0x7f) ∧
    packets.flatMap Packet.rows = (rowsOf height s).map rowOf := by
  have hbytes : AreBytes ((rowsOf height s).map rowOf) := by
    intro b hb
    obtain ⟨row, hrow, rfl⟩ := mem_map.1 hb
    obtain ⟨hlength, hcolours⟩ := mem_rowsOf h hrow
    exact rowOf_isByte hcolours hlength
  obtain ⟨packets, hdata, hall, hrows, hcounts⟩ := rowData_eq hbytes
  exact ⟨packets, by rw [encode_eq h, hdata], hdata ▸ hall, hcounts, hrows⟩

theorem decode_packets (hcounts : ∀ q ∈ packets, q.count ≤ 0x7f)
    (hrows : packets.flatMap Packet.rows = (rowsOf height s).map rowOf) :
    ∃ t, decode height (packets.flatMap Packet.data) = .ok t ∧ t.pixels = s.pixels := by
  have hparse := (spells_packets fun q hq => spells_packet (hcounts q hq)).parse
  have hpixels : ((rowsOf height s).map rowOf).flatMap rowBits = s.shown height .rows := by
    have hsame : ∀ row ∈ rowsOf height s, rowBits (rowOf row) = id row := by
      intro row hrow
      obtain ⟨hlength, hcolours⟩ := mem_rowsOf h hrow
      exact rowBits_rowOf hcolours hlength
    rw [← flatten_rowsOf, flatMap_map, flatMap_def, map_congr_left hsame, map_id]
  have hfilled : Stripe.Filled height .rows ([] ++ s.shown height .rows)
      ((s.shown height .rows).foldl Stripe.write (Stripe.new height .rows)) :=
    Stripe.filled_new.foldl_write (.inl rfl) (Nat.le_of_eq (by rw [Stripe.length_shown, length_nil, Nat.zero_add]))
  refine ⟨_, ?_, hfilled.pixels_eq h (.inl rfl)⟩
  rw [decode, hparse, hrows]
  show Except.ok (Stripe.writeMany _ _ _) = _
  rw [foldl_writeByte, hpixels]
  rcases Nat.eq_zero_or_pos height with rfl | hheight
  · rfl
  · rw [hfilled.writeMany_full (.inl rfl) Stripe.length_shown]

theorem restored : Stripe.Restored encode decode s := by
  obtain ⟨packets, hencode, hbytes, hcounts, hrows⟩ := exists_packets h
  obtain ⟨t, hdecode, hpixels⟩ := decode_packets h hcounts hrows
  exact ⟨_, t, hencode, hbytes, h.height_eq ▸ hdecode, hpixels⟩

end

/-- The data of a mask are packets of at most 127 rows each, which count the rows of the stripe and
give its pixels back. -/
theorem packets_restored (h : s.Whole height 2) :
    ∃ (packets : List Packet) (t : Stripe), encode s = .ok (packets.flatMap Packet.data) ∧
    AreBytes (packets.flatMap Packet.data) ∧ (∀ q ∈ packets, q.count ≤ 0x7f) ∧ (packets.map Packet.count).sum = height ∧
    decode height (packets.flatMap Packet.data) = .ok t ∧ t.pixels = s.pixels := by
  obtain ⟨packets, hencode, hbytes, hcounts, hrows⟩ := exists_packets h
  obtain ⟨t, hdecode, hpixels⟩ := decode_packets h hcounts hrows
  refine ⟨packets, t, hencode, hbytes, hcounts, ?_, hdecode, hpixels⟩
  calc (packets.map Packet.count).sum = (packets.flatMap Packet.rows).length := length_flatMap.symm
    _ = height := by rw [hrows, length_map, rowsOf, length_map, length_range]

/-- A mask of three rows, of which the last two are the same. -/
def steps : Stripe := Stripe.ofPixels 3 ([1, 0, 0, 0, 0, 0, 0, 0] ++ (List.replicate 2 [0, 1, 1, 1, 1, 1, 1, 1]).flatten)

theorem packets_restored_steps : ∃ (packets : List Packet) (t : Stripe), encode steps = .ok (packets.flatMap Packet.data) ∧
    AreBytes (packets.flatMap Packet.data) ∧ (∀ q ∈ packets, q.count ≤ 0x7f) ∧ (packets.map Packet.count).sum = 3 ∧
    decode 3 (packets.flatMap Packet.data) = .ok t ∧ t.pixels = steps.pixels := packets_restored ⟨rfl, rfl, by decide⟩

end Stripes

end ScummKit.Mask
