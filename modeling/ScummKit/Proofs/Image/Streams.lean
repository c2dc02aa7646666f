import Mathlib.Algebra.GroupWithZero.Nat
import ScummKit.Image.Bitstream

/-!
# Bits and what is written with them

The low bits of a number give the number back, and laying a bit over a number that has none there adds
it. So a stream that bits have been written to holds these bits, with zeros up to the end of its last
byte (`Bitstream.writeBits_fresh`), and numbers come out as they went in.
-/

namespace ScummKit

open List
variable (bits : List Bool) {n i b : Nat} (a : Nat)

def AreBytes (data : List Int) : Prop := ∀ b ∈ data, 0 ≤ b ∧ b < 256

theorem AreBytes.nil : AreBytes [] := by
  intro b hb
  cases hb

theorem AreBytes.append {a b : List Int} (ha : AreBytes a) (hb : AreBytes b) : AreBytes (a ++ b) := by
  intro n hn
  rcases mem_append.1 hn with hn | hn
  · exact ha n hn
  · exact hb n hn

theorem AreBytes.cons {n : Int} {b : List Int} (hn : 0 ≤ n ∧ n < 256) (hb : AreBytes b) : AreBytes (n :: b) := by
  intro m hm
  rcases mem_cons.1 hm with rfl | hm
  · exact hn
  · exact hb m hm

theorem AreBytes.singleton {n : Int} (hn : 0 ≤ n ∧ n < 256) : AreBytes [n] := .cons hn .nil

namespace Bits

/-! ### Numbers and their bits -/

theorem length_ofInt (n : Nat) (v : Int) : (ofInt n v).length = n := by
  induction n generalizing v with
  | zero => rfl
  | succ n ih => rw [ofInt, length_cons, ih]

theorem toNat_lt (b : Bool) : toNat b < 2 := by cases b <;> decide

theorem value_lt : value bits < Nat.pow 2 bits.length := by
  induction bits with
  | nil => decide
  | cons b bits ih =>
    have hb := toNat_lt b
    have hpow : Nat.pow 2 (bits.length + 1) = Nat.pow 2 bits.length * 2 := Nat.pow_succ 2 _
    rw [value, length_cons]
    omega

theorem value_ofInt_emod (n : Nat) (v : Int) : (value (ofInt n v) : Int) = v % (Nat.pow 2 n : Nat) := by
  induction n generalizing v with
  | zero => exact (Int.emod_one v).symm
  | succ n ih =>
    have hpow : ((Nat.pow 2 (n + 1)) : Int) = 2 * Nat.pow 2 n := by
      rw [Int.mul_comm]
      rfl
    have hpos : (0 : Int) < Nat.pow 2 n := Int.natCast_pos.2 (Nat.pow_pos (by decide))
    have hbit : (toNat (decide (v % 2 = 1))) = v % 2 := by
      rcases Int.emod_two_eq v with hv | hv <;> rw [hv] <;> rfl
    rw [ofInt, value, Int.natCast_add, Int.natCast_mul, ih, hbit, hpow]
    have hrest := Int.mul_ediv_add_emod (v / 2) (Nat.pow 2 n)
    have hlow := Int.emod_nonneg (v / 2) (Int.ne_of_gt hpos)
    have hhigh := Int.emod_lt_of_pos (v / 2) hpos
    have hsplit : v % 2 + 2 * (v / 2 % Nat.pow 2 n) + 2 * (Nat.pow 2 n) * (v / 2 / Nat.pow 2 n) = v := by
      rw [Int.mul_assoc]
      omega
    exact ((Int.ediv_emod_unique (by omega)).2 ⟨hsplit, by omega, by omega⟩).2.symm

theorem value_ofInt {v : Int} (h0 : 0 ≤ v) (h : v < (Nat.pow 2 n : Nat)) : (value (ofInt n v) : Int) = v := by
  rw [value_ofInt_emod, Int.emod_eq_of_lt h0 h]

theorem ofInt_value {bits : List Bool} (h : bits.length ≤ n) :
    ofInt n (value bits) = bits ++ List.replicate (n - bits.length) false := by
  induction n generalizing bits with
  | zero =>
    rw [eq_nil_of_length_eq_zero (Nat.le_zero.1 h)]
    rfl
  | succ n ih =>
    cases bits with
    | nil =>
      have hrest : ofInt n (value []) = [] ++ List.replicate (n - 0) false := ih (Nat.zero_le n)
      exact congrArg (false :: ·) hrest
    | cons b bits =>
      rw [length_cons] at h
      have hb := toNat_lt b
      have hhead : decide (((toNat b + 2 * value bits : Nat) : Int) % 2 = 1) = b := by
        have hmod : ((toNat b + 2 * value bits : Nat) : Int) % 2 = toNat b := by omega
        rw [hmod]
        cases b <;> decide
      have htail : ((toNat b + 2 * value bits : Nat) : Int) / 2 = value bits := by omega
      rw [value, ofInt, hhead, htail, ih (by omega), length_cons, cons_append, Nat.add_sub_add_right]

theorem ofInt_inj {v w : Int} (hv : 0 ≤ v ∧ v < (Nat.pow 2 n : Nat))
    (hw : 0 ≤ w ∧ w < (Nat.pow 2 n : Nat)) (h : ofInt n v = ofInt n w) : v = w := by
  rw [← value_ofInt hv.1 hv.2, h, value_ofInt hw.1 hw.2]

theorem drop_ofInt (n i : Nat) (v : Int) : (ofInt (n + i) v).drop i = ofInt n (v / (Nat.pow 2 i : Nat)) := by
  induction i generalizing v with
  | zero => exact congrArg (ofInt n) (Int.ediv_one v).symm
  | succ i ih =>
    rw [← Nat.add_assoc, ofInt, drop_succ_cons, ih, Int.ediv_ediv_of_nonneg (by decide)]
    rw [Int.mul_comm]
    rfl

theorem length_ofBytes (data : List Int) : (ofBytes data).length = 8 * data.length := by
  induction data with
  | nil => rfl
  | cons b data ih =>
    rw [ofBytes, flatMap_cons, length_append, length_ofInt, length_cons, ← ofBytes]
    omega

/-! ### Laying bits over bits -/

theorem or_shift (hb : b < Nat.pow 2 i) : or (shift a i) b = ((a * Nat.pow 2 i + b : Nat) : Int) := by
  have hor : Nat.pow 2 i * a + b = Nat.pow 2 i * a ||| b := Nat.two_pow_add_eq_or_of_lt hb a
  have hshift : shift a i = (Nat.pow 2 i * a : Nat) := by
    rw [Nat.mul_comm]
    rfl
  rw [hshift, Nat.mul_comm a, hor]
  rfl

theorem or_shift_right (hb : b < Nat.pow 2 i) : or b (shift a i) = ((b + a * Nat.pow 2 i : Nat) : Int) := by
  rw [Nat.add_comm, ← or_shift a hb]
  exact congrArg Int.ofNat (Nat.or_comm ..)

theorem value_concat (b : Bool) : value (bits ++ [b]) = value bits + toNat b * Nat.pow 2 bits.length := by
  induction bits with
  | nil =>
    have hone : Nat.pow 2 0 = 1 := rfl
    rw [nil_append, length_nil, hone, value, value, value]
    omega
  | cons x bits ih =>
    have hpow : Nat.pow 2 (bits.length + 1) = Nat.pow 2 bits.length * 2 := Nat.pow_succ 2 _
    rw [cons_append, value, value, length_cons, hpow, ← Nat.mul_assoc]
    omega

end Bits

/-! ### Streams that are written -/

namespace Bitstream

/-- A stream holds whole bytes and the first bits of one more, to which its cursor points. -/
structure Written (bytes : List Int) (last : List Bool) (s : Bitstream) : Prop where
  data : s.data.toList = bytes ++ [(Bits.value last : Int)]
  byteIndex : s.byteIndex = bytes.length
  bitIndex : s.bitIndex = last.length
  byte : s.byte = Bits.value last
  short : last.length < 8
  areBytes : AreBytes bytes

variable {bytes : List Int} {last : List Bool} {s : Bitstream}

theorem written_fresh : Written [] [] fresh where
  data := rfl
  byteIndex := rfl
  bitIndex := rfl
  byte := rfl
  short := by decide
  areBytes := .nil

theorem value_lt_byte (h : bits.length ≤ 8) : Bits.value bits < 256 := by
  have hvalue := Bits.value_lt bits
  have hpow : Nat.pow 2 bits.length ≤ Nat.pow 2 8 := Nat.pow_le_pow_right (by decide) h
  exact Nat.lt_of_lt_of_le hvalue hpow

def held (bytes : List Int) (last : List Bool) : List Bool := Bits.ofBytes bytes ++ last

theorem Written.writeBit (h : Written bytes last s) (b : Bool) :
    ∃ bytes' last' s', s.writeBit (Bits.toNat b) = .ok s' ∧ Written bytes' last' s' ∧
    held bytes' last' = held bytes last ++ [b] := by
  have hsize : s.data.size = bytes.length + 1 := by
    rw [← Array.length_toList, h.data, length_append, length_singleton]
  have hwithin : s.within = true := by
    simp only [within, h.byteIndex, decide_eq_true_eq]
    omega
  have hbyte : Bits.or s.byte (Bits.shift (Bits.toNat b) s.bitIndex) = Bits.value (last ++ [b]) := by
    rw [h.byte, h.bitIndex, Bits.or_shift_right _ (Bits.value_lt last), Bits.value_concat]
  have hlength : (last ++ [b]).length = last.length + 1 := by
    rw [length_append, length_singleton]
  have hset : (s.data.setIfInBounds s.byteIndex (Bits.value (last ++ [b]))).toList
      = bytes ++ [(Bits.value (last ++ [b]) : Int)] := by
    rw [Array.toList_setIfInBounds, h.data, h.byteIndex, set_append_right _ _ (Nat.le_refl _), Nat.sub_self]
    rfl
  rw [Bitstream.writeBit, hbyte, if_pos hwithin, h.bitIndex]
  by_cases hfull : last.length + 1 = 8
  · refine ⟨bytes ++ [(Bits.value (last ++ [b]) : Int)], [], _, if_pos hfull, ?_, ?_⟩
    · exact
        { data := by rw [Array.toList_push, hset]; rfl
          byteIndex := by rw [h.byteIndex, length_append, length_singleton]
          bitIndex := rfl
          byte := rfl
          short := by decide
          areBytes := by
            have hlt := value_lt_byte (last ++ [b]) (by omega)
            exact h.areBytes.append (.singleton (by omega)) }
    · rw [held, held, append_nil, Bits.ofBytes, flatMap_append, flatMap_singleton,
        Bits.ofInt_value (by omega), hlength, hfull, replicate_zero, append_nil,
        append_assoc]
      rfl
  · refine ⟨bytes, last ++ [b], _, if_neg hfull, ?_, (append_assoc _ _ _).symm⟩
    exact
      { data := hset
        byteIndex := h.byteIndex
        bitIndex := hlength.symm
        byte := rfl
        short := by have := h.short; omega
        areBytes := h.areBytes }

theorem Written.writeBits (h : Written bytes last s) (bits : List Bool) :
    ∃ bytes' last' s', s.writeBits bits = .ok s' ∧ Written bytes' last' s' ∧ held bytes' last' = held bytes last ++ bits := by
  induction bits generalizing bytes last s with
  | nil => exact ⟨bytes, last, s, rfl, h, (append_nil _).symm⟩
  | cons b bits ih =>
    obtain ⟨bytes₁, last₁, s₁, hbit, h₁, hheld₁⟩ := h.writeBit b
    obtain ⟨bytes₂, last₂, s₂, hbits, h₂, hheld₂⟩ := ih h₁
    refine ⟨bytes₂, last₂, s₂, ?_, h₂, ?_⟩
    · rw [Bitstream.writeBits, foldlM_cons, hbit]
      exact hbits
    · rw [hheld₂, hheld₁, append_assoc, singleton_append]

theorem writeBits_fresh : ∃ s zeros, zeros < 8 ∧ fresh.writeBits bits = .ok s ∧ AreBytes s.data.toList ∧
    Bits.ofBytes s.data.toList = bits ++ List.replicate (zeros + 1) false := by
  obtain ⟨bytes, last, s, hwrite, h, hheld⟩ := written_fresh.writeBits bits
  have hshort := h.short
  refine ⟨s, 7 - last.length, by omega, hwrite, ?_, ?_⟩
  · rw [h.data]
    have hlt := value_lt_byte last (by omega)
    exact h.areBytes.append (.singleton (by omega))
  · have hbits : bits = held bytes last := hheld.symm
    rw [h.data, hbits, held, Bits.ofBytes, flatMap_append, flatMap_singleton,
      Bits.ofInt_value (by omega), show 8 - last.length = 7 - last.length + 1 by omega,
      append_assoc]
    rfl

/-! ### Streams that are read -/

/-- The bits that a stream still has in front of its cursor. -/
def ahead (s : Bitstream) : List Bool :=
  if s.within then (Bits.ofInt 8 s.byte).drop s.bitIndex ++ Bits.ofBytes (s.data.toList.drop (s.byteIndex + 1)) else []

theorem readBit_ahead (h : s.bitIndex < 8) : s.readBit.1 = Bits.toNat (s.ahead.headD false) ∧
    s.readBit.2.ahead = s.ahead.tail ∧ s.readBit.2.bitIndex < 8 := by
  rw [readBit, ahead]
  by_cases hwithin : s.within
  · have hbit : (Bits.ofInt 8 s.byte).drop s.bitIndex
        = Bits.test s.byte s.bitIndex :: (Bits.ofInt 8 s.byte).drop (s.bitIndex + 1) := by
      obtain ⟨n, hn⟩ := Nat.exists_eq_add_of_lt h
      have height : 8 = n + 1 + s.bitIndex := by omega
      have hnext := congrArg List.tail (Bits.drop_ofInt (n + 1) s.bitIndex s.byte)
      rw [← height, tail_drop] at hnext
      rw [hnext]
      rw [height, Bits.drop_ofInt]
      rfl
    rw [if_pos hwithin, hbit]
    refine ⟨by split <;> rfl, ?_, by split <;> dsimp only <;> omega⟩
    split
    · rename_i hlast
      rw [ahead, hlast, drop_of_length_le (Nat.le_of_eq (Bits.length_ofInt 8 s.byte))]
      simp only [within, decide_eq_true_eq]
      split
      · rename_i hnext
        have hbytes : s.data.toList.drop (s.byteIndex + 1) = s.data[s.byteIndex + 1] :: s.data.toList.drop (s.byteIndex + 1 + 1) :=
          drop_eq_getElem_cons (Array.length_toList ▸ hnext)
        rw [Array.getElem?_eq_getElem hnext, hbytes]
        rfl
      · rename_i hend
        rw [drop_of_length_le (Array.length_toList ▸ Nat.le_of_not_lt hend)]
        rfl
    · exact if_pos hwithin
  · rw [if_neg hwithin, if_neg hwithin]
    exact ⟨rfl, if_neg hwithin, h⟩

theorem readInteger_ahead (n : Nat) (h : s.bitIndex < 8) : (s.readInteger n).1 = Bits.value (s.ahead.take n) ∧
    (s.readInteger n).2.ahead = s.ahead.drop n ∧ (s.readInteger n).2.bitIndex < 8 := by
  induction n generalizing s with
  | zero => exact ⟨rfl, rfl, h⟩
  | succ n ih =>
    obtain ⟨hbit, hahead, hnext⟩ := readBit_ahead h
    obtain ⟨hvalue, hdrop, hlast⟩ := ih hnext
    refine ⟨?_, ?_, hlast⟩
    · change s.readBit.1 + 2 * (s.readBit.2.readInteger n).1 = _
      rw [hvalue, hbit, hahead]
      cases s.ahead with
      | nil => rw [tail_nil, take_nil]; rfl
      | cons b rest => rfl
    · exact hdrop.trans (by rw [hahead, drop_tail])

/-- Reads numbers of some sizes one after the other. -/
def readAll : List Nat → Bitstream → List Nat × Bitstream
  | [], s => ([], s)
  | n :: sizes, s => ((s.readInteger n).1 :: (readAll sizes (s.readInteger n).2).1, (readAll sizes (s.readInteger n).2).2)

theorem readAll_ahead {items : List (Int × Nat)} {rest : List Bool} (h : s.bitIndex < 8)
    (hahead : s.ahead = items.flatMap (fun p => Bits.ofInt p.2 p.1) ++ rest) :
    (s.readAll (items.map Prod.snd)).1.map Int.ofNat = items.map (fun p : Int × Nat => p.1 % (Nat.pow 2 p.2 : Nat)) ∧
    (s.readAll (items.map Prod.snd)).2.ahead = rest ∧ (s.readAll (items.map Prod.snd)).2.bitIndex < 8 := by
  induction items generalizing s with
  | nil => exact ⟨rfl, hahead, h⟩
  | cons p items ih =>
    obtain ⟨hvalue, hdrop, hnext⟩ := readInteger_ahead p.2 h
    rw [flatMap_cons, append_assoc] at hahead
    have hlength := Bits.length_ofInt p.2 p.1
    rw [hahead, take_left' hlength] at hvalue
    rw [hahead, drop_left' hlength] at hdrop
    obtain ⟨hvalues, hrest⟩ := ih hnext hdrop
    refine ⟨?_, hrest⟩
    rw [map_cons, readAll, map_cons, hvalues, hvalue]
    exact congrArg (· :: _) (Bits.value_ofInt_emod p.2 p.1)

theorem foldlM_writeInteger (items : List (Int × Nat)) (s : Bitstream) :
    items.foldlM (fun s p => s.writeInteger p.1 p.2) s = s.writeBits (items.flatMap fun p => Bits.ofInt p.2 p.1) := by
  induction items generalizing s with
  | nil => rfl
  | cons p items ih =>
    rw [flatMap_cons, writeBits, foldlM_append]
    exact congrArg (s.writeBits (Bits.ofInt p.2 p.1) >>= ·) (funext ih)

/-- What is written to a fresh stream is read from its data in the same order, each number up to its size. The data are bytes and
no more than the bits take, and zeros are all that is read behind them. -/
theorem readAll_written (items : List (Int × Nat)) : ∃ s r,
    items.foldlM (fun s p => s.writeInteger p.1 p.2) fresh = .ok s ∧ open? s.data.toList = .ok r ∧
    (r.readAll (items.map Prod.snd)).1.map Int.ofNat = items.map (fun p : Int × Nat => p.1 % (Nat.pow 2 p.2 : Nat)) ∧
    AreBytes s.data.toList ∧ s.data.toList.length = (items.map Prod.snd).sum / 8 + 1 ∧
    ∀ n, ((r.readAll (items.map Prod.snd)).2.readInteger n).2.readBit.1 = 0 := by
  obtain ⟨s, zeros, hzeros, hwrite, hbytes, hbits⟩ := writeBits_fresh (items.flatMap fun p => Bits.ofInt p.2 p.1)
  have hlength := congrArg List.length hbits
  rw [Bits.length_ofBytes, length_append, length_replicate] at hlength
  have hsizes : (items.flatMap fun p => Bits.ofInt p.2 p.1).length = (items.map Prod.snd).sum := by
    rw [length_flatMap]
    exact congrArg List.sum (map_congr_left fun p _ => Bits.length_ofInt p.2 p.1)
  obtain ⟨b, more, hdata⟩ := exists_cons_of_length_pos (show 0 < s.data.toList.length by omega)
  have hahead : (⟨(b :: more).toArray, 0, 0, b⟩ : Bitstream).ahead = _ := hdata ▸ hbits
  obtain ⟨hvalues, hrest, hlast⟩ := readAll_ahead (show (0 : Nat) < 8 by decide) hahead
  refine ⟨s, _, (foldlM_writeInteger items fresh).trans hwrite, by rw [hdata]; rfl, hvalues, hbytes, by omega, fun n => ?_⟩
  obtain ⟨-, hdrop, hnext⟩ := readInteger_ahead n hlast
  rw [(readBit_ahead hnext).1, hdrop, hrest, drop_replicate]
  cases zeros + 1 - n <;> rfl

end Bitstream

end ScummKit
