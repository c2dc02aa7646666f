import ScummKit.Pack.Spelling

/-!
# Numbers in names

A number in the name of a file or folder is written with at least three digits, and read from the last
three characters. So what is read is the number modulo a thousand (`read_lastThree`).
-/

namespace ScummKit

open List
variable (width n : Nat) {c : Char}

theorem Position.onward_three (xs : List α) : onward xs (-3) = xs.drop (xs.length - 3) := by
  have hbound : bound xs.length (-3) = xs.length - 3 := by
    rw [bound]
    omega
  rw [onward, hbound]

namespace Numeral

variable {cs : List Char}

theorem bounds_of_isDigit (h : c.isDigit) : 48 ≤ c.toNat ∧ c.toNat ≤ 57 := by
  simpa [Char.isDigit, UInt32.le_iff_toNat_le] using h

theorem digit?_of_isDigit (h : c.isDigit) : digit? 10 c = some (c.toNat - 48) := by
  have hc := bounds_of_isDigit h
  have hrange : '0' ≤ c ∧ c ≤ '9' := hc
  rw [digit?, if_pos hrange, Option.filter_some, if_pos (by simp; omega)]

section

variable (h : ∀ c ∈ cs, c.isDigit)

include h

theorem readDigits_eq (acc : Nat) : readDigits 10 acc cs = some (Nat.ofDigitChars 10 cs acc) := by
  induction cs generalizing acc with
  | nil => rfl
  | cons c cs ih =>
    rw [forall_mem_cons] at h
    have hne : c ≠ '_' := fun heq => absurd h.1 (heq ▸ by decide)
    rw [readDigits.eq_3 _ _ _ _ fun _ _ heq => absurd heq hne, digit?_of_isDigit h.1, Option.bind_some,
      ih h.2, Nat.mul_comm]
    rfl

theorem map_plain : cs.map Digit.plain = cs := by
  refine (map_congr_left fun c hc => ?_).trans (map_id cs)
  have hc := bounds_of_isDigit (h c hc)
  exact if_pos (by omega)

theorem dropWhile_isBlank : cs.dropWhile isBlank = cs := by
  cases cs with
  | nil => rfl
  | cons c cs =>
    have hc := bounds_of_isDigit (h c mem_cons_self)
    have hnot : isBlank c = false := by simp [isBlank]; omega
    rw [dropWhile_cons, hnot, if_neg Bool.false_ne_true]

theorem read_digits (hne : cs ≠ []) : read 10 (String.ofList cs) = .ok (Nat.ofDigitChars 10 cs 0) := by
  have htrim : (trim (String.ofList cs).toList).map Digit.plain = cs := by
    rw [trim, String.toList_ofList, dropWhile_isBlank h, dropWhile_isBlank (by simpa using h), reverse_reverse, map_plain h]
  obtain ⟨c, rest, rfl⟩ := exists_cons_of_ne_nil hne
  have hother {d : Char} (hd : d.isDigit = false) : c ≠ d :=
    fun heq => Bool.false_ne_true (hd.symm.trans (heq ▸ h c mem_cons_self))
  have hunsigned : readUnsigned 10 (c :: rest) = some (Nat.ofDigitChars 10 (c :: rest) 0) := by
    rw [readUnsigned, ← readDigits_eq h]
    · dsimp only
      split
      · contradiction
      · exact absurd (cons.inj ‹_›).1 (hother (by decide))
      · rfl
    · exact fun _ _ hbase => absurd hbase (by decide)
  have hread : read? 10 (String.ofList (c :: rest)) = some (Nat.ofDigitChars 10 (c :: rest) 0 : Int) := by
    rw [read?, htrim]
    split
    · exact absurd (cons.inj ‹_›).1 (hother (by decide))
    · exact absurd (cons.inj ‹_›).1 (hother (by decide))
    · rw [hunsigned]
      rfl
  rw [read, hread]

end

theorem read_toString (n : Nat) : read 10 (toString n) = .ok n := by
  rw [Nat.toString_eq_ofList_toDigits, read_digits (fun c hc => Nat.isDigit_of_mem_toDigits (by decide) (by decide) hc) Nat.toDigits_ne_nil,
    Nat.ofDigitChars_ten_toDigits]

theorem ofDigitChars_three (h : ∀ c ∈ cs, c.isDigit) (hlength : cs.length = 3) : Nat.ofDigitChars 10 cs 0 < 1000 := by
  rcases cs with _ | ⟨a, _ | ⟨b, _ | ⟨c, _ | ⟨d, rest⟩⟩⟩⟩ <;> simp at hlength
  have ha := bounds_of_isDigit (h a (by simp))
  have hb := bounds_of_isDigit (h b (by simp))
  have hc := bounds_of_isDigit (h c (by simp))
  have hzero : '0'.toNat = 48 := rfl
  simp only [Nat.ofDigitChars_cons, Nat.ofDigitChars_nil]
  omega

end Numeral

namespace Pack.Spelling

def digits (width n : Nat) : List Char := replicate (width - (Nat.toDigits 10 n).length) '0' ++ Nat.toDigits 10 n

theorem isDigit_digits {width n : Nat} (h : c ∈ digits width n) : c.isDigit := by
  rcases mem_append.mp h with h | h
  · rw [eq_of_mem_replicate h]
    decide
  · exact Nat.isDigit_of_mem_toDigits (by decide) (by decide) h

theorem ofDigitChars_digits : Nat.ofDigitChars 10 (digits width n) 0 = n := by
  rw [digits, Nat.ofDigitChars_append, Nat.ofDigitChars_replicate_zero, Nat.mul_zero, Nat.ofDigitChars_ten_toDigits]

theorem le_length_digits : width ≤ (digits width n).length := by
  rw [digits, length_append, length_replicate]
  omega

theorem digits_ne_nil : digits width n ≠ [] := fun h => Nat.toDigits_ne_nil (append_eq_nil_iff.mp h).2

theorem pad_eq : pad width (toString (n : Int)) = String.ofList (digits width n) := by
  have htext : (toString (n : Int)).toList = Nat.toDigits 10 n := Nat.toList_repr
  have hlength : (toString (n : Int)).length = (Nat.toDigits 10 n).length := by
    rw [← String.length_toList, htext]
  have hsign {d : Char} {rest : List Char} (heq : Nat.toDigits 10 n = d :: rest) : d.isDigit :=
    Nat.isDigit_of_mem_toDigits (by decide) (by decide) (heq ▸ mem_cons_self)
  rw [pad, htext, hlength, digits, String.ofList_append]
  split
  · exact absurd (hsign ‹_›) (by decide)
  · exact absurd (hsign ‹_›) (by decide)
  · rw [← htext, String.ofList_toList]

theorem read_lastThree (front : List Char) (n : Nat) :
    Numeral.read 10 (String.ofList ((front ++ digits 3 n).drop ((front ++ digits 3 n).length - 3)))
    = .ok ((n % 1000 : Nat) : Int) := by
  have hlength := le_length_digits 3 n
  have hdrop : (front ++ digits 3 n).drop ((front ++ digits 3 n).length - 3) = (digits 3 n).drop ((digits 3 n).length - 3) := by
    rw [length_append, drop_append, drop_eq_nil_of_le (by omega), nil_append]
    congr 1
    omega
  have hdigits : ∀ c ∈ (digits 3 n).drop ((digits 3 n).length - 3), c.isDigit :=
    fun c hc => isDigit_digits (mem_of_mem_drop hc)
  have hthree : ((digits 3 n).drop ((digits 3 n).length - 3)).length = 3 := by
    rw [length_drop]
    omega
  have hvalue := ofDigitChars_digits 3 n
  rw [← take_append_drop ((digits 3 n).length - 3) (digits 3 n), Nat.ofDigitChars_append,
    Nat.ofDigitChars_eq_ofDigitChars_zero, hthree] at hvalue
  have hless := Numeral.ofDigitChars_three hdigits hthree
  rw [hdrop, Numeral.read_digits hdigits (ne_nil_of_length_eq_add_one hthree)]
  congr 2
  omega

end Pack.Spelling

end ScummKit
