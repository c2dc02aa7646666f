import Mathlib.Data.Rat.Cast.Order
import Mathlib.Tactic.Ring
import Mathlib.Tactic.Linarith
import Mathlib.Tactic.IntervalCases
import ScummKit.Json.Number
import ScummKit.Json.Printer
import ScummKit.Json.Reader

/-!
# Numbers written and read back

A number is written in one of three ways: as digits only, with a fraction, or with an exponent. All of
them are a `numberText`: a sign, whole digits, digits behind a point and an exponent, of which the
last two may be missing. The reader of numbers takes such a text back, whatever stands behind it, and
the number it gives has the same value; the digits and the exponent may be others, since the writer
moves the point.
-/

namespace ScummKit

open List
variable (x : Decimal) {ds es : List Char} (n : Nat)

/-! ### Values -/

def Ratio.value (r : Ratio) : ℚ := r.num / r.den

def Decimal.value (x : Decimal) : ℚ := (if x.negative then -(x.digits : ℚ) else x.digits) * 10 ^ x.exponent

theorem Ratio.less_iff {a b : Ratio} (ha : 0 < a.den) (hb : 0 < b.den) : a.less b = true ↔ a.value < b.value := by
  have ha' : (0 : ℚ) < a.den := by exact_mod_cast ha
  have hb' : (0 : ℚ) < b.den := by exact_mod_cast hb
  rw [less, decide_eq_true_iff, value, value, div_lt_div_iff₀ ha' hb']
  exact_mod_cast Iff.rfl

theorem Decimal.ratio_den_pos : 0 < x.ratio.den := by
  rw [ratio]
  split
  · exact Nat.one_pos
  · exact Nat.pow_pos (by decide)

theorem Decimal.value_ratio : x.ratio.value = x.value := by
  obtain ⟨negative, digits, exponent⟩ := x
  rw [ratio, value]
  split
  · rename_i h
    obtain ⟨e, rfl⟩ := Int.eq_ofNat_of_zero_le h
    cases negative <;> simp [Ratio.value]
  · rename_i h
    obtain ⟨e, he⟩ := Int.eq_ofNat_of_zero_le (show 0 ≤ -exponent by simp only at h; omega)
    obtain rfl : exponent = -e := by omega
    cases negative <;> simp [Ratio.value, div_eq_mul_inv]

/-- Whether a fraction lies below a decimal number depends only on the value of the number, and
likewise the other way round. -/
theorem Decimal.less_ratio_congr {x y : Decimal} (h : x.value = y.value) {r : Ratio}
    (hr : 0 < r.den) : x.ratio.less r = y.ratio.less r := by
  rw [Bool.eq_iff_iff, Ratio.less_iff x.ratio_den_pos hr, Ratio.less_iff y.ratio_den_pos hr, x.value_ratio, y.value_ratio, h]

theorem Decimal.value_eq {x y : Decimal} (hsign : x.negative = y.negative) (m k l : Nat)
    (hx : x.digits = m * 10 ^ k) (hy : y.digits = m * 10 ^ l) (he : x.exponent + k = y.exponent + l) : x.value = y.value := by
  have hten : (10 : ℚ) ≠ 0 := by norm_num
  have hmove : ∀ (a : Nat) (e : Int), (((m * 10 ^ a : Nat) : ℚ)) * 10 ^ e = m * 10 ^ (e + a) := by
    intro a e
    rw [zpow_add₀ hten, zpow_natCast]
    push_cast
    ring
  rw [value, value, hsign, hx, hy]
  split
  · rw [neg_mul, neg_mul, hmove, hmove, he]
  · rw [hmove, hmove, he]

namespace Json

variable {rest : List Char} {exponent : Option Int} (e : Int)

/-! ### Digits -/

theorem ofDigits_eq (ds : List Char) : ofDigits ds = Nat.ofDigitChars 10 ds 0 := by
  rw [ofDigits]
  congr
  funext n d
  rw [Nat.mul_comm]
  rfl

theorem ofDigits_append (ds es : List Char) : ofDigits (ds ++ es) = ofDigits ds * 10 ^ es.length + ofDigits es := by
  rw [ofDigits_eq, ofDigits_eq, ofDigits_eq, Nat.ofDigitChars_append, Nat.ofDigitChars_eq_ofDigitChars_zero, Nat.mul_comm]

theorem ofDigits_zeros (k : Nat) : ofDigits (List.replicate k '0') = 0 := by
  rw [ofDigits_eq, Nat.ofDigitChars_replicate_zero, Nat.mul_zero]

theorem ofDigits_toDigits : ofDigits (Nat.toDigits 10 n) = n := by
  rw [ofDigits_eq, Nat.ofDigitChars_ten_toDigits]

def AllDigits (ds : List Char) : Prop := ∀ d ∈ ds, d.isDigit = true

theorem allDigits_toDigits : AllDigits (Nat.toDigits 10 n) :=
  fun _ hd => Nat.isDigit_of_mem_toDigits (by decide) (by decide) hd

theorem allDigits_zeros (k : Nat) : AllDigits (List.replicate k '0') := by
  intro d hd
  rw [eq_of_mem_replicate hd]
  rfl

theorem AllDigits.append (hd : AllDigits ds) (he : AllDigits es) : AllDigits (ds ++ es) := by
  intro d h
  rcases mem_append.mp h with h | h
  · exact hd d h
  · exact he d h

/-- What may stand behind a number: nothing that would belong to it. -/
def Ended (rest : List Char) : Prop := ∀ c ∈ rest.head?, c.isDigit = false ∧ c ≠ '.' ∧ c ≠ 'e' ∧ c ≠ 'E'

theorem splitDigits_append {ds : List Char} (hds : AllDigits ds)
    (hrest : ∀ c ∈ rest.head?, c.isDigit = false) : splitDigits (ds ++ rest) = (ds, rest) := by
  have hstop : rest.takeWhile Char.isDigit = [] ∧ rest.dropWhile Char.isDigit = rest := by
    cases rest with
    | nil => exact ⟨rfl, rfl⟩
    | cons c cs => simp [hrest c rfl]
  rw [splitDigits, takeWhile_append_of_pos hds, dropWhile_append_of_pos hds, hstop.1, hstop.2, append_nil]

/-- Digits that may stand at the start of a number: zero alone, or digits from another one on. -/
def Whole (ds : List Char) : Prop := AllDigits ds ∧ (ds = ['0'] ∨ ∃ d es, ds = d :: es ∧ d ≠ '0')

theorem whole_zero : Whole ['0'] := by
  refine ⟨?_, Or.inl rfl⟩
  intro d hd
  rw [mem_singleton.mp hd]
  rfl

theorem Whole.append (h : Whole ds) (hne : ds ≠ ['0']) (hes : AllDigits es) : Whole (ds ++ es) := by
  obtain ⟨hall, rfl | ⟨d, fs, rfl, hd⟩⟩ := h
  · exact absurd rfl hne
  · exact ⟨hall.append hes, Or.inr ⟨d, fs ++ es, rfl, hd⟩⟩

theorem head_toDigits {n : Nat} (h : 0 < n) : ∃ d es, Nat.toDigits 10 n = d :: es ∧ d ≠ '0' := by
  -- the digits before the last are those of a smaller number
  induction n using Nat.strong_induction_on with
  | _ n ih =>
    by_cases hn : n < 10
    · refine ⟨n.digitChar, [], Nat.toDigits_of_lt_base hn, ?_⟩
      interval_cases n <;> decide
    · obtain ⟨d, es, hes, hd⟩ := ih (n / 10) (by omega) (by omega)
      refine ⟨d, es ++ [(n % 10).digitChar], ?_, hd⟩
      rw [Nat.toDigits_of_base_le (by decide) (by omega), hes]
      rfl

theorem whole_toDigits : Whole (Nat.toDigits 10 n) := by
  refine ⟨allDigits_toDigits n, ?_⟩
  rcases Nat.eq_zero_or_pos n with rfl | h
  · exact Or.inl rfl
  · exact Or.inr (head_toDigits h)

theorem Whole.ne_nil {ds : List Char} (h : Whole ds) : ds ≠ [] := by
  rintro rfl
  obtain ⟨-, h | ⟨d, es, h, -⟩⟩ := h <;> cases h

/-! ### Texts of numbers -/

def fractionText (fraction : List Char) : List Char := if fraction = [] then [] else '.' :: fraction

def exponentText : Option Int → List Char
  | none => []
  | some e =>
    let size := Nat.toDigits 10 e.natAbs
    'e' :: (if e < 0 then '-' else '+') :: (if size.length < 2 then '0' :: size else size)

def numberText (whole fraction : List Char) (exponent : Option Int) : List Char :=
  whole ++ (fractionText fraction ++ exponentText exponent)

def numberOf (negative : Bool) (whole fraction : List Char) : Option Int → Json
  | some e => .real ⟨negative, ofDigits (whole ++ fraction), e - fraction.length⟩
  | none =>
    if fraction = [] then .int (if negative then -(ofDigits whole : Int) else ofDigits whole)
    else .real ⟨negative, ofDigits (whole ++ fraction), -(fraction.length : Int)⟩

theorem readExponent_none (h : Ended rest) : readExponent rest = none := by
  cases rest with
  | nil => rfl
  | cons c cs =>
    obtain ⟨-, -, he, hE⟩ := h c rfl
    simp only [readExponent, he, hE, or_self, if_false]

theorem readExponent_text (h : Ended rest) : readExponent (exponentText (some e) ++ rest) = some (e, rest) := by
  have hrest : ∀ c ∈ rest.head?, c.isDigit = false := fun c hc => (h c hc).1
  obtain ⟨ds, hds, hne, hall, hval⟩ : ∃ ds, exponentText (some e)
      = 'e' :: (if e < 0 then '-' else '+') :: ds ∧ ds ≠ [] ∧ AllDigits ds
      ∧ ofDigits ds = e.natAbs := by
    refine ⟨_, rfl, ?_, ?_, ?_⟩
    · split
      · exact cons_ne_nil _ _
      · exact Nat.toDigits_ne_nil
    · split
      · exact (allDigits_zeros 1).append (allDigits_toDigits _)
      · exact allDigits_toDigits _
    · split
      · rw [show '0' :: Nat.toDigits 10 e.natAbs = ['0'] ++ Nat.toDigits 10 e.natAbs from rfl, ofDigits_append, ofDigits_toDigits]
        exact (Nat.zero_mul _).symm ▸ Nat.zero_add _
      · exact ofDigits_toDigits _
  rw [hds]
  by_cases he : e < 0
  · simp only [he, if_true, List.cons_append, readExponent, true_or,
      splitDigits_append hall hrest, List.isEmpty_iff, hne, if_false, hval]
    rw [show -e.natAbs = e by omega]
  · simp only [he, if_false, List.cons_append, readExponent, splitDigits_append hall hrest, List.isEmpty_iff, hne, hval]
    rw [show (e.natAbs : Int) = e by omega]
    rfl

theorem head_exponentText (h : Ended rest) : ∀ c ∈ (exponentText exponent ++ rest).head?, c.isDigit = false ∧ c ≠ '.' := by
  intro c hc
  cases exponent with
  | none => exact ⟨(h c hc).1, (h c hc).2.1⟩
  | some e =>
    obtain rfl := Option.some.inj hc
    decide

theorem splitWhole_append {whole : List Char} (hw : Whole whole)
    (hrest : ∀ c ∈ rest.head?, c.isDigit = false) : splitWhole (whole ++ rest) = (whole, rest) := by
  obtain ⟨hall, rfl | ⟨d, es, rfl, hd⟩⟩ := hw
  · rfl
  · rw [← splitDigits_append hall hrest, splitWhole]
    rintro r hr
    exact hd (List.cons.inj hr).1

theorem splitFraction_text {fraction : List Char} (hf : AllDigits fraction)
    (hrest : ∀ c ∈ rest.head?, c.isDigit = false ∧ c ≠ '.') :
    splitFraction (fractionText fraction ++ rest) = (fraction, rest) := by
  rw [fractionText]
  by_cases hfr : fraction = []
  · rw [if_pos hfr, nil_append, splitFraction, hfr]
    rintro r rfl
    exact (hrest '.' rfl).2 rfl
  · have hsplit := splitDigits_append hf fun c hc => (hrest c hc).1
    rw [if_neg hfr, List.cons_append, splitFraction, hsplit]
    simp only [List.isEmpty_iff, hfr, if_false]

theorem readNumber_text (negative : Bool) {whole fraction : List Char}
    (hw : Whole whole) (hf : AllDigits fraction) (hrest : Ended rest) :
    readNumber negative (numberText whole fraction exponent ++ rest)
    = some (numberOf negative whole fraction exponent, rest) := by
  have hbehind : ∀ c ∈ (exponentText exponent ++ rest).head?, c.isDigit = false ∧ c ≠ '.' :=
    head_exponentText hrest
  have hpoint : ∀ c ∈ (fractionText fraction ++ (exponentText exponent ++ rest)).head?, c.isDigit = false := by
    intro c hc
    rw [fractionText] at hc
    split at hc
    · exact (hbehind c hc).1
    · obtain rfl := Option.some.inj hc
      rfl
  rw [numberText, List.append_assoc, List.append_assoc, readNumber, splitWhole_append hw hpoint]
  simp only [List.isEmpty_iff, hw.ne_nil, splitFraction_text hf hbehind]
  cases exponent with
  | none =>
    rw [exponentText, List.nil_append, readExponent_none hrest]
    by_cases hfr : fraction = [] <;> simp [numberOf, hfr]
  | some e => rw [readExponent_text e hrest]; rfl

/-! ### How numbers are written -/

def signText (negative : Bool) : List Char := if negative then ['-'] else []

theorem toList_toString_int (n : Int) : (toString n).toList
    = signText (decide (n < 0)) ++ numberText (Nat.toDigits 10 n.natAbs) [] none := by
  rw [numberText, fractionText, if_pos rfl, exponentText, append_nil, append_nil]
  cases n with
  | ofNat m =>
    exact Nat.toList_repr
  | negSucc m =>
    rw [decide_eq_true (Int.negSucc_lt_zero m)]
    change ("-" ++ Nat.repr (m + 1)).toList = _
    rw [String.toList_append, Nat.toList_repr]
    rfl

theorem numberOf_int (n : Int) : numberOf (decide (n < 0)) (Nat.toDigits 10 n.natAbs) [] none = .int n := by
  rw [numberOf, if_pos rfl, ofDigits_toDigits]
  congr 1
  by_cases h : n < 0
  · rw [if_pos (decide_eq_true h)]
    omega
  · rw [if_neg (by simpa using h)]
    omega

theorem dropZeros_spec (fuel n : Nat) :
    n = (dropZeros fuel n).1 * 10 ^ (dropZeros fuel n).2 ∧ (n ≠ 0 → (dropZeros fuel n).1 ≠ 0) := by
  induction fuel generalizing n with
  | zero => exact ⟨(Nat.mul_one n).symm, id⟩
  | succ fuel ih =>
    rw [dropZeros]
    split
    · obtain ⟨hn, hne⟩ := ih (n / 10)
      simp only
      rw [Nat.pow_succ, ← Nat.mul_assoc]
      omega
    · exact ⟨(Nat.mul_one n).symm, id⟩

/-- A text is a decimal number of the same value as `x`. -/
def Written (x : Decimal) (cs : List Char) : Prop :=
  ∃ whole fraction exponent y, Whole whole ∧ AllDigits fraction ∧ cs = signText x.negative ++ numberText whole fraction exponent
    ∧ numberOf x.negative whole fraction exponent = .real y ∧ y.value = x.value

/-- A text with the digits of `m` and some zeros behind them is a decimal number of the value of `x`
if its exponent makes up for the zeros. -/
theorem written_text {x : Decimal} {m k : Nat} {whole fraction : List Char}
    (l : Nat) (hx : x.digits = m * 10 ^ k) (hw : Whole whole) (hf : AllDigits fraction)
    (hdigits : ofDigits (whole ++ fraction) = m * 10 ^ l) (hreal : fraction ≠ [] ∨ exponent ≠ none)
    (he : exponent.getD 0 - fraction.length + l = x.exponent + k) :
    Written x (signText x.negative ++ numberText whole fraction exponent) := by
  refine ⟨whole, fraction, exponent,
    ⟨x.negative, ofDigits (whole ++ fraction), exponent.getD 0 - fraction.length⟩, hw, hf, rfl, ?_, ?_⟩
  · cases exponent with
    | none =>
      rw [numberOf, if_neg (hreal.resolve_right fun h => h rfl), Option.getD_none, Int.zero_sub]
    | some e => rfl
  · exact Decimal.value_eq rfl m l k hdigits hx he

section Forms

variable {x : Decimal} {m k : Nat} {d : Char} {ds : List Char} {point : Int}

/-- The digits `d :: ds` are those of `x` up to zeros at the end, and the point stands `point` places
behind their start. -/
structure Shown (x : Decimal) (m k : Nat) (d : Char) (ds : List Char) (point : Int) : Prop where
  digits : x.digits = m * 10 ^ k
  nonzero : d ≠ '0'
  all : AllDigits (d :: ds)
  value : ofDigits (d :: ds) = m
  place : point = ds.length + 1 + x.exponent + k

theorem Shown.whole (h : Shown x m k d ds point) : Whole (d :: ds) := ⟨h.all, Or.inr ⟨d, ds, rfl, h.nonzero⟩⟩

theorem Shown.written_behind (h : Shown x m k d ds point) (hp : point ≤ 0) : Written x (signText x.negative
    ++ numberText ['0'] (List.replicate (-point).toNat '0' ++ d :: ds) none) := by
  have hplace := h.place
  apply written_text 0 h.digits whole_zero ((allDigits_zeros _).append h.all)
  · rw [ofDigits_append, ofDigits_append, ofDigits_zeros, h.value]
    simp [ofDigits]
  · exact Or.inl (by simp)
  · simp
    omega

theorem Shown.written_before (h : Shown x m k d ds point) (hp : (ds.length + 1 : Nat) ≤ point) : Written x (signText x.negative
    ++ numberText (d :: ds ++ List.replicate (point - (ds.length + 1 : Nat)).toNat '0') ['0'] none) := by
  have hplace := h.place
  apply written_text ((point - (ds.length + 1)).toNat + 1) h.digits
    (h.whole.append (fun hc => h.nonzero (List.cons.inj hc).1) (allDigits_zeros _))
    (allDigits_zeros 1)
  · rw [ofDigits_append, ofDigits_append, h.value, ofDigits_zeros, Nat.pow_succ]
    simp [ofDigits, Nat.mul_assoc]
  · exact Or.inl (by simp)
  · simp
    omega

theorem Shown.written_among {n : Nat} (h : Shown x m k d ds (n + 1)) (hn : n < ds.length) :
    Written x (signText x.negative ++ numberText (d :: ds.take n) (ds.drop n) none) := by
  have hplace := h.place
  have hsplit : d :: ds.take n ++ ds.drop n = d :: ds := by
    rw [cons_append, take_append_drop]
  have hall := h.all
  rw [← hsplit] at hall
  apply written_text 0 h.digits ⟨fun c hc => hall c (mem_append_left _ hc), Or.inr ⟨d, _, rfl, h.nonzero⟩⟩
    (fun c hc => hall c (mem_append_right _ hc))
  · rw [hsplit, h.value, Nat.pow_zero, Nat.mul_one]
  · exact Or.inl (by simpa using hn)
  · simp
    omega

theorem Shown.written_exponent (h : Shown x m k d ds point) :
    Written x (signText x.negative ++ numberText [d] ds (some (point - 1))) := by
  have hplace := h.place
  apply written_text 0 h.digits ⟨fun c hc => h.all c (mem_singleton.mp hc ▸ mem_cons_self), Or.inr ⟨d, [], rfl, h.nonzero⟩⟩
    (fun c hc => h.all c (mem_cons_of_mem d hc))
  · rw [singleton_append, h.value, Nat.pow_zero, Nat.mul_one]
  · exact Or.inr (by simp)
  · simp
    omega

end Forms

theorem toList_exponent : ('e' :: (if e < 0 then "-" else "+" : String).toList
    ++ (if (toString e.natAbs).length < 2 then "0" ++ toString e.natAbs
    else toString e.natAbs).toList) = exponentText (some e) := by
  have hdigits : (toString e.natAbs).toList = Nat.toDigits 10 e.natAbs := Nat.toList_repr
  have hlength : (toString e.natAbs).length = (Nat.toDigits 10 e.natAbs).length := by
    rw [← hdigits, String.length_toList]
  rw [exponentText, hlength]
  by_cases hneg : e < 0 <;> by_cases hshort : (Nat.toDigits 10 e.natAbs).length < 2 <;> simp [hneg, hshort]

theorem written_decimal : Written x (decimal x).toList := by
  have hsign : (if x.negative then "-" else "").toList = signText x.negative := by
    cases x.negative <;> rfl
  by_cases hzero : x.digits = 0
  · refine ⟨['0'], ['0'], none, ⟨x.negative, 0, -1⟩, whole_zero, allDigits_zeros 1, ?_, rfl, ?_⟩
    · rw [decimal, if_pos hzero, String.toList_append, hsign]
      rfl
    · simp [Decimal.value, hzero]
  obtain ⟨hx, hm⟩ := dropZeros_spec (toString x.digits).length x.digits
  rw [decimal, if_neg hzero]
  generalize dropZeros (toString x.digits).length x.digits = dropped at hx hm ⊢
  obtain ⟨m, zeros⟩ := dropped
  obtain ⟨d, ds, hdigits, hd⟩ := head_toDigits (Nat.pos_of_ne_zero (hm hzero))
  have hdigits' : (toString m).toList = d :: ds := by rw [← hdigits]; exact Nat.toList_repr
  simp only [hdigits']
  generalize hpoint : ((d :: ds).length + x.exponent + zeros) = point
  have h : Shown x m zeros d ds point :=
    ⟨hx, hd, hdigits ▸ allDigits_toDigits m, by rw [← hdigits, ofDigits_toDigits], by rw [← hpoint, length_cons]; push_cast; ring⟩
  split
  · split
    · have hw := h.written_behind ‹_›
      simpa [hsign, numberText, fractionText, exponentText] using hw
    · split
      · rename_i hhigh
        have hw := h.written_before (by simpa using hhigh)
        simpa [hsign, numberText, fractionText, exponentText] using hw
      · rename_i hlow hhigh
        rw [length_cons] at hhigh
        obtain ⟨n, rfl⟩ : ∃ n : Nat, point = n + 1 := ⟨(point - 1).toNat, by omega⟩
        have hn : n < ds.length := by omega
        have hplace : ((n : Int) + 1).toNat = n + 1 := by omega
        have hw := h.written_among hn
        simpa [hsign, numberText, fractionText, exponentText, hplace, hn.not_ge] using hw
  · have hw := h.written_exponent
    rw [numberText, ← toList_exponent] at hw
    cases ds with
    | nil => simpa [hsign, fractionText] using hw
    | cons e es => simpa [hsign, fractionText] using hw

end Json

end ScummKit
