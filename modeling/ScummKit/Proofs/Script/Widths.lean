import ScummKit.Proofs.Image.Cursor
import ScummKit.Proofs.Pack.Numerals
import ScummKit.Proofs.Script.Headers
import ScummKit.Proofs.Script.References

/-!
# The widths of numbers

A number of 32 bits is stored as four bytes, and in a text as two halves of two bytes. The upper bytes are not
shifted far enough to fit, so a number has a code exactly if its upper half is empty (`double_code`).

A range of variables is set to a list of values. They are words if one of them fits no byte, and else bytes. Bytes
are read without a sign, so that among them a negative value is stored as another one (`range_values`).
-/

namespace ScummKit.Script

open Build Grammar Lexicon Special
open Pack (le ofLE ofLE_le)
open Layout (wordOf)

/-! ### Numbers of 32 bits -/

section Doubles

variable {n : Int} {code head : Code}

/-- A number of 32 bits in a text: two calls, each with the two bytes of a half. -/
def soundCode (n : Int) : Code := [0xff, 0x0a] ++ le 2 n ++ ([0xff, 0x0a] ++ le 2 (n / 65536))

theorem lowerHalf_eq_ok (n : Int) : Field.lowerHalf (n % 4294967296).toNat = .ok code ↔ n % 4294967296 < 65536 ∧ code = le 4 n := by
  rw [Field.lowerHalf]
  split
  · have hlow : (n % 4294967296).toNat % 256 = (n % 256).toNat := by omega
    have hhigh : (n % 4294967296).toNat / 256 = (n / 256 % 256).toNat := by omega
    have hthird : n / 256 / 256 % 256 = 0 := by omega
    have hfourth : n / 256 / 256 / 256 % 256 = 0 := by omega
    simp [le, Word.toLE, hlow, hhigh, hthird, hfourth, eq_comm]
    omega
  · simp
    omega

theorem soundCode_eq (n : Int) : soundCode n = [0xff, 0x0a] ++ (le 4 n).take 2 ++ [0xff, 0x0a] ++ (le 4 n).drop 2 := by
  simp [soundCode, le, Word.toLE, Int.ediv_ediv]

theorem soundHalf_eq_ok : soundHalf [0xff, 0x0a] n = .ok code ↔ n % 4294967296 < 65536 ∧ code = soundCode n := by
  rw [soundHalf, bind_eq_ok, soundCode_eq]
  constructor
  · rintro ⟨bytes, hbytes, h⟩
    obtain ⟨hn, rfl⟩ := (lowerHalf_eq_ok n).1 hbytes
    exact ⟨hn, (Except.ok.inj h).symm⟩
  · rintro ⟨hn, rfl⟩
    exact ⟨_, (lowerHalf_eq_ok n).2 ⟨hn, rfl⟩, rfl⟩

theorem soundNumber_toString (n : Nat) : soundNumber (toString n) = .ok n := by
  rw [soundNumber, if_neg, Numeral.read_toString]
  rw [String.startsWith_string_iff]
  intro h
  have hx : 'x' ∈ Nat.toDigits 10 n := Nat.toList_repr ▸ h.subset (by decide)
  exact absurd (Nat.isDigit_of_mem_toDigits (by decide) (by decide) hx) (by decide)

/-- A number has a code exactly if its upper half is empty, on its own as in a text. -/
theorem double_code {c : Capture} {m : Machine Assembler} (site : Site) {a b : Nat}
    (ha : a ≤ 4294967295) (hb : b ≤ 4294967295) (hc : Build.textUnder c "function" = "sound")
    (hfirst : Build.textUnder c "arg1" = toString a) (hsecond : Build.textUnder c "arg2" = toString b) :
    (∀ r m', Gets (textSound site c) m r m' ↔
      (a < 65536 ∧ b < 65536) ∧ r = .tokens [.code (soundCode a ++ soundCode b)] ∧ m' = m) ∧
    ∀ n : Int, -2147483648 ≤ n → n ≤ 4294967295 →
    ∀ code, Field.doubleWith none true n = .ok code ↔ (0 ≤ n ∧ n < 65536) ∧ code = le 4 n := by
  refine ⟨fun r m' => ?_, fun n hn hn' code => ?_⟩
  · have hhead : Gets (textFunctionHead c) m [0xff, 0x0a] m := by
      rw [textFunctionHead, hc]
      rfl
    have hlow : (a : Int) % 4294967296 < 65536 ↔ a < 65536 := by omega
    have hlow' : (b : Int) % 4294967296 < 65536 ↔ b < 65536 := by omega
    rw [textSound, Gets, run_bind_of_gets hhead, hfirst, hsecond, soundNumber_toString, soundNumber_toString]
    change Gets _ m r m' ↔ _
    simp only [Except.bind, gets_lift_bind, soundHalf_eq_ok, hlow, hlow', emit, gets_pure]
    grind
  · have hallows : Field.allows Field.doubleLow 4294967295 true n = true := by grind [Field.allows, Field.doubleLow]
    rw [Field.doubleWith, if_pos hallows]
    refine (lowerHalf_eq_ok n).trans (and_congr_left' ?_)
    omega

def soundCapture : Capture := ⟨[], [("function", .word "sound"), ("arg1", .word "65536"), ("arg2", .word "1")]⟩

theorem double_code_large : (¬ ∃ r m', Gets (textSound ⟨#[], 0⟩ soundCapture) shareMachine r m') ∧
    ∀ code, Field.doubleWith none true 65536 ≠ .ok code := by
  obtain ⟨hsound, hdouble⟩ := double_code (c := soundCapture) (m := shareMachine) ⟨#[], 0⟩ (a := 65536) (b := 1)
    (by decide) (by decide) rfl (by decide) (by decide)
  refine ⟨fun ⟨r, m', h⟩ => ?_, fun code h => ?_⟩
  · exact absurd ((hsound r m').1 h).1.1 (by decide)
  · exact absurd ((hdouble 65536 (by decide) (by decide) code).1 h).1.2 (by decide)

end Doubles

/-! ### Lists of values -/

section Ranges

variable {m : Machine Assembler} {values : List Int} {c : Capture}

def numbers (w : Nat) : Nat → Code → List Nat
  | 0, _ => []
  | n + 1, code => ofLE (code.take w) :: numbers w n (code.drop w)

/-- The values behind the start of a range: a count, and as many numbers. They are words if the operation byte has its
highest bit, and else bytes without a sign. -/
def rangeValues (op : UInt8) : Code → Option (List Nat)
  | [] => none
  | count :: data =>
    let w := if 128 ≤ op.toNat then 2 else 1
    if data.length = w * count.toNat then some (numbers w count.toNat data) else none

def rangeWidth (values : List Int) : Nat := if needsWords values then 2 else 1

def rangeOp (values : List Int) : UInt8 := if needsWords values then 0xa6 else 0x26

def rangeCode (values : List Int) : Code := le 1 values.length ++ values.flatMap (le (rangeWidth values))

theorem numbers_flatMap (w : Nat) (values : List Int) :
    numbers w values.length (values.flatMap (le w)) = values.map fun n => ofLE (le w n) := by
  induction values with
  | nil => rfl
  | cons n values ih =>
    have hlength := Pack.length_le w n
    rw [List.length_cons, numbers, List.flatMap_cons, List.take_left' hlength, List.drop_left' hlength, ih, List.map_cons]

theorem rangeValues_rangeCode (h : values.length ≤ 255) :
    rangeValues (rangeOp values) (rangeCode values) = some (values.map fun n => ofLE (le (rangeWidth values) n)) := by
  have hwidth : (if 128 ≤ (rangeOp values).toNat then 2 else 1) = rangeWidth values := by
    rw [rangeWidth, rangeOp]
    split <;> rfl
  have hlong : (values.flatMap (le (rangeWidth values))).length = rangeWidth values * values.length := by simp [Nat.mul_comm]
  have hcount : (UInt8.ofNat ((values.length : Int) % 256).toNat).toNat = values.length := by
    rw [UInt8.toNat_ofNat']
    omega
  change rangeValues _ (UInt8.ofNat ((values.length : Int) % 256).toNat :: values.flatMap _) = _
  rw [rangeValues, hwidth, hcount, if_pos hlong, numbers_flatMap]

theorem needsWords_iff : needsWords values = true ↔ ∃ n ∈ values, n < -128 ∨ 255 < n := by simp [needsWords]

/-- Bytes lose the sign of a number, words do not. -/
theorem congruent_iff : (∀ n ∈ values, n % 65536 = (ofLE (le (rangeWidth values) n) : Nat) % 65536)
    ↔ (∀ n ∈ values, 0 ≤ n) ∨ ∃ n ∈ values, n < -128 ∨ 255 < n := by
  simp only [ofLE_le, rangeWidth, ← needsWords_iff]
  by_cases hbig : needsWords values
  · rw [if_pos hbig]
    refine iff_of_true (fun n _ => ?_) (Or.inr hbig)
    change n % 65536 = n % 65536 % 65536
    omega
  · rw [if_neg hbig, or_iff_left hbig]
    refine forall₂_congr fun n hn => ?_
    have hsmall : ¬ (n < -128 ∨ 255 < n) := fun h => hbig (needsWords_iff.2 ⟨n, hn, h⟩)
    change n % 65536 = n % 256 % 65536 ↔ 0 ≤ n
    omega

theorem valueBytes_eq (h : ∀ n ∈ values, -32768 ≤ n ∧ n ≤ 65535) :
    valueBytes values = .ok (values.flatMap (le (rangeWidth values))) := by
  have hcodes : values.mapM (fun n => if needsWords values then Field.word n else Field.byte n)
      = .ok (values.map (le (rangeWidth values))) := by
    refine mapM_ok fun n hn => ?_
    rw [rangeWidth]
    split
    · exact word_eq_le.2 ⟨h n hn, rfl⟩
    · rename_i hnot
      have hsmall : ¬ (n < -128 ∨ 255 < n) := fun hbig => hnot (needsWords_iff.2 ⟨n, hn, hbig⟩)
      exact byte_eq_le.2 ⟨by omega, rfl⟩
  rw [valueBytes, hcodes]
  rfl

theorem gets_mapM_lift {f : α → Except Fault β} {xs : List α} {ys : List β} (h : xs.mapM f = .ok ys) :
    Gets (xs.mapM fun x => lift (f x)) m ys m := by
  induction xs generalizing ys with
  | nil => exact gets_pure.2 ⟨(Except.ok.inj h).symm, rfl⟩
  | cons x xs ih =>
    obtain ⟨y, zs, hy, hzs, rfl⟩ := mapM_cons_eq_ok.1 h
    rw [List.mapM_cons]
    exact gets_lift_bind.2 ⟨y, hy, gets_bind.2 ⟨zs, m, ih hzs, rfl⟩⟩

/-- As many values are stored as were written, from a start that has a code. They are those that were written, modulo
65536, exactly if none of them is negative or one of them does not fit a byte. -/
theorem range_values (site : Site) {v : Variable} {d : Capture} (hc : Build.textUnder c "function" = "setVarRange")
    (hv : v.InRange) (hcode : v.Encodable false) (hstart : Gets (variableAt (c.find? "startvar")) m v m)
    (hlist : Gets (capture? (c.find? "listvals")) m (some d) m)
    (hvalues : d.tokens.mapM (fun t => wholeNumber (some t)) = .ok values)
    (hcount : ∀ t, c.find? "numitems" = some t → wholeNumber (some t) = .ok values.length)
    (hlength : 1 ≤ values.length ∧ values.length ≤ 255) (hrange : ∀ n ∈ values, -32768 ≤ n ∧ n ≤ 65535) :
    ∃ op data read, Gets (varRangeAction site c) m (.tokens [.code (op :: (v.words false).flatMap wordOf ++ data)]) m ∧
    op.toNat % 128 = 0x26 ∧ rangeValues op data = some read ∧ read.length = values.length ∧
    (List.Forall₂ (fun (n : Int) (k : Nat) => n % 65536 = k % 65536) values read
    ↔ (∀ n ∈ values, 0 ≤ n) ∨ ∃ n ∈ values, n < -128 ∨ 255 < n) := by
  have hop : Gets (opcodeOf .plain c) m 0x26 m := by
    refine gets_bind.2 ⟨m.user, m, rfl, gets_lift.2 ⟨?_, rfl⟩⟩
    rw [hc]
    cases m.user.version <;> rfl
  have hplace : Gets (variableCode (c.find? "startvar")) m ((v.words false).flatMap wordOf) m :=
    gets_bind.2 ⟨v, m, hstart, gets_lift.2 ⟨(v.encode_eq_ok false _ hv).2 ⟨hcode, rfl⟩, rfl⟩⟩
  have hitems := gets_mapM_lift (m := m) hvalues
  have hend : Gets (do
      let code ← lift (valueBytes values)
      emit (byteCode (if needsWords values then 0x26 ||| 0x80 else 0x26) ++ (v.words false).flatMap wordOf
        ++ (← lift (Field.byte values.length)) ++ code)) m
      (.tokens [.code (rangeOp values :: (v.words false).flatMap wordOf ++ rangeCode values)]) m := by
    refine gets_lift_bind.2 ⟨_, valueBytes_eq hrange, gets_lift_bind.2 ⟨_, byte_eq_le.2 ⟨by omega, rfl⟩, ?_⟩⟩
    rw [List.append_assoc, rangeOp]
    split <;> rfl
  refine ⟨rangeOp values, rangeCode values, _, gets_bind.2 ⟨_, m, hop, gets_bind.2 ⟨_, m, hplace, ?_⟩⟩, ?_,
    rangeValues_rangeCode hlength.2, List.length_map _, ?_⟩
  · cases hnum : c.find? "numitems" with
    | none => exact gets_bind.2 ⟨none, m, rfl, gets_bind.2 ⟨_, m, hlist, gets_bind.2 ⟨_, m, hitems, hend⟩⟩⟩
    | some t =>
      refine gets_lift_bind.2 ⟨_, hcount t hnum, gets_bind.2 ⟨_, m, rfl, gets_bind.2 ⟨_, m, hlist, gets_bind.2 ⟨_, m, hitems, ?_⟩⟩⟩⟩
      dsimp only
      rw [if_pos rfl]
      exact hend
  · rw [rangeOp]
    split <;> rfl
  · rw [List.forall₂_map_right_iff, List.forall₂_same, congruent_iff]

/-- The captures of `setVarRange(Var[1], 2, [-1, 5])`. -/
def rangeCapture : Capture :=
  ⟨[], [("function", .word "setVarRange"), ("startvar", .group [] [("kind", .word "Var"), ("value", .word "1")]),
    ("numitems", .word "2"), ("listvals", .group [.word "-1", .word "5"] [])]⟩

theorem range_values_negative : ∃ op data read,
    Gets (varRangeAction ⟨#[], 0⟩ rangeCapture) shareMachine (.tokens [.code (op :: [1, 0] ++ data)]) shareMachine ∧
    rangeValues op data = some read ∧ ¬ List.Forall₂ (fun (n : Int) (k : Nat) => n % 65536 = k % 65536) [-1, 5] read := by
  have hvalues : [Token.word "-1", .word "5"].mapM (fun t => wholeNumber (some t)) = .ok [-1, 5] := by with_unfolding_all rfl
  obtain ⟨op, data, read, hcode, -, hread, -, hiff⟩ := range_values (m := shareMachine) (c := rangeCapture) ⟨#[], 0⟩
    (v := .at .global 1) (d := ⟨[.word "-1", .word "5"], []⟩) rfl (by simp [Variable.InRange, Scope.Holds])
    (by simp [Variable.Encodable]) (by with_unfolding_all rfl) (by with_unfolding_all rfl) hvalues
    (fun t ht => by cases ht; with_unfolding_all rfl) (by decide) (by decide)
  exact ⟨op, data, read, hcode, hread, fun h => absurd (hiff.1 h) (by decide)⟩

end Ranges

end ScummKit.Script
