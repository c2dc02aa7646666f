import ScummKit.Proofs.Image.Streams
import ScummKit.Word

/-!
# Numbers in words

A number of any sign is stored modulo the size of its word (`ofLE_toLE`), and what is read from a word is
stored as it was (`toLE_ofLE`).
-/

namespace ScummKit.Word

open List

variable {n : Nat} {v : Int} {bytes : List Int}

theorem emod_pow_succ (n : Nat) (v : Int) :
    v % (Nat.pow 256 (n + 1) : Nat) = v % 256 + 256 * (v / 256 % (Nat.pow 256 n : Nat)) := by
  have hpow : Nat.pow 256 (n + 1) = (256 * Nat.pow 256 n : Int) := congrArg _ Nat.pow_succ'
  have hdiv : v / (256 * Nat.pow 256 n) = v / 256 / Nat.pow 256 n :=
    (Int.ediv_ediv_of_nonneg (by decide)).symm
  rw [Int.emod_def, Int.emod_def (v / 256)]
  grind

theorem areBytes_toLE (n : Nat) (v : Int) : AreBytes (toLE n v) := by
  induction n generalizing v with
  | zero => exact .nil
  | succ n ih => exact .cons (by omega) (ih (v / 256))

theorem ofLE_toLE (n : Nat) (v : Int) : ofLE (toLE n v) = v % (Nat.pow 256 n : Nat) := by
  induction n generalizing v with
  | zero => exact (Int.emod_one v).symm
  | succ n ih => rw [toLE, ofLE, ih, emod_pow_succ]

theorem toLE_ofLE (h : AreBytes bytes) : toLE bytes.length (ofLE bytes) = bytes := by
  induction bytes with
  | nil => rfl
  | cons b bytes ih =>
    have hb := h b mem_cons_self
    have hlow : (b + 256 * ofLE bytes) % 256 = b := by omega
    have hhigh : (b + 256 * ofLE bytes) / 256 = ofLE bytes := by omega
    rw [ofLE, length_cons, toLE, hlow, hhigh, ih fun x hx => h x (mem_cons_of_mem b hx)]

/-! ### Widths that are allowed -/

section

variable (hn : n ≤ maxWidth)

include hn

theorem encodeLE_int : encodeLE (.int v) n = .ok (toLE n v) := by
  cases n with
  | zero => rfl
  | succ n =>
    rw [encodeLE]
    simp only [if_neg (show ¬(maxWidth : Int) < (n + 1 : Nat) by omega)]
    rfl

theorem encodeBE_int : encodeBE (.int v) n = .ok (toLE n v).reverse := by
  cases n with
  | zero => rfl
  | succ n =>
    rw [encodeBE, if_neg (by omega), if_neg (by omega)]
    rfl

theorem decodeLE_of_length (hlength : bytes.length = n) : decodeLE bytes n = .ok (ofLE bytes) := by
  cases n with
  | zero => rw [eq_nil_of_length_eq_zero hlength]; rfl
  | succ n =>
    rw [decodeLE, if_neg (by omega), if_neg (by omega), if_neg (by omega), Int.toNat_natCast, ← hlength, take_length]
    rfl

theorem decodeLE_toLE (h0 : 0 ≤ v) (h : v < (Nat.pow 256 n : Nat)) : decodeLE (toLE n v) n = .ok v := by
  rw [decodeLE_of_length hn (length_toLE n v), ofLE_toLE, Int.emod_eq_of_lt h0 h]

theorem decodeBE_of_length (hlength : bytes.length = n) : decodeBE bytes n = .ok (ofBE bytes) := by
  cases n with
  | zero => rw [eq_nil_of_length_eq_zero hlength]; rfl
  | succ n =>
    rw [decodeBE, if_neg (by omega), if_neg (by omega), if_neg (by omega), Int.toNat_natCast, ← hlength, take_length]
    rfl

end

end ScummKit.Word
